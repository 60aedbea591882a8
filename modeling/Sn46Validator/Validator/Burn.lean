/-
  File:      Validator/Burn.lean
  Subject:   THE WEIGHTS OF AN EPOCH and the burn, as far as they need no host.

  * `BurnFraction`, `BurnPolicy`, `EpochEconomics.burnForTarget` -- the share of the emission that
    is burned. 128-bit words wrap where the source does not check;
  * `weights` -- the weight vector of an epoch;
  * `SubnetBurnState.check` -- may the validator write at all?
  * `PendingSubmission` -- the record of an extrinsic whose outcome is uncertain, with the codec of
    the file that holds one or `null`.

  The line that logs the weights (`weights_line`) is left out.
-/
import Mathlib.Data.ZMod.Defs
import Sn46Validator.Library.Record
import Sn46Validator.Validator.Chain

namespace Sn46Validator.Validator

open Library

/-- The refusal of a burn. -/
structure BurnError where
  message : String
  deriving DecidableEq

/-- How a submission can end without a result: refused, or by a panic. -/
inductive Fault where
  | burn (e : BurnError)
  | panicked
  deriving DecidableEq

def refuse {α : Type} (message : String) : Except BurnError α := .error ⟨message⟩

/-- `lookup`: the error of a check before the burn. -/
def lookup (error : String) : BurnError := ⟨"Burn pre-check failed: " ++ error⟩

/-! ## 1. The burn -/

def bps : U128 := 10000

/-- **A burn**: basis points of the emission, at most all of it. -/
structure BurnFraction where
  value : U128
  le : value ≤ bps
  deriving DecidableEq

namespace BurnFraction

def none : BurnFraction := ⟨0, by decide⟩

def full : BurnFraction := ⟨bps, Fin.le_refl _⟩

end BurnFraction

inductive BurnPolicy where
  | fixed (burn : BurnFraction)
  | target (minerTargetUsdCents taoPriceUsdCents : U64)

def burnStepBps : U128 := 100

def raoPerTao : U128 := 1000000000

def u16Max : U128 := 65535

/-- The chain's numbers that price one epoch of emission. -/
structure EpochEconomics where
  alphaOutEmission : U64
  tempo : U16
  ownerCut : U16
  subnetTao : U64
  subnetAlphaIn : U64

def overflow : BurnError := ⟨"Miner emission value overflows"⟩

/-- A target in rao does not wrap, nor does it in basis points. -/
theorem target_val (t : U64) : (t.toU128 * raoPerTao).val = t.val * 1000000000 ∧
    (bps * (t.toU128 * raoPerTao)).val = 10000 * (t.val * 1000000000) := by
  have ht := t.isLt
  have h₁ : (t.toU128 * raoPerTao).val = t.val * 1000000000 := by
    rw [Fin.val_mul]
    exact Nat.mod_eq_of_lt (show t.val * 1000000000 < 2 ^ 128 by omega)
  refine ⟨h₁, ?_⟩
  rw [Fin.val_mul, h₁]
  exact Nat.mod_eq_of_lt (show 10000 * (t.val * 1000000000) < 2 ^ 128 by omega)

/-- What is kept of an emission worth more than the target is at most all of it. -/
theorem keep_le {t : U64} {v : U128} (h : ¬v ≤ t.toU128 * raoPerTao) :
    (U128.divCeil (bps * (t.toU128 * raoPerTao)) v).val ≤ 10000 := by
  obtain ⟨h₁, h₂⟩ := target_val t
  rw [Fin.le_def, h₁] at h
  have hq : 10000 * (t.val * 1000000000) / v.val ≤ 10000 :=
    Nat.div_le_of_le_mul (by rw [Nat.mul_comm v.val]; exact Nat.mul_le_mul_left _ (by omega))
  have hlt : 10000 * (t.val * 1000000000) % v.val ≠ 0 →
      10000 * (t.val * 1000000000) / v.val < 10000 := by
    intro _
    refine (Nat.div_lt_iff_lt_mul (by omega)).mpr ?_
    exact Nat.mul_lt_mul_of_pos_left (by omega) (by decide)
  unfold U128.divCeil
  have hmod : bps * (t.toU128 * raoPerTao) % v = 0 ↔ 10000 * (t.val * 1000000000) % v.val = 0 := by
    rw [Fin.ext_iff, Fin.val_mod, h₂]
    rfl
  split_ifs with hz
  · rw [Fin.div_val, h₂]
    exact hq
  · rw [Fin.val_add, Fin.div_val, h₂]
    have := hlt fun he => hz (hmod.mpr he)
    exact (Nat.mod_le _ _).trans (show _ + 1 ≤ _ by omega)

/-- A burn rounded down to whole steps. -/
theorem rounded_le {keep : U128} (h : keep.val ≤ 10000) :
    bps - keep - (bps - keep) % burnStepBps ≤ bps := by
  have hk : keep ≤ bps := h
  have h₁ : (bps - keep).val = 10000 - keep.val := Fin.sub_val_of_le hk
  have h₂ : (bps - keep) % burnStepBps ≤ bps - keep := by
    rw [Fin.le_def, Fin.val_mod]
    exact Nat.mod_le _ _
  rw [Fin.le_def, Fin.sub_val_of_le h₂, h₁]
  show _ ≤ 10000
  omega

namespace EpochEconomics

/-- **`miners_tao_rao`**: the miners' emission of an epoch, valued in rao of TAO. -/
def minersTaoRao (e : EpochEconomics) : Except BurnError U128 :=
  if e.subnetAlphaIn = 0 then refuse "Subnet pool holds no alpha; its price is undefined"
  else
    let minersAlpha := e.alphaOutEmission.toU128 * e.tempo.toU128 *
      (u16Max - e.ownerCut.toU128) / (2 * u16Max)
    match checkedMul minersAlpha e.subnetTao.toU128 with
    | some value => .ok (value / e.subnetAlphaIn.toU128)
    | none => .error overflow

/-- **`burn_for_target`**: the largest whole percent that leaves the miners the target. -/
def burnForTarget (e : EpochEconomics) (minerTargetUsdCents taoPriceUsdCents : U64) :
    Except BurnError BurnFraction := do
  match checkedMul (← e.minersTaoRao) taoPriceUsdCents.toU128 with
  | none => throw overflow
  | some minersValue =>
    let targetValue := minerTargetUsdCents.toU128 * raoPerTao
    if h : minersValue ≤ targetValue then return .none
    else
      let keep := U128.divCeil (bps * targetValue) minersValue
      let burn := bps - keep
      return ⟨burn - burn % burnStepBps, rounded_le (keep_le h)⟩

end EpochEconomics

/-- **`target_policy`**: a summary without a target sets no weights. -/
def targetPolicy {Evidence : Type} (e : EpochSummary Evidence) : Except BurnError BurnPolicy :=
  match e.minerTargetUsdCents, e.taoPriceUsdCents with
  | some target, some price => .ok (.target target.val price.val)
  | _, _ => refuse "Summary carries no miner target"

/-! ## 2. The weights -/

def maxWeight : U128 := 65535

/-- One more share of a UID, in an ordered map. -/
def addShare (uid : U16) (share : U128) : List (U16 × U128) → List (U16 × U128)
  | [] => [(uid, share)]
  | (uid', share') :: shares =>
    if uid < uid' then (uid, share) :: (uid', share') :: shares
    else if uid = uid' then (uid', share' + share) :: shares
    else (uid', share') :: addShare uid share shares

/-- The miners' shares. -/
def minerShares (burn : BurnFraction) : List MinerScore → List (U16 × U128) →
    Except Fault (List (U16 × U128))
  | [], shares => .ok shares
  | record :: miners, shares =>
    match narrow (2 ^ 16) record.uid with
    | some uid =>
      minerShares burn miners (addShare uid (record.normalizedWeight * (bps - burn.value)) shares)
    | none =>
      .error (.burn ⟨"Miner UID " ++ toString record.uid.val ++ " is not a chain UID"⟩)

/-- The largest share. -/
def highestShare (shares : List (U16 × U128)) : U128 :=
  shares.foldl (fun highest s => if highest < s.2 then s.2 else highest) 0

/-- **`weights`**: the destinations and their weights. Where the shares wrapped to zero the division
    panics. -/
def weights (miners : List MinerScore) (ownerUid : U16) (burn : BurnFraction) :
    Except Fault (List U16 × List U16) :=
  let total := (miners.map (·.normalizedWeight)).sum
  if burn = .full ∨ total = 0 then .ok ([ownerUid], [maxWeight.toU16])
  else do
    let shares := addShare ownerUid (total * burn.value) (← minerShares burn miners [])
    let highest := highestShare shares
    if highest = 0 then throw .panicked
    let scaled := shares.map fun (uid, share) =>
      (uid, U128.toU16 ((share * maxWeight + highest / 2) / highest))
    return (scaled.filter fun (_, weight) => weight > 0).unzip

/-! ## 3. The state of the subnet -/

inductive RecycleOrBurn where
  | burn
  | recycle
  deriving DecidableEq

/-- What a burn is checked against; `owner` is `none` when the chain holds no owner. -/
structure SubnetBurnState where
  mode : RecycleOrBurn
  commitReveal : Bool
  owner : Option String
  ownerUid : Option U16
  versionKey : U64

/-- **`SubnetBurnState::check`**: the owner's UID and the version to sign with. -/
def SubnetBurnState.check (s : SubnetBurnState) : Except BurnError (U16 × U64) :=
  if s.mode ≠ .burn then refuse "Subnet is not in Burn mode"
  else if s.owner = none then refuse "Subnet owner hotkey is invalid"
  else
    match s.ownerUid with
    | some uid => .ok (uid, s.versionKey)
    | none => refuse "Subnet owner UID or weights version is invalid"

/-! ## 4. The pending record -/

def mortalityBlocks : U64 := 64

/-- **What is written before a broadcast.** -/
structure PendingSubmission where
  genesis : String
  netuid : U16
  hotkey : String
  expiresAt : U64
  deriving DecidableEq

namespace PendingSubmission

def toJson (p : PendingSubmission) : Json :=
  .object [("genesis", .string p.genesis), ("netuid", .u16 p.netuid), ("hotkey", .string p.hotkey),
    ("expires_at", .u64 p.expiresAt)]

def read (j : Json) : Option PendingSubmission := do
  let field ← Json.record false ["genesis", "netuid", "hotkey", "expires_at"] j
  return {
    genesis := ← (← field "genesis").asString
    netuid := ← (← field "netuid").asU16
    hotkey := ← (← field "hotkey").asString
    expiresAt := ← (← field "expires_at").asU64 }

theorem read_toJson (p : PendingSubmission) : read p.toJson = some p := by
  rw [read, toJson, Json.record_object]
  · simp [Json.asString, List.lookup_cons]
  · rfl
  · decide

/-- A record or `null`. -/
def toJson? : Option PendingSubmission → Json
  | some p => p.toJson
  | none => .null

/-- **The submission file.** -/
def codec : Codec (Option PendingSubmission) where
  tree := toJson?
  tail := []
  read := Json.asOption read
  nest_le p := by
    cases p with
    | none => simp [toJson?, Json.nest]
    | some p => simp [toJson?, toJson, Json.nest, Json.nestMembers, Json.u16, Json.u64, Json.nat]
  tail_ws := rfl
  tail_stops := Json.stops_nil
  read_tree p := by
    cases p with
    | none => rfl
    | some p =>
      show Json.asOption read p.toJson = some (some p)
      have h := read_toJson p
      unfold toJson at h ⊢
      rw [Json.asOption, h]
      · rfl
      · simp

end PendingSubmission

end Sn46Validator.Validator
