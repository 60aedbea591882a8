/-
  File:      Update/Power.lean
  Subject:   THE UPDATER ON A DISK THAT CAN LOSE POWER.

  The runs are those of Update/Run, each file operation the system calls it stands for: a file that is
  written is synced, a copy is not, and the sync that follows a rename is of its directory. A rename
  that fails does nothing.

  * `Dir`, `Path.dir` -- the directory of `install_path` and the state directory;
  * `Powered`, `powered` -- the disk; which binaries proved themselves (the first one, and those that a
    run whose health check passes restarted the service with); and the machine;
  * `Reliable` -- **what the way back relies on**, and the code does not look at: a directory is synced
    when it is told to, and a probe does not miss what is there;
  * `WayBack` -- **what may come back**: a proven binary is installed; or the release that
    `pending.json` names, with a proven binary at `.previous`;
  * `Secure` -- everything that may come back is that;
  * `Aside` -- what was done touches none of the files this is about;
  * `leaves_*` -- the rules, one for each operation and for each function that keeps aside.
-/
import Sn46Validator.Library.Storage
import Sn46Validator.Update.Invariant

namespace Sn46Validator.Update

open Library Disk

variable {crypto : Crypto} {reports : Bytes → Option String} {key : crypto.Key}

/-! ## 1. The machine -/

/-- The two directories the updater writes in. -/
inductive Dir where
  | install
  | state
  deriving DecidableEq

def Path.dir : Path → Dir
  | .install | .previous | .staged => .install
  | .state _ | .temporary _ => .state

/-- The files that are written to. Of the others only the names change. -/
def Path.Written : Path → Prop
  | .install | .state _ => False
  | .previous | .staged | .temporary _ => True

/-- **The host and its disk.** `healthy`: the health check of this run passes; `proven`: the binaries
    that are known to be good. -/
structure Powered where
  disk : Disk Path
  due : Due Path Dir
  healthy : Prop
  proven : Bytes → Prop

namespace Powered

def files (w : Powered) : Files Path := w.disk.files

/-- After an operation on the disk. -/
def filed (w : Powered) (op : FileOp Path) (d : Disk Path) : Powered :=
  { w with disk := d, due := op.dueAfter Path.dir w.due }

/-- After the service was restarted. -/
def served (w : Powered) : Powered :=
  { w with proven := fun b => w.proven b ∨ w.healthy ∧ w.files .install = some b }

end Powered

/-- **What the operations do.** -/
@[reducible] def powered (reports : Bytes → Option String) : Machine iface where
  World := Powered
  act w op x w' :=
    match op, x with
    | .fs op, x => ∃ d, op.actOn Path.dir w.due w.disk x d ∧ w' = w.filed op d
    | .createStateDir, _ | .stateDirMeta, _ | .openLock, _ | .tryLock, _ => w' = w
    | .version, .ok out => w' = w ∧ ∃ b, w.files .staged = some b ∧ reports b = some out
    | .version, .error e => w' = w ∧ ((∃ why, e = .binary why) ∨ ∃ i, e = .io i)
    | .restart, .ok _ => w' = w.served
    | .restart, .error _ => w' = w
  cut w op w' :=
    match op with
    | .fs op => ∃ d, op.cutOn w.disk d ∧ w' = w.filed op d
    | _ => False

/-- **An operation that can be relied on**: a probe tells what there is, and the sync of a directory
    does not fail. `run` learns of neither. -/
def Reliable : Event (powered reports) → Prop
  | ⟨w, .fs (.probe p), x, _⟩ => x = (w.files p).isSome
  | ⟨w, .fs .sync, x, _⟩ => ∀ a, w.due = .directory a → x = .ok ()
  | _ => True

/-! ## 2. What may come back -/

/-- **What a rollback of `p` can start from**, of what is installed and of `.previous`: -/
inductive Reversible (reports : Bytes → Option String) (key : crypto.Key) (proven : Bytes → Prop)
    (p : Pending) : Option Bytes → Option Bytes → Prop where
  /-- A proven binary is installed, not that of `p`; nor is what may be put back. -/
  | back {b : Bytes} {q : Option Bytes} (hb : proven b) (hv : reports b ≠ some (banner p.version))
      (hq : ∀ b', q = some b' → proven b' ∧ reports b' ≠ some (banner p.version)) :
      Reversible reports key proven p (some b) q
  /-- The release is installed, and there is a proven binary to put back. -/
  | ahead {b b' : Bytes} (hl : Lands reports key p b) (hb : proven b')
      (hv : reports b' ≠ some (banner p.version)) :
      Reversible reports key proven p (some b) (some b')

/-- **There is a way back.** Of what is installed, of `.previous` and of `pending.json`: -/
inductive WayBack (reports : Bytes → Option String) (key : crypto.Key) (proven : Bytes → Prop) :
    Option Bytes → Option Bytes → Option Bytes → Prop where
  /-- Nothing is pending, and a proven binary is installed. -/
  | settled {b : Bytes} {q : Option Bytes} (hb : proven b) :
      WayBack reports key proven (some b) q none
  /-- The same, and the pending release did not land, and is not being rolled back. -/
  | unlanded {b c : Bytes} {p : Pending} (hb : proven b)
      (hv : reports b ≠ some (banner p.version)) (hr : p.rollingBack = false) :
      WayBack reports key proven (some b) (some c) (some (Pending.codec.encode p))
  /-- The pending release can be rolled back. -/
  | reversible {i q : Option Bytes} {p : Pending} (h : Reversible reports key proven p i q) :
      WayBack reports key proven i q (some (Pending.codec.encode p))

theorem Reversible.mono {proven proven' : Bytes → Prop} {p : Pending} {i q : Option Bytes}
    (hp : ∀ b, proven b → proven' b) (h : Reversible reports key proven p i q) :
    Reversible reports key proven' p i q := by
  cases h with
  | back hb hv hq => exact .back (hp _ hb) hv fun b' hb' => ⟨hp _ (hq b' hb').1, (hq b' hb').2⟩
  | ahead hl hb hv => exact .ahead hl (hp _ hb) hv

theorem WayBack.mono {proven proven' : Bytes → Prop} {i q g : Option Bytes}
    (hp : ∀ b, proven b → proven' b) (h : WayBack reports key proven i q g) :
    WayBack reports key proven' i q g := by
  cases h with
  | settled hb => exact .settled (hp _ hb)
  | unlanded hb hv hr => exact .unlanded (hp _ hb) hv hr
  | reversible h => exact .reversible (h.mono hp)

/-- `update-failed.json` can be read. -/
def FailedRead (f : Option Bytes) : Prop := Stored.of FailedReleases.codec f ≠ .malformed

/-- **Whatever may come back leaves a way back.** The two directories are lost and kept apart. -/
structure Secure (reports : Bytes → Option String) (key : crypto.Key) (w : Powered) : Prop where
  tidy : Tidy Path.dir Path.Written w.disk
  installed : Firm .install w.disk
  pending : Firm (.state .pending) w.disk
  readable : ∀ f, Lost w.disk f → FailedRead (f (.state .failed))
  wayBack : ∀ f g, Lost w.disk f → Lost w.disk g →
    WayBack reports key w.proven (f .install) (f .previous) (g (.state .pending))

/-- **What a run knows of what may come back**: `F` of the two binaries, `G` of `pending.json`. -/
structure Knows (F : Option Bytes → Option Bytes → Prop) (G : Option Bytes → Prop) (w : Powered) :
    Prop where
  tidy : Tidy Path.dir Path.Written w.disk
  installed : Firm .install w.disk
  pending : Firm (.state .pending) w.disk
  readable : ∀ f, Lost w.disk f → FailedRead (f (.state .failed))
  binaries : ∀ f, Lost w.disk f → F (f .install) (f .previous)
  record : ∀ f, Lost w.disk f → G (f (.state .pending))

section

variable {F F' : Option Bytes → Option Bytes → Prop} {G G' : Option Bytes → Prop}
  {w w' w'' : Powered}

theorem Knows.secure (h : Knows F G w)
    (hw : ∀ i q g, F i q → G g → WayBack reports key w.proven i q g) : Secure reports key w :=
  ⟨h.tidy, h.installed, h.pending, h.readable,
    fun f g hf hg => hw _ _ _ (h.binaries f hf) (h.record g hg)⟩

theorem Knows.mono (h : Knows F G w) (hF : ∀ i q, F i q → F' i q) (hG : ∀ g, G g → G' g) :
    Knows F' G' w :=
  ⟨h.tidy, h.installed, h.pending, h.readable, fun f hf => hF _ _ (h.binaries f hf),
    fun f hf => hG _ (h.record f hf)⟩

/-! ## 3. What keeps aside -/

/-- The files that a way back is about. -/
def Path.Needed : Path → Prop
  | .install | .previous | .state .pending => True
  | _ => False

/-- **Nothing that is needed was touched.** -/
structure Aside (w w' : Powered) : Prop where
  tidy : Tidy Path.dir Path.Written w'.disk
  firm : ∀ p, p.Needed → Firm p w.disk → Firm p w'.disk
  files : ∀ p, p.Needed → w'.files p = w.files p
  binaries : ∀ f, Lost w'.disk f →
    ∃ g, Lost w.disk g ∧ f .install = g .install ∧ f .previous = g .previous
  record : ∀ f, Lost w'.disk f → ∃ g, Lost w.disk g ∧ f (.state .pending) = g (.state .pending)
  readable : ∀ f, Lost w'.disk f →
    FailedRead (f (.state .failed)) ∨ ∃ g, Lost w.disk g ∧ f (.state .failed) = g (.state .failed)
  proven : ∀ b, w.proven b → w'.proven b
  healthy : w'.healthy = w.healthy

theorem Aside.trans (h : Aside w w') (h' : Aside w' w'') : Aside w w'' where
  tidy := h'.tidy
  firm p hp hf := h'.firm p hp (h.firm p hp hf)
  files p hp := (h'.files p hp).trans (h.files p hp)
  binaries f hf := by
    obtain ⟨g, hg, hi, hq⟩ := h'.binaries f hf
    obtain ⟨g', hg', hi', hq'⟩ := h.binaries g hg
    exact ⟨g', hg', hi.trans hi', hq.trans hq'⟩
  record f hf := by
    obtain ⟨g, hg, he⟩ := h'.record f hf
    obtain ⟨g', hg', he'⟩ := h.record g hg
    exact ⟨g', hg', he.trans he'⟩
  readable f hf := by
    rcases h'.readable f hf with hr | ⟨g, hg, he⟩
    · exact .inl hr
    · rw [he]
      exact h.readable g hg
  proven b hb := h'.proven b (h.proven b hb)
  healthy := h'.healthy.trans h.healthy

theorem Aside.read {f : Files Path} (h : Aside w w')
    (hr : ∀ f, Lost w.disk f → FailedRead (f (.state .failed))) (hf : Lost w'.disk f) :
    FailedRead (f (.state .failed)) := by
  rcases h.readable f hf with hr' | ⟨g, hg, he⟩
  · exact hr'
  · rw [he]
    exact hr g hg

theorem Aside.secure (h : Aside w w') (hs : Secure reports key w) : Secure reports key w' where
  tidy := h.tidy
  installed := h.firm _ trivial hs.installed
  pending := h.firm _ trivial hs.pending
  readable _ hf := h.read hs.readable hf
  wayBack f g hf hg := by
    obtain ⟨f', hf', hi, hq⟩ := h.binaries f hf
    obtain ⟨g', hg', he⟩ := h.record g hg
    rw [hi, hq, he]
    exact (hs.wayBack f' g' hf' hg').mono h.proven

theorem Aside.knows (h : Aside w w') (hk : Knows F G w) : Knows F G w' where
  tidy := h.tidy
  installed := h.firm _ trivial hk.installed
  pending := h.firm _ trivial hk.pending
  readable _ hf := h.read hk.readable hf
  binaries f hf := by
    obtain ⟨f', hf', hi, hq⟩ := h.binaries f hf
    rw [hi, hq]
    exact hk.binaries f' hf'
  record g hg := by
    obtain ⟨g', hg', he⟩ := h.record g hg
    rw [he]
    exact hk.record g' hg'

/-- The disk is as it was. -/
theorem aside_idle (ht : Tidy Path.dir Path.Written w.disk) (hd : w'.disk = w.disk)
    (hp : ∀ b, w.proven b → w'.proven b) (hh : w'.healthy = w.healthy) : Aside w w' := by
  refine ⟨?_, ?_, ?_, ?_, ?_, ?_, hp, hh⟩ <;> try simp only [Powered.files, hd]
  · exact ht
  · exact fun _ _ h => h
  · exact fun _ _ => trivial
  · exact fun f hf => ⟨f, hf, rfl, rfl⟩
  · exact fun f hf => ⟨f, hf, rfl⟩
  · exact fun f hf => .inr ⟨f, hf, rfl⟩

/-- At most the file of `t` was touched. -/
abbrev Touched (t : Path) (w w' : Powered) : Prop :=
  Touches Path.dir Path.Written t w.disk w'.disk

/-- A file that is not needed is written to, or removed. -/
theorem aside_touches {t : Path} {op : FileOp Path} {d : Disk Path}
    (h : Touches Path.dir Path.Written t w.disk d) (hn : ¬t.Needed) (hf : t ≠ .state .failed) :
    Aside w (w.filed op d) := by
  have hne : ∀ p : Path, p.Needed → p ≠ t := fun p hp he => hn (he ▸ hp)
  refine ⟨h.tidy, fun p hp => h.firm p (hne p hp), fun p hp => ?_, fun f hl => ?_,
    fun f hl => ?_, fun f hl => .inr ?_, fun _ hb => hb, rfl⟩
  · obtain ⟨c, hc⟩ := h.files
    show d.files p = w.disk.files p
    rw [hc, Function.update_of_ne (hne p hp)]
  · obtain ⟨g, hg, he⟩ := h.lost f hl
    exact ⟨g, hg, he _ (hne _ trivial), he _ (hne _ trivial)⟩
  · obtain ⟨g, hg, he⟩ := h.lost f hl
    exact ⟨g, hg, he _ (hne _ trivial)⟩
  · obtain ⟨g, hg, he⟩ := h.lost f hl
    exact ⟨g, hg, he _ hf.symm⟩

/-- A directory is synced. -/
theorem aside_settleIn (ht : Tidy Path.dir Path.Written w.disk) (op : FileOp Path) (a : Dir) :
    Aside w (w.filed op (w.disk.settleIn fun p => p.dir = a)) := by
  have hlost : ∀ (p q : Path), p.dir = q.dir → ∀ f,
      Lost (w.disk.settleIn fun p => p.dir = a) f → ∃ g, Lost w.disk g ∧ f p = g p ∧ f q = g q := by
    intro p q hpq f hf
    obtain ⟨⟨g, hg, hout⟩, ⟨g', hg', hin⟩, -⟩ := lost_settleIn hf
    by_cases hp : p.dir = a
    · exact ⟨g', hg', hin p hp, hin q (hpq.symm.trans hp)⟩
    · exact ⟨g, hg, hout p hp, hout q fun hq => hp (hpq.trans hq)⟩
  refine ⟨tidy_settleIn ht a, fun _ _ h => h, fun _ _ => rfl, fun f hf => ?_,
    fun f hf => ?_, fun f hf => .inr ?_, fun _ hb => hb, rfl⟩
  · exact hlost .install .previous rfl f hf
  · obtain ⟨g, hg, he, -⟩ := hlost (.state .pending) (.state .pending) rfl f hf
    exact ⟨g, hg, he⟩
  · obtain ⟨g, hg, he, -⟩ := hlost (.state .failed) (.state .failed) rfl f hf
    exact ⟨g, hg, he⟩

/-- A state file other than `pending.json` is put in place. -/
theorem aside_commit (op : FileOp Path) {f : StateFile} {bytes : Bytes} {i : Nat}
    (ht : Tidy Path.dir Path.Written w.disk) (hi : w.disk.names (.temporary f) = some i)
    (hs : w.disk.synced i) (hx : w.disk.data i = bytes) (hf : f ≠ .pending)
    (hb : f = .failed → FailedRead (some bytes)) :
    Aside w (w.filed op (w.disk.move (.temporary f) (.state f))) := by
  have hne : ∀ p : Path, p.Needed → p ≠ .temporary f ∧ p ≠ .state f := by
    intro p hp
    refine ⟨?_, ?_⟩ <;> intro he <;> subst he
    · exact hp
    · cases f <;> first | exact hf rfl | exact hp
  have hfirm : Firm (.temporary f) w.disk := fun j hj => Option.some.inj (hi.symm.trans hj) ▸ hs
  have hput : ∀ (g : Files Path) (p : Path), p ≠ .temporary f → p ≠ .state f →
      Function.update (Function.update g (.state f) (some (w.disk.data i))) (.temporary f) none p =
        g p := fun g p hp hq => by rw [Function.update_of_ne hp, Function.update_of_ne hq]
  have hlost : ∀ p : Path, p.Needed → ∀ q : Path, q.Needed → ∀ g,
      Lost (w.disk.move (.temporary f) (.state f)) g →
        ∃ g', Lost w.disk g' ∧ g p = g' p ∧ g q = g' q := by
    intro p hp q hq g hg
    rcases lost_move hi hs hg with hg | ⟨g', hg', rfl⟩
    · exact ⟨g, hg, rfl, rfl⟩
    · exact ⟨g', hg', hput g' p (hne p hp).1 (hne p hp).2, hput g' q (hne q hq).1 (hne q hq).2⟩
  refine ⟨tidy_move ht trivial id rfl, fun p hp hfp => firm_move hfirm fun _ => hfp,
    fun p hp => ?_, hlost .install trivial .previous trivial, fun g hg => ?_, fun g hg => ?_,
    fun _ hb => hb, rfl⟩
  · show (w.disk.move (.temporary f) (.state f)).files p = w.disk.files p
    rw [files_move hi (by simp), hput _ p (hne p hp).1 (hne p hp).2]
  · obtain ⟨g', hg', he, -⟩ := hlost (.state .pending) trivial (.state .pending) trivial g hg
    exact ⟨g', hg', he⟩
  · rcases lost_move hi hs hg with hg | ⟨g', hg', rfl⟩
    · exact .inr ⟨g, hg, rfl⟩
    · by_cases hff : f = .failed
      · subst hff
        left
        rw [Function.update_of_ne (by simp), Function.update_self, hx]
        exact hb rfl
      · exact .inr ⟨g', hg', hput g' _ (by simp) fun he => hff (Path.state.inj he).symm⟩

end

/-! ## 4. Rules -/

/-- **A program that leaves a way back**, wherever it stops, as long as its operations are
    reliable. -/
abbrev Leaves (reports : Bytes → Option String) (key : crypto.Key) {α : Type} (p : Prog iface α)
    (Q : α → Powered → Prop) (w : Powered) : Prop :=
  Ensures ((powered reports).within Reliable) (fun e => Secure reports key e.after)
    (fun _ w' => Secure reports key w') p Q w

section Rules

variable {w : Powered} {α β : Type}

/-- One operation. -/
theorem leaves_perform {op : Op} {Q : Op.Ans op → Powered → Prop}
    (hcut : ∀ w', (powered reports).cut w op w' → Secure reports key w')
    (hact : ∀ x w', (powered reports).act w op x w' →
      Reliable (⟨w, op, x, w'⟩ : Event (powered reports)) → Secure reports key w' ∧ Q x w') :
    Leaves reports key (Prog.perform (I := iface) op) Q w :=
  ensures_perform.mpr ⟨hcut, fun x w' ha => hact x w' ha.1 ha.2⟩

/-- **Sequencing.** -/
theorem leaves_seq {p : Prog iface α} {f : α → Prog iface β} {Q : β → Powered → Prop}
    (h : Leaves reports key p (fun a w' => Leaves reports key (f a) Q w') w) :
    Leaves reports key (p >>= f) Q w := ensures_bind.mpr h

/-- A first part without an error. -/
theorem leaves_lift {p : Prog iface α} {f : α → Run β} {Q : Except UpdateError β → Powered → Prop}
    (h : Leaves reports key p (fun a w' => Leaves reports key (f a).run Q w') w) :
    Leaves reports key (ExceptT.lift p >>= f).run Q w := by
  rw [Leaves, ensures_bindE, ensures_liftE]
  exact h

/-- A first part that may fail: an error of it ends the whole. -/
theorem leaves_bind {p : Run α} {f : α → Run β} {Q : Except UpdateError β → Powered → Prop}
    (h : Leaves reports key p.run (fun r w' => (∀ a, r = .ok a → Leaves reports key (f a).run Q w') ∧
      ∀ e, r = .error e → Q (.error e) w') w) : Leaves reports key (p >>= f).run Q w := by
  rw [Leaves, ensures_bindE]
  refine h.post fun r w' hr => ?_
  cases r with
  | ok a => exact hr.1 a rfl
  | error e => exact hr.2 e rfl

/-- An operation that only looks. -/
theorem leaves_look {op : FileOp Path} {Q : op.Ans → Powered → Prop} (hs : Secure reports key w)
    (hop : op.targets = [] ∧ op ≠ .sync)
    (h : ∀ x, op.actOn Path.dir w.due w.disk x w.disk →
      Reliable (⟨w, .fs op, x, w⟩ : Event (powered reports)) → Q x w) :
    Leaves reports key (Prog.perform (I := iface) (.fs op)) Q w := by
  cases op with
  | read p | probe p | isFile p =>
    refine leaves_perform (fun w' hc => hc.elim fun _ hc => hc.1.elim) fun x w' ha hr => ?_
    obtain ⟨d, hx, rfl⟩ := ha
    obtain rfl := hx.1
    exact ⟨hs, h x hx hr⟩
  | sync => exact absurd rfl hop.2
  | write | create | rename | remove | copy => exact absurd hop.1 (List.cons_ne_nil _ _)

/-- **Reading a state file.** -/
theorem leaves_readJson {c : Codec α} {f : StateFile}
    {Q : Except UpdateError (Option α) → Powered → Prop} (hs : Secure reports key w)
    (hnone : w.files (.state f) = none → Q (.ok none) w)
    (hsome : ∀ a raw, w.files (.state f) = some raw → c.decode raw = some a → Q (.ok (some a)) w)
    (herr : ∀ e, Q (.error e) w) : Leaves reports key (readJson c f).run Q w := by
  refine leaves_lift (leaves_look hs ⟨rfl, nofun⟩ fun x hx _ => ?_)
  rcases hx.2 with rfl | rfl
  · cases hr : w.disk.files (.state f) with
    | none => exact hnone hr
    | some raw =>
      dsimp only
      cases hd : c.decode raw with
      | some a => exact hsome a raw hr hd
      | none => exact herr _
  · exact herr _

/-- A sync of a directory. -/
theorem leaves_sync {a : Dir} {Q : Except IoError Unit → Powered → Prop}
    (hs : Secure reports key w) (hdue : w.due = .directory a)
    (h : ∀ w', w' = w.filed .sync (w.disk.settleIn fun p => p.dir = a) → Aside w w' →
      Q (.ok ()) w') : Leaves reports key (Prog.perform (I := iface) (.fs .sync)) Q w := by
  refine leaves_perform (fun w' hc => hc.elim fun _ hc => hc.1.elim) fun x w' ha hr => ?_
  obtain rfl := hr a hdue
  obtain ⟨d, hx, rfl⟩ := ha
  rw [hdue] at hx
  obtain ⟨-, rfl⟩ | ⟨hx, -⟩ := hx
  swap
  · cases hx
  have hside := aside_settleIn hs.tidy .sync a
  exact ⟨hside.secure hs, h _ rfl hside⟩

/-- A temporary file is written. -/
theorem leaves_write {f : StateFile} {bytes : Bytes} {Q : Except IoError Unit → Powered → Prop}
    (hs : Secure reports key w)
    (hok : ∀ w' i, Aside w w' → Touched (.temporary f) w w' →
      w'.disk.names (.temporary f) = some i → w'.disk.synced i → w'.disk.data i = bytes →
      Q (.ok ()) w')
    (herr : ∀ w' e, Aside w w' → Touched (.temporary f) w w' → Q (.error e) w') :
    Leaves reports key (Prog.perform (I := iface) (.fs (.write (.temporary f) bytes))) Q w := by
  have hside : ∀ {d}, Touches Path.dir Path.Written (.temporary f) w.disk d →
      Aside w (w.filed (.write (.temporary f) bytes) d) := fun h => aside_touches h id nofun
  refine leaves_perform (fun w' hc => ?_) fun x w' ha _ => ?_
  · obtain ⟨d, hc, rfl⟩ := hc
    exact (hside (touches_spoilt hs.tidy trivial hc)).secure hs
  · obtain ⟨d, ⟨rfl, i, d₁, ho, rfl⟩ | ⟨rfl, hc⟩, rfl⟩ := ha
    · have ht := (touches_synced (t := Path.temporary f) hs.tidy trivial ho).1
      exact ⟨(hside ht).secure hs, hok _ i (hside ht) ht ho.names_eq (.inl rfl) ho.data_eq⟩
    · have ht := touches_spoilt (t := Path.temporary f) hs.tidy trivial hc
      exact ⟨(hside ht).secure hs, herr _ _ (hside ht) ht⟩

/-- **Writing a state file** other than `pending.json`. -/
theorem leaves_writeJson {f : StateFile} {bytes : Bytes}
    {Q : Except UpdateError Unit → Powered → Prop} (hs : Secure reports key w) (hf : f ≠ .pending)
    (hb : f = .failed → FailedRead (some bytes)) (h : ∀ r w', Aside w w' → Q r w') :
    Leaves reports key (writeJson f bytes).run Q w := by
  refine leaves_lift (leaves_write hs (fun w₁ i h₁ _ hi hsync hx => ?_) fun w₁ e h₁ _ => h _ _ h₁)
  have hs₁ := h₁.secure hs
  refine leaves_lift (leaves_perform (fun w' hc => hc.elim fun _ hc => hc.1.elim)
    fun x w₂ ha _ => ?_)
  obtain ⟨d, ⟨-, rfl, rfl⟩ | ⟨hn, -, -⟩ | ⟨rfl, rfl⟩, rfl⟩ := ha
  · have h₂ := aside_commit (.rename (.temporary f) (.state f)) hs₁.tidy hi hsync hx hf hb
    have hs₂ := h₂.secure hs₁
    refine ⟨hs₂, leaves_lift (leaves_sync (a := .state) hs₂ rfl fun w₃ _ h₃ => ?_)⟩
    exact h _ _ ((h₁.trans h₂).trans h₃)
  · exact absurd (hi.symm.trans hn) nofun
  · have h₂ : Aside w₁ (w₁.filed (.rename (.temporary f) (.state f)) w₁.disk) :=
      aside_idle hs₁.tidy rfl (fun _ hb => hb) rfl
    exact ⟨h₂.secure hs₁, h _ _ (h₁.trans h₂)⟩

/-- **`record_failure`.** -/
theorem leaves_recordFailure {version : String} {sequence nowMs : U64}
    {Q : Except UpdateError Unit → Powered → Prop} (hs : Secure reports key w)
    (h : ∀ r w', Aside w w' → Q r w') :
    Leaves reports key (recordFailure version sequence nowMs).run Q w := by
  have hw : ∀ f : FailedReleases, Leaves reports key
      (if f.has sequence then (pure () : Run Unit)
        else writeJson .failed (FailedReleases.codec.encode (f.push ⟨sequence, version, nowMs⟩))).run
      Q w := by
    intro f
    split_ifs with hf
    · exact h _ _ (aside_idle hs.tidy rfl (fun _ hb => hb) rfl)
    · refine leaves_writeJson hs nofun (fun _ => ?_) h
      rw [FailedRead, Stored.of_encode]
      exact nofun
  refine leaves_bind (leaves_readJson hs (fun _ => ⟨fun o ho => ?_, nofun⟩)
    (fun f raw _ _ => ⟨fun o ho => ?_, nofun⟩) fun e => ⟨nofun, fun e' _ => ?_⟩)
  · obtain rfl := Except.ok.inj ho
    exact hw default
  · obtain rfl := Except.ok.inj ho
    exact hw f
  · exact h _ _ (aside_idle hs.tidy rfl (fun _ hb => hb) rfl)

/-- A file that is not needed is removed, or not. -/
theorem leaves_remove {t : Path} {Q : Except IoError Unit → Powered → Prop}
    (hs : Secure reports key w) (ht : ¬t.Needed) (hf : t ≠ .state .failed)
    (h : ∀ x w', Aside w w' → Q x w') :
    Leaves reports key (Prog.perform (I := iface) (.fs (.remove t))) Q w := by
  refine leaves_perform (fun w' hc => hc.elim fun _ hc => hc.1.elim) fun x w' ha _ => ?_
  have hside : Aside w w' := by
    obtain ⟨d, ⟨-, -, rfl⟩ | ⟨-, -, rfl⟩ | ⟨-, rfl⟩, rfl⟩ := ha
    · exact aside_touches (touches_unlink hs.tidy _) ht hf
    · exact aside_idle hs.tidy rfl (fun _ hb => hb) rfl
    · exact aside_idle hs.tidy rfl (fun _ hb => hb) rfl
  exact ⟨hside.secure hs, h x w' hside⟩

/-- The staged binary is removed, whatever comes of it. -/
theorem leaves_removeStaged {f : Unit → Run β} {Q : Except UpdateError β → Powered → Prop}
    (hs : Secure reports key w) (h : ∀ w', Aside w w' → Leaves reports key (f ()).run Q w') :
    Leaves reports key (removeStaged >>= f).run Q w :=
  leaves_bind (leaves_lift (leaves_remove hs id nofun fun _ w' hw =>
    ⟨fun _ _ => h w' hw, nofun⟩))

/-- The service is restarted, or not. -/
theorem leaves_restart {Q : Except String Unit → Powered → Prop} (hs : Secure reports key w)
    (hok : ∀ w', Aside w w' → w'.disk = w.disk →
      (∀ b, w.healthy → w.files .install = some b → w'.proven b) → Q (.ok ()) w')
    (herr : ∀ e, Q (.error e) w) : Leaves reports key (Prog.perform (I := iface) .restart) Q w := by
  refine leaves_perform (fun _ hc => hc.elim) fun x w' ha _ => ?_
  cases x with
  | ok u =>
    obtain rfl : w' = w.served := ha
    have hside : Aside w w.served := aside_idle hs.tidy rfl (fun _ hb => .inl hb) rfl
    exact ⟨hside.secure hs, hok _ hside rfl fun b hh hb => .inr ⟨hh, hb⟩⟩
  | error e =>
    obtain rfl : w' = w := ha
    exact ⟨hs, herr e⟩

end Rules

end Sn46Validator.Update
