import Sn46Validator.Library.Program
import Sn46Validator.Library.Ends
import Sn46Validator.Library.Evaluation
import Sn46Validator.Library.Guarantee
import Sn46Validator.Library.Refinement
import Sn46Validator.Library.Simulate
import Sn46Validator.Library.History
import Sn46Validator.Library.Files
import Sn46Validator.Library.Disk
import Sn46Validator.Library.Storage
import Sn46Validator.Library.Json
import Sn46Validator.Library.JsonText
import Sn46Validator.Library.JsonAscii
import Sn46Validator.Library.Rounding
import Sn46Validator.Library.Table
import Sn46Validator.Library.Text
import Sn46Validator.Library.JsonValue
import Sn46Validator.Library.Record
import Sn46Validator.Library.Shell
import Sn46Validator.Library.Calendar
import Sn46Validator.Library.Clock
import Sn46Validator.Library.Steps
import Sn46Validator.Library.Levels
import Sn46Validator.Library.Locking
import Sn46Validator.Update.Manifest
import Sn46Validator.Update.Records
import Sn46Validator.Update.Run
import Sn46Validator.Update.Model
import Sn46Validator.Update.Refine
import Sn46Validator.Update.Testbed
import Sn46Validator.Update.Spelling
import Sn46Validator.Update.Signing
import Sn46Validator.Update.Window
import Sn46Validator.Update.Utc
import Sn46Validator.Update.Admission
import Sn46Validator.Update.Attempt
import Sn46Validator.Update.Installer
import Sn46Validator.Update.Invariant
import Sn46Validator.Update.Sequence
import Sn46Validator.Update.Recovery
import Sn46Validator.Update.Order
import Sn46Validator.Update.Truth
import Sn46Validator.Update.Ordinary
import Sn46Validator.Update.Timer
import Sn46Validator.Update.Waiting
import Sn46Validator.Update.Power
import Sn46Validator.Update.Retreat
import Sn46Validator.Update.Blackout
import Sn46Validator.Validator.Chain
import Sn46Validator.Validator.Burn
import Sn46Validator.Validator.Price
import Sn46Validator.Validator.Weights
import Sn46Validator.Validator.Ratio
import Sn46Validator.Validator.Reveal
import Sn46Validator.Validator.Heads
import Sn46Validator.Validator.State
import Sn46Validator.Validator.Host
import Sn46Validator.Validator.Save
import Sn46Validator.Validator.Submit
import Sn46Validator.Validator.Run
import Sn46Validator.Validator.Model
import Sn46Validator.Validator.Refine
import Sn46Validator.Validator.Smooth
import Sn46Validator.Validator.Testbed
import Sn46Validator.Validator.Memory
import Sn46Validator.Validator.Decision
import Sn46Validator.Validator.Apart
import Sn46Validator.Validator.Node
import Sn46Validator.Validator.Once
import Sn46Validator.Validator.Earned
import Sn46Validator.Validator.Coarse
import Sn46Validator.Validator.Pending
import Sn46Validator.Validator.Service
import Sn46Validator.Validator.Lives
import Sn46Validator.Validator.Hotkey
import Sn46Validator.Validator.Signers
import Sn46Validator.Validator.Round
import Sn46Validator.Validator.Serial
