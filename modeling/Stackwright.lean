import Stackwright.Main
import Stackwright.Text.Lines
import Stackwright.Proofs.Safety
import Stackwright.Proofs.Stuck
import Stackwright.Proofs.Balance
import Stackwright.Proofs.TypingLocality
import Stackwright.Proofs.TailCalls
import Stackwright.Proofs.Forward
import Stackwright.Proofs.Unwinding
import Stackwright.Proofs.Overriding
import Stackwright.Proofs.Canonical
import Stackwright.Proofs.NativeHandles
import Stackwright.Proofs.SwitchTables
import Stackwright.Proofs.NamedTypes
import Stackwright.Proofs.Repetition
import Stackwright.Proofs.Orders
import Stackwright.Proofs.Rendering
import Stackwright.Proofs.Receivers
