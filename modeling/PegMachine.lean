import PegMachine.Capture
import PegMachine.CharSet.Text
import PegMachine.Machine
import PegMachine.Proofs.CallsAndJumps
import PegMachine.Proofs.CanonicalClass
import PegMachine.Proofs.Capturers
import PegMachine.Proofs.CharSet.Ranges
import PegMachine.Proofs.Compilation
import PegMachine.Proofs.LookbehindActions
import PegMachine.Proofs.NormalForm
import PegMachine.Proofs.Offsets
import PegMachine.Proofs.Questions
import PegMachine.Proofs.RightNesting
import PegMachine.Proofs.Safety
import PegMachine.Proofs.SizeLimit
import PegMachine.Proofs.Termination
import PegMachine.Proofs.Times
