import LambdaMachine.Main
import LambdaMachine.Proofs.Session.Soundness
import LambdaMachine.Term.Alpha
import LambdaMachine.Ty.Renaming
import LambdaMachine.Proofs.Ty.MostGeneral
import LambdaMachine.Proofs.Nameless.Indices
import LambdaMachine.Proofs.Typing.Preservation
import LambdaMachine.Proofs.Nameless.Standard
import LambdaMachine.Proofs.Reduction.Normalizing
import LambdaMachine.Proofs.Typing.Normalization
import LambdaMachine.Proofs.Ty.Circles
import LambdaMachine.Proofs.Machine.Safety
import LambdaMachine.Proofs.Nameless.Alpha
import LambdaMachine.Proofs.Reduction.Faithful
import LambdaMachine.Proofs.Ty.Rename
import LambdaMachine.Proofs.Ty.Symmetric
import LambdaMachine.Proofs.Typing.Shift
import LambdaMachine.Proofs.Session.Renumbered
import LambdaMachine.Proofs.Source.Content
import LambdaMachine.Proofs.Shell.Independence
import LambdaMachine.Proofs.Source.Nesting
import LambdaMachine.Proofs.Session.File
import LambdaMachine.Proofs.Shell.Continuation
import LambdaMachine.Proofs.Reduction.Iterates
import LambdaMachine.Proofs.Source.Rejection
import LambdaMachine.Proofs.Source.FirstError
import LambdaMachine.Proofs.Source.Occurrence
import LambdaMachine.Proofs.Session.Unbound
import LambdaMachine.Proofs.Code.Decoding
import LambdaMachine.Proofs.Machine.Usage
import LambdaMachine.Proofs.Typing.Supply
import LambdaMachine.Proofs.Session.Queue
import LambdaMachine.Proofs.Source.Lossless
import LambdaMachine.Proofs.Term.Termination
import LambdaMachine.Proofs.Ty.Equivalence
import LambdaMachine.Proofs.Source.Constants
