import ConstraintModel.Proofs.Capture
import ConstraintModel.Proofs.Divisors
import ConstraintModel.Proofs.Exposure
import ConstraintModel.Proofs.Finiteness
import ConstraintModel.Proofs.IteratorStack
import ConstraintModel.Proofs.Levels
import ConstraintModel.Proofs.Ranges
import ConstraintModel.Proofs.Recovery
import ConstraintModel.Proofs.Runs
import ConstraintModel.Proofs.Serialization
import ConstraintModel.Proofs.Sessions
import ConstraintModel.Proofs.Tables
import ConstraintModel.Proofs.TypedResults
