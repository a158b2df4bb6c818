import AbstractStateMachine.Source.Snippet
import AbstractStateMachine.Proofs.Expr.Traversal
import AbstractStateMachine.Proofs.Journal.Iteration
import AbstractStateMachine.Proofs.Machine.Blocks
import AbstractStateMachine.Proofs.Machine.Conservativity
import AbstractStateMachine.Proofs.Machine.Residue
import AbstractStateMachine.Proofs.Machine.SealedLists
import AbstractStateMachine.Proofs.Machine.StaticScope
import AbstractStateMachine.Proofs.Plain.Refinement
import AbstractStateMachine.Proofs.Symbolic.Chronicle
import AbstractStateMachine.Proofs.Symbolic.Timeline
import AbstractStateMachine.Proofs.UpdateSet.Faithfulness
import AbstractStateMachine.Proofs.Machine.Override
import AbstractStateMachine.Proofs.Symbolic.Opposites
import AbstractStateMachine.Proofs.Symbolic.Unknowns
import AbstractStateMachine.Proofs.Value.PartialEquivalence
import AbstractStateMachine.Proofs.UpdateSet.WriteOrder
import AbstractStateMachine.Proofs.Machine.PushPop
import AbstractStateMachine.Proofs.Integer
import AbstractStateMachine.Proofs.Symbolic.TermNames
import AbstractStateMachine.Proofs.UpdateSet.Brackets
import AbstractStateMachine.Proofs.Machine.FaultSites
