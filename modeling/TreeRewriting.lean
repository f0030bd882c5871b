import TreeRewriting.Number
import TreeRewriting.Node.Cost
import TreeRewriting.Node.Equality
import TreeRewriting.Node.Evaluation
import TreeRewriting.Node.Location
import TreeRewriting.Node.Substitution
import TreeRewriting.Node.Text
import TreeRewriting.Node.Traversal
import TreeRewriting.Script.Condition
import TreeRewriting.Script.Step
import TreeRewriting.Session
import TreeRewriting.Table
import TreeRewriting.Unification
import TreeRewriting.Proofs.Session.Restart
import TreeRewriting.Proofs.Session.Refinement
import TreeRewriting.Proofs.Session.Subtree
import TreeRewriting.Proofs.Session.Tour
import TreeRewriting.Proofs.Substitution.Dependency
import TreeRewriting.Proofs.Substitution.Closure
import TreeRewriting.Proofs.Term.InfiniteTree
import TreeRewriting.Proofs.Term.Renaming
import TreeRewriting.Proofs.Unification.Run
import TreeRewriting.Proofs.Unification.Solutions
import TreeRewriting.Proofs.Unification.InfiniteUnifier
import TreeRewriting.Proofs.Unification.OccursCheck
import TreeRewriting.Proofs.Unification.MostGeneral
import TreeRewriting.Proofs.Termination
import TreeRewriting.Proofs.Substitution.Walk
import TreeRewriting.Proofs.Session.Trail
import TreeRewriting.Proofs.Unification.Halting
import TreeRewriting.Proofs.Session.StopReason
import TreeRewriting.Proofs.Session.Budget
import TreeRewriting.Proofs.Session.Selection
import TreeRewriting.Proofs.Session.Machine
import TreeRewriting.Proofs.Session.Halting
import TreeRewriting.Proofs.Pattern.Enumeration
import TreeRewriting.Proofs.Pattern.Fit
import TreeRewriting.Proofs.Text.Separation
import TreeRewriting.Proofs.Pattern.Flattening
import TreeRewriting.Proofs.Pattern.ValidBinding
import TreeRewriting.Proofs.Pattern.Lexing
import TreeRewriting.Proofs.Pattern.Grammar
import TreeRewriting.Proofs.Pattern.ParseError
import TreeRewriting.Proofs.Pattern.Ancestor
import TreeRewriting.Proofs.Node.Patch
import TreeRewriting.Proofs.Node.Postorder
import TreeRewriting.Proofs.Rule.History
import TreeRewriting.Proofs.Rule.Frame
import TreeRewriting.Proofs.Rule.Standing
import TreeRewriting.Proofs.Rule.Placeholder
import TreeRewriting.Proofs.Rule.OperandOrder
import TreeRewriting.Proofs.Table.Algebra
import TreeRewriting.Proofs.Table.Differentiation
import TreeRewriting.Proofs.Table.Logic
import TreeRewriting.Proofs.Table.Resolution
import TreeRewriting.Proofs.Table.Contraction
import TreeRewriting.Proofs.Table.Faultless
import TreeRewriting.Proofs.Table.Potential
import TreeRewriting.Proofs.Table.Termination
import TreeRewriting.Proofs.Node.Context
import TreeRewriting.Proofs.Node.Everywhere
import TreeRewriting.Proofs.Session.Preservation
import TreeRewriting.Proofs.Node.Renaming
import TreeRewriting.Proofs.Node.Finiteness
import TreeRewriting.Proofs.Node.Identity
import TreeRewriting.Proofs.Node.AlphaEquivalence
import TreeRewriting.Proofs.Number.Comparison
import TreeRewriting.Proofs.Number.Finiteness
import TreeRewriting.Proofs.Node.Truth
import TreeRewriting.Proofs.Table.Truth
import TreeRewriting.Proofs.Node.Value
import TreeRewriting.Proofs.Table.Value
import TreeRewriting.Proofs.Node.Derivative
import TreeRewriting.Proofs.Table.Elimination
import TreeRewriting.Proofs.Node.DualNumber
import TreeRewriting.Proofs.Table.DualNumber
import TreeRewriting.Proofs.Table.Finiteness
import TreeRewriting.Proofs.Substitution.Idempotence
import TreeRewriting.Proofs.Unification.Solvability
import TreeRewriting.Proofs.Unification.Ground
import TreeRewriting.Proofs.Unification.Uniqueness
import TreeRewriting.Proofs.Unification.Variant
import TreeRewriting.Proofs.Node.Weight
import TreeRewriting.Proofs.Node.ClauseSet
import TreeRewriting.Proofs.Table.Cost
import TreeRewriting.Proofs.Table.ResolutionStep
import TreeRewriting.Proofs.Table.Refutation
