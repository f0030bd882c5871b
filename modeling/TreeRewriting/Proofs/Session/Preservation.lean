/-
TreeRewriting/Proofs/Session/Preservation.lean

What rewriting preserves.

Design.  Whatever the rules are, a session is a number of rewrites one after the
other, each at some location of the tree that the one before has left.  A
preorder of trees that is closed under contexts (`Precongruence`) therefore
relates the tree a session starts from to the one it leaves as soon as it
relates what the action of each rule finds to what it leaves
(`Session.related_after`).  That asks for one statement per rule, about the node
at which the rule matches and nothing around it.
-/
import TreeRewriting.Proofs.Node.Context
import TreeRewriting.Proofs.Pattern.Fit
import TreeRewriting.Proofs.Session.Trail

namespace TreeRewriting

universe u

/-- A preorder of trees that is closed under contexts. -/
structure Node.Precongruence (R : Node → Node → Prop) : Prop where
  refl : ∀ n, R n n
  trans : ∀ {n m o}, R n m → R m o → R n o
  context : Node.ContextClosed R

/-- Values that are kept in every context are kept. -/
theorem Node.Precongruence.refines {α : Type u} {f : Node → Option α}
    (h : Node.ContextClosed (Node.Refines f)) : Node.Precongruence (Node.Refines f) where
  refl _ _ hv := hv
  trans hnm hmo v hv := hmo v (hnm v hv)
  context := h

/-- Wherever the rule matches, the relation holds of what its action finds and what it
leaves. -/
def Rule.Keeps (R : Node → Node → Prop) (r : Rule) : Prop :=
  ∀ n b, r.find? n = some b → R n (r.rewrite n b).tree

variable {R : Node → Node → Prop} {rules : RuleSet}

/-- For a rule that is done wherever it matches it is enough to look at the tree it leaves. -/
theorem Rule.keeps_of_done {r : Rule}
    (h : ∀ n b, r.find? n = some b → ∃ m, r.rewrite n b = .done m ∧ R n m) : r.Keeps R := by
  intro n b hfind
  obtain ⟨m, hdone, hm⟩ := h n b hfind
  rw [hdone]
  exact hm

/-- If it does not matter what the guard says, it is enough that the rule fits. -/
theorem Rule.keeps_of_fits {r : Rule}
    (h : ∀ n b, r.Fits n b → ∃ m, r.rewrite n b = .done m ∧ R n m) : r.Keeps R :=
  keeps_of_done fun n b hfind => h n b (fits_of_find? hfind).1

/-- What the rewrite of a redex does to the subtree it does to the whole tree. -/
theorem RuleSet.related_contract (hR : Node.ContextClosed R) {n : Node} {p : Location}
    {x : Redex} (hx : rules.redexAt? n p = some x) (h : R x.subtree x.outcome.tree) :
    R n (x.contract n) := by
  obtain ⟨hlocation, hp, -⟩ := RuleSet.redexAt?_eq_some_iff.mp hx
  rw [Redex.contract, hlocation]
  exact hR.set hp h

/-- What every rewrite keeps is kept between the two ends of a session. -/
theorem Session.Account.related {strategy : Strategy} {budget : Nat} {n m : Node}
    {fs : List Firing} {ending : Ending} (h : Account strategy rules budget n m fs ending)
    (hR : Node.Precongruence R)
    (hcontract : ∀ o p x, rules.redexAt? o p = some x → R o (x.contract o)) : R n m := by
  have htrail : ∀ {fs m}, Trail rules [] n fs m → R n m := by
    intro fs m h
    refine h.invariant ?_ (hR.refl n)
    intro o p x hx _ ho
    exact hR.trans ho (hcontract o p x hx)
  cases h with
  | saturated trail => exact htrail trail
  | singlePass trail => exact htrail trail
  | exhausted trail => exact htrail trail
  | faulted trail redex =>
    -- a fault leaves what the action has done to the tree so far
    exact hR.trans (htrail trail) (hcontract _ _ _ redex)

/-- What every rule keeps, a session keeps, however it ends. -/
theorem Session.related_after (hR : Node.Precongruence R) (hrules : ∀ r ∈ rules.rules, r.Keeps R)
    (config : Config) (n : Node) : R n (run config rules n).after := by
  refine (passesFrom_account config.strategy rules config.limit n).related hR ?_
  intro o p x hx
  obtain ⟨-, hr, hfind⟩ := RuleSet.applies_of_redexAt? hx
  exact RuleSet.related_contract hR.context hx (hrules x.rule hr x.subtree x.binding hfind)

end TreeRewriting
