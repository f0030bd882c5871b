/-
TreeRewriting/Session/Sweep.lean

One pass over a tree.

Design.  A sweep visits children before their parent and siblings from left to
right.  At each node the first rule that matches is applied.  Under the
fixpoint strategy the rewritten node is then swept again, children included,
until nothing matches in it; in a single pass it is left alone.

A rule may match for ever, so the number of rewrites is bounded by a budget.
The budget is looked at after a match has been found and before the tree is
touched: a sweep that exhausts it leaves a rule that still applies.  Every
rewrite uses up budget, and between two rewrites the sweep only goes down the
tree, so budget and size together decrease in every call.  That a sweep makes
no more rewrites than its budget allows is part of its type.
-/
import TreeRewriting.RuleSet

namespace TreeRewriting

/-- How much of a tree is rewritten. -/
inductive Strategy where
  /-- until no rule matches anywhere -/
  | fixpoint
  /-- each location at most once -/
  | singlePass
  deriving DecidableEq, Inhabited

/-- One rewrite: the rule, the location and what stood there, and the answers that the
action wrote down. -/
structure Firing where
  rule : String
  location : Location
  before : Node
  journal : List (Except Fault Reply)

/-- Why a sweep ends early. -/
inductive Halt where
  /-- a rule matched and the budget was used up -/
  | exhausted
  /-- the action of a rule ended in a fault -/
  | faulted (attempt : Firing) (fault : Fault)

/-- What a sweep with a budget comes to: the result, the rewrites in their order, and why
it ended early, if it did. -/
structure Sweep (α : Type) (budget : Nat) where
  result : α
  firings : List Firing
  halt : Option Halt
  within : firings.length ≤ budget

namespace Sweep

/-- The same sweep with another result. -/
def withResult {α β : Type} {budget : Nat} (s : Sweep α budget) (b : β) : Sweep β budget :=
  { s with result := b }

/-- The sweep ends early. -/
def stop {α : Type} {budget : Nat} (s : Sweep α budget) (h : Halt) : Sweep α budget :=
  { s with halt := some h }

theorem length_concat_le {α : Type} {budget : Nat} {s : Sweep α budget}
    (h : s.firings.length < budget) (f : Firing) : (s.firings ++ [f]).length ≤ budget := by
  rw [List.length_append]
  exact h

/-- One more rewrite. -/
def fire {α β : Type} {budget : Nat} (s : Sweep α budget) (h : s.firings.length < budget)
    (f : Firing) (b : β) : Sweep β budget where
  result := b
  firings := s.firings ++ [f]
  halt := none
  within := length_concat_le h f

/-- What remains of the budget. -/
def left {α : Type} {budget : Nat} (s : Sweep α budget) : Nat := budget - s.firings.length

theorem length_append_le {α β : Type} {budget : Nat} (s : Sweep α budget) (t : Sweep β s.left) :
    (s.firings ++ t.firings).length ≤ budget := by
  have hs := s.within
  have ht := t.within
  simp only [left] at ht
  rw [List.length_append]
  omega

/-- A sweep followed by another with what remains of the budget. -/
def andThen {α β : Type} {budget : Nat} (s : Sweep α budget) (t : Sweep β s.left) :
    Sweep β budget where
  result := t.result
  firings := s.firings ++ t.firings
  halt := t.halt
  within := s.length_append_le t

theorem left_le {α : Type} {budget : Nat} (s : Sweep α budget) : s.left ≤ budget :=
  Nat.sub_le _ _

/-- Less than the budget remains exactly after a rewrite. -/
theorem left_lt_iff {α : Type} {budget : Nat} {s : Sweep α budget} :
    s.left < budget ↔ s.firings ≠ [] := by
  have hs := s.within
  rw [Ne, ← List.length_eq_zero_iff, left]
  omega

theorem left_fire_lt {α β : Type} {budget : Nat} (s : Sweep α budget)
    (h : s.firings.length < budget) (f : Firing) (b : β) : (s.fire h f b).left < budget := by
  simp [left, fire]
  omega

/-- What decreases from a sweep to the sweeps in it: the budget, then the size of what is
swept; of a list and its only member, the member comes after the list. -/
abbrev Smaller : Nat × Nat × Nat → Nat × Nat × Nat → Prop :=
  Prod.Lex (· < ·) (Prod.Lex (· < ·) (· < ·))

theorem smaller_children (budget : Nat) (n : Node) :
    Smaller (budget, Node.sizeList n.children, 1) (budget, n.size, 0) :=
  .right _ (.left _ _ (by rw [Node.size_eq n]; omega))

theorem smaller_fired {left budget : Nat} (h : left < budget) (m n : Node) :
    Smaller (left, m.size, 0) (budget, n.size, 0) :=
  .left _ _ h

theorem smaller_first (budget : Nat) (x : Node) (xs : List Node) :
    Smaller (budget, x.size, 0) (budget, Node.sizeList (x :: xs), 1) := by
  have h : x.size ≤ Node.sizeList (x :: xs) := Node.size_le_sizeList List.mem_cons_self
  rcases Nat.eq_or_lt_of_le h with e | lt
  · rw [← e]
    exact .right _ (.right _ Nat.zero_lt_one)
  · exact .right _ (.left _ _ lt)

theorem smaller_rest {left budget : Nat} (h : left ≤ budget) (x : Node) (xs : List Node) :
    Smaller (left, Node.sizeList xs, 1) (budget, Node.sizeList (x :: xs), 1) := by
  rcases Nat.eq_or_lt_of_le h with rfl | lt
  · exact .right _ (.left _ _ (Node.sizeList_lt_cons x xs))
  · exact .left _ _ lt

end Sweep

mutual

/-- Sweeps the tree at a location. -/
def sweep (strategy : Strategy) (rules : RuleSet) (budget : Nat) (here : Location) (n : Node) :
    Sweep Node budget :=
  let below := sweepList strategy rules budget here 0 n.children
  let m := n.withChildren below.result
  match below.halt with
  | some _ => below.withResult m
  | none =>
    match rules.firstMatch? m with
    | none => below.withResult m
    | some (r, b) =>
      if h : below.firings.length < budget then
        let out := r.rewrite m b
        let firing : Firing := ⟨r.name, here, m, out.journal⟩
        match out.fault with
        | some e => (below.withResult out.tree).stop (.faulted firing e)
        | none =>
          let fired := below.fire h firing out.tree
          match strategy with
          | .singlePass => fired
          | .fixpoint => fired.andThen (sweep .fixpoint rules fired.left here out.tree)
      else (below.withResult m).stop .exhausted
termination_by (budget, n.size, 0)
decreasing_by
  · exact Sweep.smaller_children budget n
  · exact Sweep.smaller_fired (Sweep.left_fire_lt _ h _ _) _ n

/-- Sweeps the siblings below a location, of which the first has the given index. -/
def sweepList (strategy : Strategy) (rules : RuleSet) (budget : Nat) (here : Location)
    (index : Nat) : List Node → Sweep (List Node) budget
  | [] => ⟨[], [], none, Nat.zero_le _⟩
  | x :: xs =>
    let first := sweep strategy rules budget (here.child index) x
    match first.halt with
    | some _ => first.withResult (first.result :: xs)
    | none =>
      let rest := sweepList strategy rules first.left here (index + 1) xs
      (first.andThen rest).withResult (first.result :: rest.result)
termination_by xs => (budget, Node.sizeList xs, 1)
decreasing_by
  · exact Sweep.smaller_first budget x xs
  · exact Sweep.smaller_rest (Sweep.left_le _) x xs

end

/-! ### The ways a sweep goes -/

section

variable {strategy : Strategy} {rules : RuleSet} {budget : Nat} {here : Location} {index : Nat}
variable {n m x : Node} {xs : List Node} {r : Rule} {b : Binding}
variable {below : Sweep (List Node) budget}

/-- Where the sweep of the children ends early, nothing more happens. -/
theorem sweep_of_halt (hbelow : sweepList strategy rules budget here 0 n.children = below)
    {h : Halt} (hhalt : below.halt = some h) :
    sweep strategy rules budget here n = below.withResult (n.withChildren below.result) := by
  subst hbelow
  rw [sweep]
  simp only [hhalt]

/-- Where no rule matches after the children are swept, nothing more happens. -/
theorem sweep_of_no_match (hbelow : sweepList strategy rules budget here 0 n.children = below)
    (hhalt : below.halt = none) (hm : n.withChildren below.result = m)
    (hmatch : rules.firstMatch? m = none) :
    sweep strategy rules budget here n = below.withResult m := by
  subst hbelow hm
  rw [sweep]
  simp only [hhalt, hmatch]

/-- Where a rule matches and the budget is used up, the node is left as it is. -/
theorem sweep_of_spent (hbelow : sweepList strategy rules budget here 0 n.children = below)
    (hhalt : below.halt = none) (hm : n.withChildren below.result = m)
    (hmatch : rules.firstMatch? m = some (r, b)) (hspent : ¬ below.firings.length < budget) :
    sweep strategy rules budget here n = (below.withResult m).stop .exhausted := by
  subst hbelow hm
  rw [sweep]
  simp only [hhalt, hmatch, dif_neg hspent]

/-- Where the action ends in a fault, the node is left as the action left it. -/
theorem sweep_of_fault (hbelow : sweepList strategy rules budget here 0 n.children = below)
    (hhalt : below.halt = none) (hm : n.withChildren below.result = m)
    (hmatch : rules.firstMatch? m = some (r, b)) (hleft : below.firings.length < budget)
    {e : Fault} (hfault : (r.rewrite m b).fault = some e) :
    sweep strategy rules budget here n
      = (below.withResult (r.rewrite m b).tree).stop
          (.faulted ⟨r.name, here, m, (r.rewrite m b).journal⟩ e) := by
  subst hbelow hm
  rw [sweep]
  simp only [hhalt, hmatch, dif_pos hleft, hfault]

/-- In a single pass the rewritten node is left alone. -/
theorem sweep_singlePass_of_fired
    (hbelow : sweepList .singlePass rules budget here 0 n.children = below)
    (hhalt : below.halt = none) (hm : n.withChildren below.result = m)
    (hmatch : rules.firstMatch? m = some (r, b)) (hleft : below.firings.length < budget)
    (hdone : (r.rewrite m b).fault = none) :
    sweep .singlePass rules budget here n
      = below.fire hleft ⟨r.name, here, m, (r.rewrite m b).journal⟩ (r.rewrite m b).tree := by
  subst hbelow hm
  rw [sweep]
  simp only [hhalt, hmatch, dif_pos hleft, hdone]

/-- Under the fixpoint strategy the rewritten node is swept again. -/
theorem sweep_fixpoint_of_fired
    (hbelow : sweepList .fixpoint rules budget here 0 n.children = below)
    (hhalt : below.halt = none) (hm : n.withChildren below.result = m)
    (hmatch : rules.firstMatch? m = some (r, b)) (hleft : below.firings.length < budget)
    (hdone : (r.rewrite m b).fault = none) {fired : Sweep Node budget}
    (hfired : below.fire hleft ⟨r.name, here, m, (r.rewrite m b).journal⟩ (r.rewrite m b).tree
      = fired) :
    sweep .fixpoint rules budget here n
      = fired.andThen (sweep .fixpoint rules fired.left here fired.result) := by
  subst hbelow hm hfired
  rw [sweep]
  simp only [hhalt, hmatch, dif_pos hleft, hdone]
  rfl

theorem sweepList_nil :
    sweepList strategy rules budget here index [] = ⟨[], [], none, Nat.zero_le _⟩ := by
  rw [sweepList]

/-- Where the sweep of a child ends early, its later siblings are left as they are. -/
theorem sweepList_of_halt {first : Sweep Node budget}
    (hfirst : sweep strategy rules budget (here.child index) x = first) {h : Halt}
    (hhalt : first.halt = some h) :
    sweepList strategy rules budget here index (x :: xs)
      = first.withResult (first.result :: xs) := by
  subst hfirst
  rw [sweepList]
  simp only [hhalt]

/-- After a child its later siblings are swept. -/
theorem sweepList_of_finished {first : Sweep Node budget}
    (hfirst : sweep strategy rules budget (here.child index) x = first)
    (hhalt : first.halt = none) {rest : Sweep (List Node) first.left}
    (hrest : sweepList strategy rules first.left here (index + 1) xs = rest) :
    sweepList strategy rules budget here index (x :: xs)
      = (first.andThen rest).withResult (first.result :: rest.result) := by
  subst hfirst hrest
  rw [sweepList]
  simp only [hhalt]

end

end TreeRewriting
