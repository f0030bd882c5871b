/-
TreeRewriting/Proofs/Table/Resolution.lean

What the resolution rule does to a tree.

Design.  The rule fits where two clauses stand below the same node and a literal
is picked in each (`Clash`).  Its action is followed call by call: literals and
their places are read first, then both clauses are taken, and only then are they
put back shortened, so that no call finds its position gone.  The unifier is
computed by the guard and once more by the action; where the guard has let the
match pass, the action finds it too (`unify_of_find?`).
-/
import TreeRewriting.Proofs.Pattern.Fit
import TreeRewriting.Table.Resolution

namespace TreeRewriting.Resolution

open Pattern Rewriting

/-- Two clauses below a node, and a literal picked in each. -/
structure Clash (n : Node) where
  /-- which child the left clause is, and the place of its literal -/
  (i k : Nat)
  /-- which child the right clause is, and the place of its literal -/
  (j l : Nat)
  (ls ms : List Node)
  (p q : Literal)
  apart : i ≠ j
  left : n.at? [i] = some (.clause ls)
  leftLiteral : ls[k]? = some (.predicate p)
  right : n.at? [j] = some (.clause ms)
  rightLiteral : ms[l]? = some (.predicate q)

variable {check : Bool} {n : Node} {b : Binding}

namespace Clash

/-- The binding of the rule's pattern at a clash. -/
def binding (c : Clash n) : Binding := [[], [c.i], [c.i, c.k], [c.j], [c.j, c.l]]

/-- The tree with both clauses shortened and instantiated. -/
def resolve (c : Clash n) (s : Substitution) : Node :=
  (n.set [c.i] (resolvent s c.k (.clause c.ls))).set [c.j] (resolvent s c.l (.clause c.ms))

variable (c : Clash n)

theorem at_leftLiteral : n.at? [c.i, c.k] = some (.predicate c.p) :=
  (Node.at?_child c.left c.k).trans c.leftLiteral

theorem at_rightLiteral : n.at? [c.j, c.l] = some (.predicate c.q) :=
  (Node.at?_child c.right c.l).trans c.rightLiteral

/-- The right clause stays where it is when the left one changes. -/
theorem right_after (u : Node) : (n.set [c.i] u).at? [c.j] = some (.clause c.ms) :=
  (Node.at?_set_of_ne c.apart n [] [] u).trans c.right

/-- A match at a clash knows both literals. -/
theorem literal?_left (check : Bool) :
    Match.literal? ⟨n, (rule check).pattern, c.binding⟩ "b" = some c.p :=
  Match.literal?_eq_some (p := [c.i, c.k]) rfl c.at_leftLiteral

theorem literal?_right (check : Bool) :
    Match.literal? ⟨n, (rule check).pattern, c.binding⟩ "d" = some c.q :=
  Match.literal?_eq_some (p := [c.j, c.l]) rfl c.at_rightLiteral

/-- The place of a literal is within its clause. -/
theorem place_left_lt : c.k < c.ls.length := (List.getElem?_eq_some_iff.mp c.leftLiteral).1

theorem place_right_lt : c.l < c.ms.length := (List.getElem?_eq_some_iff.mp c.rightLiteral).1

theorem two_le_arity (c : Clash n) : 2 ≤ n.arity := by
  have hi := Node.lt_arity_of_at? c.left
  have hj := Node.lt_arity_of_at? c.right
  have hij := c.apart
  omega

end Clash

/-- The rule fits at the clashes of a node. -/
theorem rule_fits : (rule check).Fits n b ↔ ∃ c : Clash n, b = c.binding := by
  constructor
  · rintro ⟨hb, he⟩
    obtain ⟨-, i, u, hu, -, k, v, hv, j, hij, w, hw, -, l, x, hx, rfl⟩ :=
      mem_bindings_two_one.mp hb
    obtain ⟨hu', hv', hw', hx'⟩ : u.kind = .clause ∧ v.kind = .predicate ∧ w.kind = .clause ∧
        x.kind = .predicate := by
      simpa [rule, hu, hv, hw, hx] using he
    obtain ⟨ls, rfl⟩ : ∃ ls, u = .clause ls := Node.kind_eq_nary.mp hu'
    obtain ⟨ms, rfl⟩ : ∃ ms, w = .clause ms := Node.kind_eq_nary.mp hw'
    obtain ⟨p, rfl⟩ := Node.kind_eq_predicate.mp hv'
    obtain ⟨q, rfl⟩ := Node.kind_eq_predicate.mp hx'
    have hk : ls[k]? = some (.predicate p) := (Node.at?_child hu k).symm.trans hv
    have hl : ms[l]? = some (.predicate q) := (Node.at?_child hw l).symm.trans hx
    exact ⟨⟨i, k, j, l, ls, ms, p, q, hij.symm, hu, hk, hw, hl⟩, rfl⟩
  · rintro ⟨c, rfl⟩
    refine ⟨mem_bindings_two_one.mpr ⟨c.two_le_arity, c.i, _, c.left,
      Nat.zero_lt_of_lt c.place_left_lt, c.k, _, c.at_leftLiteral, c.j, c.apart.symm, _, c.right,
      Nat.zero_lt_of_lt c.place_right_lt, c.l, _, c.at_rightLiteral, rfl⟩, ?_⟩
    simp [rule, Clash.binding, c.left, c.right, c.at_leftLiteral, c.at_rightLiteral, Leaf.kind,
      NaryOp.kind]

/-! ### The calls of the action -/

/-- A scope of the action, with the tree and the standings it has come to. -/
def scope (check : Bool) (c : Clash n) (tree : Node) (standings : List Standing) : Scope where
  rule := (rule check).name
  pattern := (rule check).pattern
  binding := c.binding
  tree := tree
  standings := standings
  journal := []

theorem settle_left (c : Clash n) (tree : Node) (s t u v w x : Standing) :
    (scope check c tree [s, t, u, v, w]).settle 1 x = [s, x, .detached, v, w] := by
  simp [scope, Clash.binding, Scope.settle, Scope.location, Location.isBelow, c.apart]

theorem settle_right (c : Clash n) (tree : Node) (s t u v w x : Standing) :
    (scope check c tree [s, t, u, v, w]).settle 3 x = [s, t, u, x, .detached] := by
  simp [scope, Clash.binding, Scope.settle, Scope.location, Location.isBelow, c.apart.symm]

/-- The scope in which the action begins. -/
def entered (check : Bool) (c : Clash n) : Scope :=
  scope check c n [.live, .live, .live, .live, .live]

/-- The scope after the left clause has been taken. -/
def leftTaken (check : Bool) (c : Clash n) : Scope :=
  scope check c (n.set [c.i] (.bool false)) [.live, .vacated, .detached, .live, .live]

/-- The scope after both clauses have been taken. -/
def bothTaken (check : Bool) (c : Clash n) : Scope :=
  scope check c ((n.set [c.i] (.bool false)).set [c.j] (.bool false))
    [.live, .vacated, .detached, .vacated, .detached]

/-- The scope after a tree has been put where the left clause stood. -/
def leftPut (check : Bool) (c : Clash n) (u : Node) : Scope :=
  scope check c ((n.set [c.i] u).set [c.j] (.bool false))
    [.live, .live, .detached, .vacated, .detached]

/-- The scope after trees have been put where both clauses stood. -/
def bothPut (check : Bool) (c : Clash n) (u v : Node) : Scope :=
  scope check c ((n.set [c.i] u).set [c.j] v) [.live, .live, .detached, .live, .detached]

section

variable (c : Clash n)

theorem literal_left : (entered check c).literal "b" = .ok c.p := by
  have hlive : (entered check c).live "b" = .ok 2 := rfl
  exact Scope.literal_eq_ok hlive c.at_leftLiteral

theorem literal_right : (entered check c).literal "d" = .ok c.q := by
  have hlive : (entered check c).live "d" = .ok 4 := rfl
  exact Scope.literal_eq_ok hlive c.at_rightLiteral

theorem childIndex_left : (entered check c).childIndex "b" = .ok c.k := rfl

theorem childIndex_right : (entered check c).childIndex "d" = .ok c.l := rfl

theorem take_left : (entered check c).take "a" = .ok (.clause c.ls, leftTaken check c) := by
  have hlive : (entered check c).live "a" = .ok 1 := rfl
  rw [Scope.take_eq_ok hlive c.left, entered, settle_left]
  rfl

theorem take_right : (leftTaken check c).take "c" = .ok (.clause c.ms, bothTaken check c) := by
  have hlive : (leftTaken check c).live "c" = .ok 3 := rfl
  rw [Scope.take_eq_ok hlive (c.right_after _), leftTaken, settle_right]
  rfl

theorem replace_left (u : Node) :
    (bothTaken check c).replace "a" u = .ok (leftPut check c u) := by
  have hindex : (bothTaken check c).pattern.indexOf? "a" = some 1 := rfl
  -- the right clause is still out, and its place does not meddle with that of the left one
  have hcomm := Node.set_comm c.apart n [] []
  have hleft : ((n.set [c.i] (.bool false)).set [c.j] (.bool false)).at? [c.i]
      = some (.bool false) := by
    rw [hcomm]
    exact Node.at?_set_self ((Node.at?_set_of_ne c.apart.symm n [] [] _).trans c.left) _
  have htree : ((n.set [c.i] (.bool false)).set [c.j] (.bool false)).set [c.i] u
      = (n.set [c.i] u).set [c.j] (.bool false) := by
    rw [hcomm, Node.set_set, hcomm]
  rw [Scope.replace_eq_ok hindex (by rintro ⟨⟩) hleft, bothTaken, settle_left]
  exact congrArg (fun t => Except.ok (scope check c t _)) htree

theorem replace_right (u v : Node) :
    (leftPut check c u).replace "c" v = .ok (bothPut check c u v) := by
  have hindex : (leftPut check c u).pattern.indexOf? "c" = some 3 := rfl
  have hright : ((n.set [c.i] u).set [c.j] (.bool false)).at? [c.j] = some (.bool false) :=
    Node.at?_set_self (c.right_after u) _
  rw [Scope.replace_eq_ok hindex (by rintro ⟨⟩) hright, leftPut, settle_right]
  exact congrArg (fun t => Except.ok (scope check c t _)) (Node.set_set _ _ _ _)

end

/-! ### The rule -/

/-- Where the literals unify, the clauses are put back without them and as instances under
the unifier, and all else stays. -/
theorem rewrite_of_unify (c : Clash n) {s : Substitution} (hs : c.p.unify check c.q = .ok s) :
    (rule check).rewrite n c.binding = .done (c.resolve s) := by
  have hrun : (rule check).action (entered check c)
      = (.ok (), bothPut check c (resolvent s c.k (.clause c.ls))
          (resolvent s c.l (.clause c.ms))) := by
    dsimp only [rule]
    rw [bind_of_ok (read_of_ok (literal_left c)), bind_of_ok (read_of_ok (literal_right c)), hs]
    dsimp only
    rw [bind_of_ok (read_of_ok (childIndex_left c)), bind_of_ok (read_of_ok (childIndex_right c)),
      bind_of_ok (take_of_ok (take_left c)), bind_of_ok (take_of_ok (take_right c)),
      bind_of_ok (replace_of_ok (replace_left c _)), replace_of_ok (replace_right c _ _)]
  exact Rule.rewrite_of_ok hrun rfl

/-- Where the literals do not unify the action gives up. -/
theorem fault_of_not_unify (c : Clash n) {e : Unification.Clash}
    (he : c.p.unify check c.q = .error e) : ((rule check).rewrite n c.binding).fault ≠ none := by
  have hrun : (rule check).action (entered check c)
      = (.error ((entered check c).fault (.failed "literals no longer unify")),
          entered check c) := by
    dsimp only [rule]
    rw [bind_of_ok (read_of_ok (literal_left c)), bind_of_ok (read_of_ok (literal_right c)), he]
    rfl
  rw [Rule.rewrite_of_error hrun]
  rintro ⟨⟩

/-- Where the rule fits and its action ends without a fault, the literals unify and the
clauses are resolved. -/
theorem resolve_of_fits (h : (rule check).Fits n b)
    (hdone : ((rule check).rewrite n b).fault = none) :
    ∃ (c : Clash n) (s : Substitution), b = c.binding ∧ c.p.unify check c.q = .ok s ∧
      (rule check).rewrite n b = .done (c.resolve s) := by
  obtain ⟨c, rfl⟩ := rule_fits.mp h
  -- nothing has been asked of the literals yet
  rcases hs : c.p.unify check c.q with e | s
  · exact absurd hdone (fault_of_not_unify c hs)
  · exact ⟨c, s, rfl, hs, rewrite_of_unify c hs⟩

/-- Where the rule matches, the literals unify. -/
theorem unify_of_find? (h : (rule check).find? n = some b) :
    ∃ (c : Clash n) (s : Substitution), b = c.binding ∧ c.p.unify check c.q = .ok s := by
  obtain ⟨hfit, hguard⟩ := Rule.fits_of_find? h
  obtain ⟨c, rfl⟩ := rule_fits.mp hfit
  have hunify := hguard _ rfl
  simp only [c.literal?_left, c.literal?_right, Literal.canUnify, Bool.and_eq_true] at hunify
  rcases hs : c.p.unify check c.q with e | s
  · simp [hs, Except.toOption] at hunify
  · exact ⟨c, s, rfl, hs⟩

end TreeRewriting.Resolution
