/-
TreeRewriting/Proofs/Table/ResolutionStep.lean

Which clauses are resolved, and what becomes of them.

Design.  The rule accepts the clashes whose literals can be unified, and the
order in which bindings are tried is that of the places picked: the left clause,
its literal, the right clause, its literal (`Clash.places`).  So the rule finds
the clash with the least places (`find?_eq_some_iff`).  Whether literals unify
does not depend on which comes first, so with a clash its mirror image is
accepted, and the least clash has its left clause before its right one
(`Clash.lt_of_least`).

Main result: `Resolution.step_exact`.
-/
import TreeRewriting.Proofs.Pattern.ValidBinding
import TreeRewriting.Proofs.Table.Resolution
import TreeRewriting.Proofs.Unification.Solvability

namespace TreeRewriting.Resolution

variable {check : Bool} {n : Node} {b : Binding}

/-! ### Clashes in their order -/

namespace Clash

/-- The places picked: the left clause, its literal, the right clause, its literal. -/
def places (c : Clash n) : List Nat := [c.i, c.k, c.j, c.l]

/-- The clash with left and right exchanged. -/
def mirror (c : Clash n) : Clash n where
  i := c.j
  k := c.l
  j := c.i
  l := c.k
  ls := c.ms
  ms := c.ls
  p := c.q
  q := c.p
  apart := c.apart.symm
  left := c.right
  leftLiteral := c.rightLiteral
  right := c.left
  rightLiteral := c.leftLiteral

/-- The literals are complementary and have a unifier. -/
def Unifiable (check : Bool) (c : Clash n) : Prop := c.p.canUnify check c.q = true

/-- No clash with unifiable literals comes earlier. -/
def Least (check : Bool) (c : Clash n) : Prop :=
  ∀ c' : Clash n, c'.Unifiable check → c'.places = c.places ∨ List.Lex (· < ·) c.places c'.places

theorem Unifiable.mirror {c : Clash n} (h : c.Unifiable check) : c.mirror.Unifiable check :=
  (Literal.canUnify_comm check c.q c.p).trans h

theorem picks_binding (c : Clash n) : Pattern.picks c.binding = c.places := rfl

theorem binding_eq_iff {c c' : Clash n} : c'.binding = c.binding ↔ c'.places = c.places := by
  constructor
  · intro h
    rw [← picks_binding, ← picks_binding, h]
  · intro h
    simp only [places, List.cons.injEq, and_true] at h
    obtain ⟨hi, hk, hj, hl⟩ := h
    rw [binding, binding, hi, hk, hj, hl]

/-- Of a clash and its mirror image the one with the left clause first comes earlier. -/
theorem lt_of_least {c : Clash n} (h : c.Unifiable check) (hleast : c.Least check) :
    c.i < c.j := by
  have hij := c.apart
  rcases hleast c.mirror h.mirror with heq | hlex
  · -- the places of the mirror image are other ones
    obtain ⟨hji, -⟩ := List.cons.inj heq
    exact absurd hji.symm hij
  · rcases List.cons_lex_cons_iff.mp hlex with hlt | ⟨heq, -⟩
    · exact hlt
    · exact absurd heq hij

end Clash

/-! ### The clash that the rule finds -/

/-- The rule with another test of the two literals in its guard. -/
def testing (check : Bool) (test : Literal → Literal → Bool) : Rule :=
  { rule check with
    guard := some fun m =>
      match m.literal? "b", m.literal? "d" with
      | some b, some d => test b d
      | _, _ => false }

theorem accepts_testing (check : Bool) (test : Literal → Literal → Bool) (c : Clash n) :
    (testing check test).accepts n c.binding = test c.p c.q := by
  have hfits : (rule check).Fits n c.binding := rule_fits.mpr ⟨c, rfl⟩
  show (_ && _) = _
  rw [show ((testing check test).expects.zip c.binding).all _ = true from hfits.expected,
    Bool.true_and]
  simp only [testing, c.literal?_left, c.literal?_right]

/-- Tests that agree on the literals of all clashes find the same clash. -/
theorem find?_testing_congr {check' : Bool} {test test' : Literal → Literal → Bool}
    (h : ∀ c : Clash n, test c.p c.q = test' c.p c.q) :
    (testing check test).find? n = (testing check' test').find? n := by
  apply Pattern.findBinding_congr
  intro b hb
  rcases hexpected : ((rule check).expects.zip b).all fun e => (n.at? e.2).any e.1.accepts with
    - | -
  · -- neither accepts what is no clash
    have hfalse : ∀ check test, (testing check test).accepts n b = false := fun check test =>
      Bool.and_eq_false_imp.mpr fun h => by
        rw [show ((testing check test).expects.zip b).all _ = false from hexpected] at h
        cases h
    rw [hfalse, hfalse]
  · obtain ⟨c, rfl⟩ := rule_fits.mp ⟨hb, hexpected⟩
    rw [accepts_testing, accepts_testing, h c]

theorem rule_eq_testing (check : Bool) :
    rule check = testing check fun p q => p.canUnify check q := rfl

/-- The rule accepts the clashes whose literals are unifiable. -/
theorem accepts_binding_iff (c : Clash n) :
    (rule check).accepts n c.binding = true ↔ c.Unifiable check := by
  rw [rule_eq_testing, accepts_testing, Clash.Unifiable]

/-- What the rule accepts among the bindings of its pattern are clashes. -/
theorem accepted_iff :
    b ∈ (rule check).pattern.bindings n ∧ (rule check).accepts n b = true ↔
      ∃ c : Clash n, b = c.binding ∧ c.Unifiable check := by
  constructor
  · rintro ⟨hb, haccepts⟩
    have hexpected := (Bool.and_eq_true_iff.mp haccepts).1
    obtain ⟨c, rfl⟩ := rule_fits.mp ⟨hb, hexpected⟩
    exact ⟨c, rfl, (accepts_binding_iff c).mp haccepts⟩
  · rintro ⟨c, rfl, hc⟩
    exact ⟨(rule_fits.mpr ⟨c, rfl⟩).bound, (accepts_binding_iff c).mpr hc⟩

/-- The rule finds the least clash with unifiable literals. -/
theorem find?_eq_some_iff :
    (rule check).find? n = some b ↔
      ∃ c : Clash n, b = c.binding ∧ c.Unifiable check ∧ c.Least check := by
  rw [Rule.find?, Pattern.findBinding_eq,
    Pattern.find?_eq_some_iff_first (Pattern.pairwise_bindings _ n), ← and_assoc, accepted_iff]
  constructor
  · rintro ⟨⟨c, rfl, hc⟩, hfirst⟩
    refine ⟨c, rfl, hc, fun c' hc' => ?_⟩
    obtain ⟨hmem, haccepts⟩ := accepted_iff.mpr ⟨c', rfl, hc'⟩
    exact (hfirst c'.binding hmem haccepts).imp Clash.binding_eq_iff.mp id
  · rintro ⟨c, rfl, hc, hleast⟩
    refine ⟨⟨c, rfl, hc⟩, fun b' hmem haccepts => ?_⟩
    obtain ⟨c', rfl, hc'⟩ := accepted_iff.mp ⟨hmem, haccepts⟩
    exact (hleast c' hc').imp Clash.binding_eq_iff.mpr id

/-- The rule finds nothing only where no clash has unifiable literals. -/
theorem exists_find?_iff :
    (∃ b, (rule check).find? n = some b) ↔ ∃ c : Clash n, c.Unifiable check := by
  rw [← Option.isSome_iff_exists, Rule.find?, Pattern.findBinding_eq, List.find?_isSome]
  constructor
  · rintro ⟨b, hb⟩
    obtain ⟨c, -, hc⟩ := accepted_iff.mp hb
    exact ⟨c, hc⟩
  · rintro ⟨c, hc⟩
    exact ⟨c.binding, accepted_iff.mpr ⟨c, rfl, hc⟩⟩

/-! ### What becomes of the node -/

theorem resolvent_clause (s : Substitution) (index : Nat) (ls : List Node) :
    resolvent s index (.clause ls) = .clause ((ls.eraseIdx index).map s.applyNode) := by
  rw [resolvent, Substitution.applyNode, Substitution.applyNodes_eq_map]

theorem Clash.children_resolve (c : Clash n) (s : Substitution) :
    (c.resolve s).children =
      (n.children.set c.i (.clause ((c.ls.eraseIdx c.k).map s.applyNode))).set c.j
        (.clause ((c.ms.eraseIdx c.l).map s.applyNode)) := by
  have hleft : n.children[c.i]? = some (.clause c.ls) := (n.at?_singleton c.i).symm.trans c.left
  have hright : (n.set [c.i] (resolvent s c.k (.clause c.ls))).children[c.j]?
      = some (.clause c.ms) :=
    (Node.at?_singleton _ c.j).symm.trans (c.right_after _)
  rw [resolve, Node.children_set_cons hright, Node.children_set_cons hleft, resolvent_clause,
    resolvent_clause]
  rfl

theorem Clash.kind_resolve (c : Clash n) (s : Substitution) : (c.resolve s).kind = n.kind := by
  have hkind : ∀ (m : Node) (i : Nat) (x : Node), (m.set [i] x).kind = m.kind := by
    intro m i x
    rcases h : m.children[i]? with - | y
    · rw [Node.set_of_no_child h]
    · rw [Node.set_cons h, Node.kind_withChildren]
  rw [resolve, hkind, hkind]

/-- **The resolution rule does what it is described to do.**  It fires on a node exactly when
two of the node's children are clauses that hold complementary literals with a unifier.  It
takes the first such clauses and literals, of which the left clause stands first.  Both
literals go, the unifier is applied to what remains of both clauses, and the node keeps its
kind and all its other children. -/
theorem step_exact (check : Bool) (n : Node) :
    ((∃ m, (rule check).outcome? n = some (.done m)) ↔ ∃ c : Clash n, c.Unifiable check) ∧
      ∀ out, (rule check).outcome? n = some out →
        ∃ (c : Clash n) (s : Substitution) (m : Node), c.Unifiable check ∧ c.Least check ∧
          c.i < c.j ∧ c.p.unify check c.q = .ok s ∧ out = .done m ∧ m.kind = n.kind ∧
          m.arity = n.arity ∧
          m.children[c.i]? = some (.clause ((c.ls.eraseIdx c.k).map s.applyNode)) ∧
          m.children[c.j]? = some (.clause ((c.ms.eraseIdx c.l).map s.applyNode)) ∧
          ∀ h, h ≠ c.i → h ≠ c.j → m.children[h]? = n.children[h]? := by
  have hdone : ∀ (c : Clash n), c.Unifiable check →
      ∃ s, c.p.unify check c.q = .ok s ∧
        (rule check).rewrite n c.binding = .done (c.resolve s) := by
    intro c hc
    obtain ⟨-, s, hs⟩ := Literal.canUnify_iff.mp hc
    exact ⟨s, hs, rewrite_of_unify c hs⟩
  refine ⟨⟨?fires, ?applies⟩, ?result⟩
  case fires =>
    rintro ⟨m, hm⟩
    obtain ⟨b, hb, -⟩ := Option.map_eq_some_iff.mp hm
    exact exists_find?_iff.mp ⟨b, hb⟩
  case applies =>
    intro h
    obtain ⟨b, hb⟩ := exists_find?_iff.mpr h
    obtain ⟨c, rfl, hc, -⟩ := find?_eq_some_iff.mp hb
    obtain ⟨s, -, hrewrite⟩ := hdone c hc
    exact ⟨c.resolve s, by rw [Rule.outcome?, hb, Option.map_some, hrewrite]⟩
  case result =>
    intro out hout
    obtain ⟨b, hb, rfl⟩ := Option.map_eq_some_iff.mp hout
    obtain ⟨c, rfl, hc, hleast⟩ := find?_eq_some_iff.mp hb
    obtain ⟨s, hs, hrewrite⟩ := hdone c hc
    have hi : c.i < n.children.length := Node.lt_arity_of_at? c.left
    have hj : c.j < n.children.length := Node.lt_arity_of_at? c.right
    have hchildren := c.children_resolve s
    refine ⟨c, s, c.resolve s, hc, hleast, Clash.lt_of_least hc hleast, hs, hrewrite,
      c.kind_resolve s, ?_, ?_, ?_, fun h hhi hhj => ?_⟩
    · rw [Node.arity, hchildren, List.length_set, List.length_set, Node.arity]
    · rw [hchildren, List.getElem?_set_ne c.apart.symm, List.getElem?_set_self hi]
    · rw [hchildren, List.getElem?_set_self (by rwa [List.length_set])]
    · rw [hchildren, List.getElem?_set_ne hhj.symm, List.getElem?_set_ne hhi.symm]

end TreeRewriting.Resolution
