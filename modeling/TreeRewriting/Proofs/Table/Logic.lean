/-
TreeRewriting/Proofs/Table/Logic.lean

What the rules of propositional logic do to a tree.

Where a rule fits, the tree is written out, and so is the tree its action
leaves, whatever the guard says.  What the rules have in common, guards aside,
is the relation `Contracts`.  Where a rule matches, the guard says more about
the tree: which constant it holds, and which operands are the same.
-/
import TreeRewriting.Proofs.Node.Identity
import TreeRewriting.Proofs.Pattern.Fit
import TreeRewriting.Table.Logic

namespace TreeRewriting.Logic

variable {n : Node} {b : Binding}

/-! ### Negation -/

theorem notNot_of_fits (h : notNot.Fits n b) :
    ∃ u, n = .not (.not u) ∧ b = [[], [0], [0, 0]] ∧ notNot.rewrite n b = .done u := by
  obtain ⟨u, rfl, -, rfl⟩ := (fits_unary_unary .not .not).mp h
  exact ⟨u, rfl, rfl, rfl⟩

theorem notConstant_of_fits (h : notConstant.Fits n b) :
    ∃ t : Bool, n = .not (.bool t) ∧ b = [[], [0]] ∧
      notConstant.rewrite n b = .done (.bool !t) := by
  obtain ⟨u, rfl, hu, rfl⟩ := (fits_unary .not).mp h
  obtain ⟨t, rfl⟩ := Node.kind_eq_bool.mp (Expect.accepts_is.mp hu)
  exact ⟨t, rfl, rfl, rfl⟩

/-! ### Conjunction and disjunction -/

/-- The other operand stays where the truth constant is neutral, else the constant does. -/
theorem absorb_of_fits {name : String} {op : BinaryOp} {value neutral : Bool}
    (h : (absorb name op.kind value neutral).Fits n b) :
    ∃ t u, (n = .binary op (.bool t) u ∧ b = [[], [0], [1]] ∨
        n = .binary op u (.bool t) ∧ b = [[], [1], [0]]) ∧
      (absorb name op.kind value neutral).rewrite n b
        = .done (if neutral then u else .bool value) := by
  obtain ⟨v, u, hv, -, hn⟩ := (fits_two op).mp h
  obtain ⟨t, rfl⟩ := Node.kind_eq_bool.mp (Expect.accepts_is.mp hv)
  refine ⟨t, u, hn, ?_⟩
  obtain ⟨rfl, rfl⟩ | ⟨rfl, rfl⟩ := hn <;> cases neutral <;> rfl

theorem complement_of_fits {name : String} {op : BinaryOp} {value : Bool}
    (h : (complement name op.kind value).Fits n b) :
    ∃ u v, (n = .binary op u (.not v) ∧ b = [[], [0], [1], [1, 0]] ∨
        n = .binary op (.not v) u ∧ b = [[], [1], [0], [0, 0]]) ∧
      (complement name op.kind value).rewrite n b = .done (.bool value) := by
  obtain ⟨u, v, -, -, hn⟩ := (fits_two_unary op .not).mp h
  refine ⟨u, v, hn, ?_⟩
  obtain ⟨rfl, rfl⟩ | ⟨rfl, rfl⟩ := hn <;> rfl

theorem idempotent_of_fits {name : String} {op : BinaryOp}
    (h : (idempotent name op.kind).Fits n b) :
    ∃ u v, n = .binary op u v ∧ b = [[], [0], [1]] ∧
      (idempotent name op.kind).rewrite n b = .done u := by
  obtain ⟨u, v, rfl, -, -, rfl⟩ := (fits_binary op).mp h
  exact ⟨u, v, rfl, rfl, rfl⟩

/-! ### Clauses -/

theorem clauseTautology_of_fits (h : clauseTautology.Fits n b) :
    ∃ ls i j p q, n = .clause ls ∧ i ≠ j ∧ ls[i]? = some (.predicate p) ∧
      ls[j]? = some (.predicate q) ∧ b = [[], [i], [j]] ∧
      clauseTautology.rewrite n b = .done (.bool true) := by
  obtain ⟨ls, i, j, u, v, rfl, hij, hi, hj, hu, hv, rfl⟩ := (fits_two_of_many .clause).mp h
  obtain ⟨p, rfl⟩ := Node.kind_eq_predicate.mp (Expect.accepts_is.mp hu)
  obtain ⟨q, rfl⟩ := Node.kind_eq_predicate.mp (Expect.accepts_is.mp hv)
  exact ⟨ls, i, j, p, q, rfl, hij, hi, hj, rfl, rfl⟩

/-! ### Guards -/

theorem absorb_of_find? {name : String} {op : BinaryOp} {value neutral : Bool}
    (h : (absorb name op.kind value neutral).find? n = some b) :
    ∃ u, (n = .binary op (.bool value) u ∨ n = .binary op u (.bool value)) ∧
      (absorb name op.kind value neutral).rewrite n b
        = .done (if neutral then u else .bool value) := by
  obtain ⟨hfit, hguard⟩ := Rule.fits_of_find? h
  obtain ⟨t, u, hn, hdone⟩ := absorb_of_fits hfit
  refine ⟨u, ?_, hdone⟩
  have ht : some t == some value := by
    rcases hn with ⟨rfl, rfl⟩ | ⟨rfl, rfl⟩
    · exact hguard _ rfl
    · exact hguard _ rfl
  obtain rfl : t = value := Option.some.inj (beq_iff_eq.mp ht)
  exact hn.imp And.left And.left

theorem complement_of_find? {name : String} {op : BinaryOp} {value : Bool}
    (h : (complement name op.kind value).find? n = some b) :
    ∃ u, (n = .binary op u (.not u) ∨ n = .binary op (.not u) u) ∧
      (complement name op.kind value).rewrite n b = .done (.bool value) := by
  obtain ⟨hfit, hguard⟩ := Rule.fits_of_find? h
  obtain ⟨u, v, hn, hdone⟩ := complement_of_fits hfit
  refine ⟨u, ?_, hdone⟩
  have huv : u.structurallyEqual true v = true := by
    rcases hn with ⟨rfl, rfl⟩ | ⟨rfl, rfl⟩
    · exact hguard _ rfl
    · exact hguard _ rfl
  obtain rfl : u = v := Node.structurallyEqual_strict_iff.mp huv
  exact hn.imp And.left And.left

theorem idempotent_of_find? {name : String} {op : BinaryOp}
    (h : (idempotent name op.kind).find? n = some b) :
    ∃ u, n = .binary op u u ∧ (idempotent name op.kind).rewrite n b = .done u := by
  obtain ⟨hfit, hguard⟩ := Rule.fits_of_find? h
  obtain ⟨u, v, rfl, rfl, hdone⟩ := idempotent_of_fits hfit
  have huv : u.structurallyEqual true v = true := hguard _ rfl
  obtain rfl : u = v := Node.structurallyEqual_strict_iff.mp huv
  exact ⟨u, rfl, hdone⟩

theorem clauseTautology_of_find? (h : clauseTautology.find? n = some b) :
    ∃ ls p q, n = .clause ls ∧ .predicate p ∈ ls ∧ .predicate q ∈ ls ∧
      p.complementary q = true ∧ p.name = q.name ∧ p.args = q.args ∧
      clauseTautology.rewrite n b = .done (.bool true) := by
  obtain ⟨hfit, hguard⟩ := Rule.fits_of_find? h
  obtain ⟨ls, i, j, p, q, rfl, -, hp, hq, rfl, hdone⟩ := clauseTautology_of_fits hfit
  have hpassed := hguard _ rfl
  have hleft : Match.literal? ⟨.clause ls, clauseTautology.pattern, [[], [i], [j]]⟩ "p" = some p :=
    Match.literal?_eq_some rfl ((Node.at?_singleton _ i).trans hp)
  have hright : Match.literal? ⟨.clause ls, clauseTautology.pattern, [[], [i], [j]]⟩ "q" = some q :=
    Match.literal?_eq_some rfl ((Node.at?_singleton _ j).trans hq)
  rw [hleft, hright] at hpassed
  obtain ⟨⟨hpq, hname⟩, hargs⟩ :
      (p.complementary q = true ∧ (p.name == q.name) = true) ∧ (p.args == q.args) = true := by
    simpa only [Bool.and_eq_true] using hpassed
  exact ⟨ls, p, q, rfl, List.mem_of_getElem? hp, List.mem_of_getElem? hq, hpq,
    beq_iff_eq.mp hname, beq_iff_eq.mp hargs, hdone⟩

/-! ### The table -/

/-- The kinds of nodes that the rules of logic rewrite. -/
theorem kind_of_fits {r : Rule} (h : r ∈ rules) (hfit : r.Fits n b) :
    n.kind ∈ [Kind.not, .and, .or, .clause] := by
  have htop : ∀ r ∈ rules, ∃ k ∈ [Kind.not, .and, .or, .clause],
      r.expects.head? = some (.is k) := by
    decide
  exact Rule.kind_mem_of_fits (htop r h) hfit

/-- What a rule of logic makes of a node, when guards are not looked at. -/
inductive Contracts : Node → Node → Prop
  | notNot (u : Node) : Contracts (.not (.not u)) u
  | notConstant (t : Bool) : Contracts (.not (.bool t)) (.bool !t)
  | keepLeft (op : BinaryOp) (u v : Node) : Contracts (.binary op u v) u
  | keepRight (op : BinaryOp) (u v : Node) : Contracts (.binary op u v) v
  | decide (op : BinaryOp) (u v : Node) (t : Bool) : Contracts (.binary op u v) (.bool t)
  | tautology (ls : List Node) {i j : Nat} {p q : Literal} (apart : i ≠ j)
      (left : ls[i]? = some (.predicate p)) (right : ls[j]? = some (.predicate q)) :
      Contracts (.clause ls) (.bool true)

/-- What holds of each kind of rule holds of every rule of the table. -/
@[elab_as_elim]
theorem rules_cases {motive : Rule → Prop} (notNot : motive notNot)
    (notConstant : motive notConstant)
    (absorb : ∀ name (op : BinaryOp) value neutral, motive (absorb name op.kind value neutral))
    (complement : ∀ name (op : BinaryOp) value, motive (complement name op.kind value))
    (idempotent : ∀ name (op : BinaryOp), motive (idempotent name op.kind))
    (clauseTautology : motive clauseTautology) {r : Rule} (h : r ∈ rules) : motive r := by
  simp only [rules, List.mem_cons, List.not_mem_nil, or_false] at h
  rcases h with rfl | rfl | rfl | rfl | rfl | rfl | rfl | rfl | rfl | rfl | rfl
  · exact notNot
  · exact notConstant
  · exact absorb _ .and _ _
  · exact absorb _ .and _ _
  · exact absorb _ .or _ _
  · exact absorb _ .or _ _
  · exact complement _ .or _
  · exact complement _ .and _
  · exact idempotent _ .or
  · exact idempotent _ .and
  · exact clauseTautology

/-- Where a rule of the table fits, its action contracts the node and does not fault. -/
theorem contracts_of_fits {r : Rule} (h : r ∈ rules) (hfit : r.Fits n b) :
    ∃ m, r.rewrite n b = .done m ∧ Contracts n m := by
  revert hfit
  refine rules_cases ?notNot ?notConstant ?absorb ?complement ?idempotent ?clauseTautology h
  case notNot =>
    intro hfit
    obtain ⟨u, rfl, -, hdone⟩ := notNot_of_fits hfit
    exact ⟨_, hdone, .notNot u⟩
  case notConstant =>
    intro hfit
    obtain ⟨t, rfl, -, hdone⟩ := notConstant_of_fits hfit
    exact ⟨_, hdone, .notConstant t⟩
  case absorb =>
    intro name op value neutral hfit
    obtain ⟨t, u, hn, hdone⟩ := absorb_of_fits hfit
    refine ⟨_, hdone, ?_⟩
    cases neutral with
    | false => obtain ⟨rfl, -⟩ | ⟨rfl, -⟩ := hn <;> exact .decide op _ _ value
    | true =>
      obtain ⟨rfl, -⟩ | ⟨rfl, -⟩ := hn
      · exact .keepRight op _ u
      · exact .keepLeft op u _
  case complement =>
    intro name op value hfit
    obtain ⟨u, v, ⟨rfl, -⟩ | ⟨rfl, -⟩, hdone⟩ := complement_of_fits hfit
    · exact ⟨_, hdone, .decide op _ _ value⟩
    · exact ⟨_, hdone, .decide op _ _ value⟩
  case idempotent =>
    intro name op hfit
    obtain ⟨u, v, rfl, -, hdone⟩ := idempotent_of_fits hfit
    exact ⟨_, hdone, .keepLeft op u v⟩
  case clauseTautology =>
    intro hfit
    obtain ⟨ls, i, j, p, q, rfl, hij, hp, hq, -, hdone⟩ := clauseTautology_of_fits hfit
    exact ⟨_, hdone, .tautology ls hij hp hq⟩

end TreeRewriting.Logic
