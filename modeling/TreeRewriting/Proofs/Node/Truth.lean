/-
TreeRewriting/Proofs/Node/Truth.lean

Truth of trees when atoms have truth values.

Design.  The evaluator of the program gives no value to literals and clauses.
Here an assignment says which atoms are true, a clause is the disjunction and a
clause set the conjunction of its children, and the rest is as before
(`truth_of_evalBool`).

The rules of logic do not depend on which of the two readings is taken.  What
they need is stated as `Propositional`: how negation and the connectives work,
and that a value, once there, is kept when an operand is exchanged for one that
keeps its own.  In a connective that is not trivial, since an operand that is
never looked at may have no value at all.  The two connectives are treated as
one, by the truth value that decides them (`Decides`).
-/
import TreeRewriting.Node.Evaluation
import TreeRewriting.Proofs.Node.Context

namespace TreeRewriting

/-- Which atoms are true. -/
abbrev Assignment := String → List Term → Bool

/-- The truth of a literal: that of its atom, unless it is negated. -/
def Literal.truth (I : Assignment) (l : Literal) : Bool := I l.name l.args ^^ l.negated

/-- A literal and its negation have opposite truths. -/
theorem Literal.truth_of_complementary {p q : Literal} (h : p.complementary q = true)
    (hname : p.name = q.name) (hargs : p.args = q.args) (I : Assignment) :
    q.truth I = !p.truth I := by
  have hnegated : q.negated = !p.negated := by
    exact Bool.eq_not.mpr (bne_iff_ne.mp h).symm
  rw [truth, truth, ← hname, ← hargs, hnegated, Bool.xor_not]

theorem Literal.truth_negate (p : Literal) (I : Assignment) : p.negate.truth I = !p.truth I := by
  rw [truth, truth, negate, Bool.xor_not]

/-- The kinds of operators on numbers. -/
def Kind.isArithmetic : Kind → Bool
  | negate | ln | plus | product | power | differentiate => true
  | _ => false

/-- The truth value of an operand that decides a connective. -/
inductive BinaryOp.Decides : BinaryOp → Bool → Prop
  | and : Decides .and false
  | or : Decides .or true

theorem BinaryOp.decides_or_arithmetic (op : BinaryOp) :
    (∃ t, op.Decides t) ∨ op.kind.isArithmetic = true := by
  cases op with
  | and => exact .inl ⟨false, .and⟩
  | or => exact .inl ⟨true, .or⟩
  | _ => exact .inr rfl

namespace Node

/-! ### Truth under an assignment -/

mutual

/-- The truth value of a tree under an assignment to atoms. -/
def truth (I : Assignment) (env : Nat → Option Bool) : Node → Option Bool
  | .leaf (.bool b) => some b
  | .leaf (.var i) => env i
  | .leaf (.predicate l) => some (l.truth I)
  | .leaf (.number _) => none
  | .unary .not x => (truth I env x).map Bool.not
  | .unary _ _ => none
  | .binary .and a b => (truth I env a).bind fun u => if u then truth I env b else some false
  | .binary .or a b => (truth I env a).bind fun u => if u then some true else truth I env b
  | .binary _ _ _ => none
  | .nary .clause xs => (truthList I env xs).map fun vs => vs.any id
  | .nary .clauseSet xs => (truthList I env xs).map fun vs => vs.all id

/-- The truth values of a list of trees, if all have one. -/
def truthList (I : Assignment) (env : Nat → Option Bool) : List Node → Option (List Bool)
  | [] => some []
  | x :: xs => (truth I env x).bind fun v => (truthList I env xs).map (v :: ·)

end

/-- The reading under an assignment extends the one in which literals and clauses have no
value. -/
theorem truth_of_evalBool (I : Assignment) (env : Nat → Option Bool) :
    (n : Node) → ∀ v, evalBool env n = some v → truth I env n = some v
  | .leaf l, v, h => by
    cases l with
    | bool b => exact h
    | var i => exact h
    | number x => cases h
    | predicate l => cases h
  | .unary op x, v, h => by
    cases op with
    | not =>
      obtain ⟨u, hu, rfl⟩ := Option.map_eq_some_iff.mp h
      show (truth I env x).map Bool.not = _
      rw [truth_of_evalBool I env x u hu, Option.map_some]
    | negate => cases h
    | ln => cases h
  | .binary op a b, v, h => by
    cases op with
    | and =>
      obtain ⟨u, hu, hv⟩ := Option.bind_eq_some_iff.mp h
      show (truth I env a).bind _ = _
      rw [truth_of_evalBool I env a u hu, Option.bind_some]
      cases u with
      | false => exact hv
      | true => exact truth_of_evalBool I env b v hv
    | or =>
      obtain ⟨u, hu, hv⟩ := Option.bind_eq_some_iff.mp h
      show (truth I env a).bind _ = _
      rw [truth_of_evalBool I env a u hu, Option.bind_some]
      cases u with
      | false => exact truth_of_evalBool I env b v hv
      | true => exact hv
    | _ => cases h
  | .nary _ _, v, h => by cases h

section

variable {I : Assignment} {env : Nat → Option Bool} {xs : List Node} {vs : List Bool}

theorem truth_mem_of_truthList (h : truthList I env xs = some vs) {x : Node} (hx : x ∈ xs) :
    ∃ v ∈ vs, truth I env x = some v := by
  induction xs generalizing vs with
  | nil => cases hx
  | cons y ys ih =>
    obtain ⟨v, hv, h⟩ := Option.bind_eq_some_iff.mp h
    obtain ⟨ws, hws, rfl⟩ := Option.map_eq_some_iff.mp h
    rcases List.mem_cons.mp hx with rfl | hx
    · exact ⟨v, List.mem_cons_self, hv⟩
    · obtain ⟨w, hw, hxw⟩ := ih hws hx
      exact ⟨w, List.mem_cons_of_mem v hw, hxw⟩

theorem truthList_set (h : truthList I env xs = some vs) {i : Nat} {c d : Node}
    (hc : xs[i]? = some c) (hcd : Refines (truth I env) c d) :
    truthList I env (xs.set i d) = some vs := by
  induction xs generalizing vs i with
  | nil => cases hc
  | cons x xs ih =>
    obtain ⟨v, hv, h⟩ := Option.bind_eq_some_iff.mp h
    obtain ⟨ws, hws, rfl⟩ := Option.map_eq_some_iff.mp h
    cases i with
    | zero =>
      obtain rfl : x = c := Option.some.inj hc
      rw [List.set_cons_zero, truthList, hcd v hv, Option.bind_some, hws, Option.map_some]
    | succ i =>
      have hrest : truthList I env (xs.set i d) = some ws := ih hws hc
      rw [List.set_cons_succ, truthList, hv, Option.bind_some, hrest, Option.map_some]

end

/-! ### Readings as truth values -/

/-- A reading of trees as truth values that is like the program's on constants, negations and
connectives. -/
structure Propositional (f : Node → Option Bool) : Prop where
  bool : ∀ t, f (.bool t) = some t
  not : ∀ x, f (.not x) = (f x).map Bool.not
  connective : ∀ {op t}, BinaryOp.Decides op t → ∀ a b,
    f (.binary op a b) = (f a).bind fun u => if u = t then some t else f b
  arithmetic : ∀ {n}, n.kind.isArithmetic = true → f n = none
  nary : ∀ {op xs i c d}, xs[i]? = some c → Refines f c d →
    Refines f (.nary op xs) (.nary op (xs.set i d))
  tautology : ∀ {ls p q}, .predicate p ∈ ls → .predicate q ∈ ls → p.complementary q = true →
    p.name = q.name → p.args = q.args → ∀ v, f (.clause ls) = some v → v = true

namespace Propositional

variable {f : Node → Option Bool}

/-- Either the first operand decides, or the value is that of the second. -/
theorem connective_eq_some (hf : Propositional f) {op : BinaryOp} {t : Bool} (hop : op.Decides t)
    {a b : Node} {v : Bool} :
    f (.binary op a b) = some v ↔ f a = some t ∧ v = t ∨ f a = some (!t) ∧ f b = some v := by
  rw [hf.connective hop]
  rcases f a with - | u
  · simp
  · by_cases hu : u = t
    · simp [hu, eq_comm]
    · obtain rfl : u = !t := Bool.eq_not.mpr hu
      simp

/-- Such a reading keeps values in contexts. -/
theorem contextClosed (hf : Propositional f) : ContextClosed (Refines f) := by
  apply ContextClosed.of_operators
  case unary =>
    intro op c d h
    cases op with
    | not =>
      intro v hv
      rw [hf.not] at hv ⊢
      obtain ⟨u, hu, rfl⟩ := Option.map_eq_some_iff.mp hv
      rw [h u hu, Option.map_some]
    | negate => exact .of_none (hf.arithmetic rfl)
    | ln => exact .of_none (hf.arithmetic rfl)
  case left =>
    intro op c d b h
    rcases op.decides_or_arithmetic with ⟨t, hop⟩ | hop
    · intro v hv
      rw [hf.connective_eq_some hop] at hv ⊢
      exact hv.imp (.imp_left (h t)) (.imp_left (h !t))
    · exact .of_none (hf.arithmetic hop)
  case right =>
    intro op a c d h
    rcases op.decides_or_arithmetic with ⟨t, hop⟩ | hop
    · intro v hv
      rw [hf.connective_eq_some hop] at hv ⊢
      -- where the first operand decides, nothing is known of the second
      exact hv.imp_right (.imp_right (h v))
    · exact .of_none (hf.arithmetic hop)
  case nary =>
    intro op xs i c d hc h
    exact hf.nary hc h

/-! ### Laws -/

section

variable (hf : Propositional f) {op : BinaryOp} {t : Bool} (hop : op.Decides t) (u : Node)

include hf

theorem not_not : Refines f (.not (.not u)) u := by
  apply Refines.of_eq
  rw [hf.not, hf.not, Option.map_map]
  rcases f u with - | v
  · rfl
  · exact congrArg some v.not_not

theorem not_bool (v : Bool) : Refines f (.not (.bool v)) (.bool !v) := by
  apply Refines.of_eq
  rw [hf.not, hf.bool, hf.bool, Option.map_some]

include hop

/-- The truth value that does not decide a connective is neutral. -/
theorem neutral_left : Refines f (.binary op (.bool !t) u) u := by
  intro v hv
  rw [hf.connective_eq_some hop, hf.bool] at hv
  rcases hv with ⟨ht, -⟩ | ⟨-, hv⟩
  · simp at ht
  · exact hv

theorem neutral_right : Refines f (.binary op u (.bool !t)) u := by
  intro v hv
  rw [hf.connective_eq_some hop, hf.bool] at hv
  rcases hv with ⟨hu, rfl⟩ | ⟨hu, hv⟩
  · exact hu
  · exact hu.trans hv

theorem deciding_left : Refines f (.binary op (.bool t) u) (.bool t) := by
  intro v hv
  rw [hf.connective_eq_some hop, hf.bool] at hv
  rcases hv with ⟨ht, rfl⟩ | ⟨ht, -⟩
  · exact (hf.bool v).trans ht
  · simp at ht

theorem deciding_right : Refines f (.binary op u (.bool t)) (.bool t) := by
  intro v hv
  rw [hf.connective_eq_some hop] at hv
  rcases hv with ⟨-, rfl⟩ | ⟨-, hv⟩
  · exact hf.bool v
  · exact hv

theorem complement_left : Refines f (.binary op u (.not u)) (.bool t) := by
  intro v hv
  rw [hf.connective_eq_some hop, hf.not] at hv
  rcases hv with ⟨-, rfl⟩ | ⟨hu, hv⟩
  · exact hf.bool v
  · rw [hu, Option.map_some, Bool.not_not] at hv
    exact (hf.bool t).trans hv

theorem complement_right : Refines f (.binary op (.not u) u) (.bool t) := by
  intro v hv
  rw [hf.connective_eq_some hop, hf.not] at hv
  rcases hv with ⟨-, rfl⟩ | ⟨hnot, hv⟩
  · exact hf.bool v
  · -- the negation does not decide, so its operand does
    obtain ⟨w, hw, hnot⟩ := Option.map_eq_some_iff.mp hnot
    obtain rfl : w = t := Bool.not_inj hnot
    rw [hf.bool, ← hw, hv]

theorem idempotent : Refines f (.binary op u u) u := by
  intro v hv
  rw [hf.connective_eq_some hop] at hv
  rcases hv with ⟨hu, rfl⟩ | ⟨-, hu⟩
  · exact hu
  · exact hu

end

end Propositional

/-! ### The two readings -/

theorem evalBool_propositional (env : Nat → Option Bool) : Propositional (evalBool env) where
  bool _ := rfl
  not _ := rfl
  connective hop a b := by
    rcases hop with - | -
    · show (evalBool env a).bind _ = _
      congr 1
      funext u
      cases u <;> rfl
    · rfl
  arithmetic {n} h := by
    cases n with
    | leaf l => cases l <;> cases h
    | unary op x => cases op <;> first | rfl | cases h
    | binary op a b => cases op <;> first | rfl | cases h
    | nary op xs => cases op <;> cases h
  nary _ _ := .of_none rfl
  tautology _ _ _ _ _ _ h := by cases h

theorem truth_propositional (I : Assignment) (env : Nat → Option Bool) :
    Propositional (truth I env) where
  bool _ := rfl
  not _ := rfl
  connective hop a b := by
    rcases hop with - | -
    · show (truth I env a).bind _ = _
      congr 1
      funext u
      cases u <;> rfl
    · rfl
  arithmetic {n} h := by
    cases n with
    | leaf l => cases l <;> cases h
    | unary op x => cases op <;> first | rfl | cases h
    | binary op a b => cases op <;> first | rfl | cases h
    | nary op xs => cases op <;> cases h
  nary {op xs i c d} hc hcd v hv := by
    cases op with
    | clause =>
      obtain ⟨vs, hvs, rfl⟩ := Option.map_eq_some_iff.mp hv
      rw [truth, truthList_set hvs hc hcd, Option.map_some]
    | clauseSet =>
      obtain ⟨vs, hvs, rfl⟩ := Option.map_eq_some_iff.mp hv
      rw [truth, truthList_set hvs hc hcd, Option.map_some]
  tautology {ls p q} hp hq hpq hname hargs v hv := by
    obtain ⟨vs, hvs, rfl⟩ := Option.map_eq_some_iff.mp hv
    obtain ⟨u, hu, rfl⟩ : ∃ u ∈ vs, p.truth I = u := by
      obtain ⟨u, hu, htruth⟩ := truth_mem_of_truthList hvs hp
      exact ⟨u, hu, Option.some.inj htruth⟩
    obtain ⟨w, hw, rfl⟩ : ∃ w ∈ vs, q.truth I = w := by
      obtain ⟨w, hw, htruth⟩ := truth_mem_of_truthList hvs hq
      exact ⟨w, hw, Option.some.inj htruth⟩
    rw [Literal.truth_of_complementary hpq hname hargs] at hw
    apply List.any_eq_true.mpr
    rcases Bool.eq_false_or_eq_true (p.truth I) with h | h
    · exact ⟨_, hu, h⟩
    · exact ⟨_, hw, by simp [h]⟩

end Node

end TreeRewriting
