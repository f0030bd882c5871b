/-
TreeRewriting/Proofs/Node/Identity.lean

What the walk over two trees comes to, and equality under the strict reading.

Design.  The walk goes on as long as it finds the same, variables aside, on
both sides, and all it does to its tables it does where it meets two variables.
So its outcome is told by the skeletons of the two sides and by the pairs of
variables in their order (`Renaming.Exchanges`), under either reading, and by
induction on the trees each step of it is one after the other of its parts.

Under the strict reading a variable is only exchanged for itself and the tables
never grow, so the walk over two trees decides whether they are one tree
(`Node.structurallyEqual_strict_iff`).
-/
import TreeRewriting.Node.Equality
import TreeRewriting.Proofs.Node.Renaming

namespace TreeRewriting

namespace Renaming

/-! ### Pairs of variables -/

/-- Exchanges the variables of each pair, the left one for the right one, in order. -/
def exchange (strict : Bool) (r : Renaming) (ps : List (Nat × Nat)) : Option Renaming :=
  ps.foldlM (fun r p => r.matchVars strict p.1 p.2) r

@[simp] theorem exchange_nil (strict : Bool) (r : Renaming) : r.exchange strict [] = some r := rfl

theorem exchange_cons (strict : Bool) (r : Renaming) (p : Nat × Nat) (ps : List (Nat × Nat)) :
    r.exchange strict (p :: ps)
      = (r.matchVars strict p.1 p.2).bind fun r' => r'.exchange strict ps := rfl

theorem exchange_append (strict : Bool) (r : Renaming) (ps qs : List (Nat × Nat)) :
    r.exchange strict (ps ++ qs) = (r.exchange strict ps).bind fun r' => r'.exchange strict qs :=
  List.foldlM_append

/-! ### Steps of the walk -/

/-- A step of the walk that goes on if a proposition holds and these pairs of variables can be
exchanged, and then leaves the tables that they lead to. -/
def Exchanges (strict : Bool) (p : Prop) (ps : List (Nat × Nat))
    (step : Renaming → Option Renaming) : Prop :=
  ∀ r r', step r = some r' ↔ p ∧ r.exchange strict ps = some r'

namespace Exchanges

variable {strict : Bool} {p q : Prop} {ps qs : List (Nat × Nat)}
variable {step first second : Renaming → Option Renaming}

theorem yes (h : p) : Exchanges strict p [] some := by
  intro r r'
  simp [h]

theorem no (h : ¬p) : Exchanges strict p ps fun _ => none := by
  intro r r'
  simp [h]

theorem test [Decidable p] : Exchanges strict p [] fun r => if p then some r else none := by
  intro r r'
  simp

/-- A test in front of a step. -/
theorem guarded [Decidable p] (h : Exchanges strict q ps step) :
    Exchanges strict (p ∧ q) ps fun r => if p then step r else none := by
  intro r r'
  by_cases hp : p
  · simpa [hp] using h r r'
  · simp [hp]

/-- One step after the other. -/
theorem andThen (hp : Exchanges strict p ps first) (hq : Exchanges strict q qs second) :
    Exchanges strict (p ∧ q) (ps ++ qs) fun r =>
      match first r with
      | some r' => second r'
      | none => none := by
  intro r r'
  rw [exchange_append, Option.bind_eq_some_iff]
  constructor
  · intro h
    rcases hfirst : first r with - | r₁
    · simp [hfirst] at h
    · obtain ⟨hp, hps⟩ := (hp r r₁).mp hfirst
      obtain ⟨hq, hqs⟩ := (hq r₁ r').mp (by simpa [hfirst] using h)
      exact ⟨⟨hp, hq⟩, r₁, hps, hqs⟩
  · rintro ⟨⟨h, h'⟩, r₁, hps, hqs⟩
    have hfirst : first r = some r₁ := (hp r r₁).mpr ⟨h, hps⟩
    have hsecond : second r₁ = some r' := (hq r₁ r').mpr ⟨h', hqs⟩
    simp [hfirst, hsecond]

/-- The same condition in other words, and the same pairs where it holds. -/
theorem congr (h : Exchanges strict p ps step) (hpq : p ↔ q) (heq : p → ps = qs) :
    Exchanges strict q qs step := by
  intro r r'
  rw [h r r', ← hpq]
  constructor
  · rintro ⟨hp, hps⟩
    exact ⟨hp, heq hp ▸ hps⟩
  · rintro ⟨hp, hqs⟩
    exact ⟨hp, heq hp ▸ hqs⟩

end Exchanges

/-! ### Terms and payloads -/

section

variable (strict : Bool)

theorem exchanges_vars (v w : Nat) :
    Exchanges strict True [(v, w)] fun r => r.matchVars strict v w := by
  intro r r'
  simp [exchange_cons]

mutual

theorem exchanges_terms : (s t : Term) →
    Exchanges strict (s.skeleton = t.skeleton) (s.vars.zip t.vars) fun r =>
      r.matchTerms strict s t
  | .var v, .var w => (exchanges_vars strict v w).congr (by simp) fun _ => rfl
  | .var _, .app _ _ => .no (by simp)
  | .app _ _, .var _ => .no (by simp)
  | .app f ss, .app g ts =>
    (Exchanges.guarded (exchanges_termLists ss ts)).congr (by simp) fun _ => rfl

theorem exchanges_termLists : (ss ts : List Term) →
    Exchanges strict (ss.map Term.skeleton = ts.map Term.skeleton)
      ((Term.varsList ss).zip (Term.varsList ts)) fun r => r.matchTermLists strict ss ts
  | [], [] => .yes rfl
  | [], _ :: _ => .no (by simp)
  | _ :: _, [] => .no (by simp)
  | s :: ss, t :: ts =>
    ((exchanges_terms s t).andThen (exchanges_termLists ss ts)).congr (by simp) fun h =>
      (List.zip_append (Term.length_vars_eq h.1)).symm

end

theorem exchanges_literals (l m : Literal) :
    Exchanges strict (l.skeleton = m.skeleton) (l.vars.zip m.vars) fun r =>
      r.matchLiterals strict l m := by
  refine (Exchanges.guarded (exchanges_termLists strict l.args m.args)).congr ?_ fun _ => rfl
  rw [Literal.skeleton, Literal.rename, Literal.skeleton, Literal.rename, Literal.mk.injEq]
  constructor
  · rintro ⟨⟨hnegated, hname⟩, hargs⟩
    exact ⟨hname, hargs, hnegated⟩
  · rintro ⟨hname, hargs, hnegated⟩
    exact ⟨⟨hnegated, hname⟩, hargs⟩

theorem exchanges_leaves : (l m : Leaf) →
    Exchanges strict (l.skeleton = m.skeleton) (l.vars.zip m.vars) fun r =>
      r.matchLeaves strict l m
  | .number x, .number y => Exchanges.test.congr
    ⟨fun h => congrArg Leaf.number (Number.ext h), fun h => congrArg _ (Leaf.number.inj h)⟩
    fun _ => rfl
  | .bool a, .bool b => Exchanges.test.congr (by simp [Leaf.skeleton, Leaf.rename]) fun _ => rfl
  | .var v, .var w => (exchanges_vars strict v w).congr (by simp [Leaf.skeleton, Leaf.rename])
    fun _ => rfl
  | .predicate l, .predicate m => (exchanges_literals strict l m).congr
    ⟨congrArg Leaf.predicate, Leaf.predicate.inj⟩ fun _ => rfl
  | .number _, .bool _ | .number _, .var _ | .number _, .predicate _ => .no nofun
  | .bool _, .number _ | .bool _, .var _ | .bool _, .predicate _ => .no nofun
  | .var _, .number _ | .var _, .bool _ | .var _, .predicate _ => .no nofun
  | .predicate _, .number _ | .predicate _, .bool _ | .predicate _, .var _ => .no nofun

/-! ### Trees -/

mutual

theorem exchanges_nodes : (n m : Node) →
    Exchanges strict (n.skeleton = m.skeleton) (n.vars.zip m.vars) fun r =>
      r.matchNodes strict n m
  | .leaf l, .leaf m => (exchanges_leaves strict l m).congr (by simp) fun _ => rfl
  | .unary op x, .unary op' y =>
    (Exchanges.guarded (exchanges_nodes x y)).congr (by simp) fun _ => rfl
  | .binary op a b, .binary op' a' b' =>
    (Exchanges.guarded ((exchanges_nodes a a').andThen (exchanges_nodes b b'))).congr (by simp)
      fun h => (List.zip_append (Node.length_vars_eq h.2.1)).symm
  | .nary op xs, .nary op' ys =>
    (Exchanges.guarded (exchanges_nodeLists xs ys)).congr (by simp) fun _ => rfl
  | .leaf _, .unary _ _ | .leaf _, .binary _ _ _ | .leaf _, .nary _ _ => .no (by simp)
  | .unary _ _, .leaf _ | .unary _ _, .binary _ _ _ | .unary _ _, .nary _ _ => .no (by simp)
  | .binary _ _ _, .leaf _ | .binary _ _ _, .unary _ _ | .binary _ _ _, .nary _ _ => .no (by simp)
  | .nary _ _, .leaf _ | .nary _ _, .unary _ _ | .nary _ _, .binary _ _ _ => .no (by simp)

theorem exchanges_nodeLists : (xs ys : List Node) →
    Exchanges strict (xs.map Node.skeleton = ys.map Node.skeleton)
      ((Node.varsList xs).zip (Node.varsList ys)) fun r => r.matchNodeLists strict xs ys
  | [], [] => .yes rfl
  | [], _ :: _ => .no (by simp)
  | _ :: _, [] => .no (by simp)
  | x :: xs, y :: ys =>
    ((exchanges_nodes x y).andThen (exchanges_nodeLists xs ys)).congr (by simp) fun h =>
      (List.zip_append (Node.length_vars_eq h.1)).symm

end

end

/-- Under the strict reading variables are only exchanged for themselves. -/
theorem exchange_strict_iff {r r' : Renaming} {ps : List (Nat × Nat)} :
    r.exchange true ps = some r' ↔ (∀ p ∈ ps, p.1 = p.2) ∧ r = r' := by
  induction ps with
  | nil => simp
  | cons p ps ih =>
    rw [exchange_cons, matchVars, if_pos rfl, List.forall_mem_cons, and_assoc, ← ih]
    by_cases hp : p.1 = p.2
    · simp [hp]
    · simp [hp]

end Renaming

namespace Node

variable {a b : Node}

/-- Trees are equal under a reading when they have the same skeleton and their variables can
be exchanged. -/
theorem structurallyEqual_iff {strict : Bool} :
    structurallyEqual strict a b = true ↔
      a.skeleton = b.skeleton ∧
        ∃ r, Renaming.empty.exchange strict (a.vars.zip b.vars) = some r := by
  rw [structurallyEqual, Option.isSome_iff_exists]
  simp only [Renaming.exchanges_nodes strict a b _ _, exists_and_left]

/-- Under the strict reading trees are equal when they are one tree. -/
theorem structurallyEqual_strict_iff : structurallyEqual true a b = true ↔ a = b := by
  -- the one tree is the other one with each variable renamed to itself
  have hrename : a = b ↔ a.skeleton = b.skeleton ∧ ∀ p ∈ a.vars.zip b.vars, p.1 = p.2 := by
    conv_lhs => rw [← rename_id a]
    exact rename_eq_iff
  simp [hrename, structurallyEqual_iff, Renaming.exchange_strict_iff]

end Node

end TreeRewriting
