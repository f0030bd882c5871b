/-
TreeRewriting/Proofs/Node/Everywhere.lean

What holds at every location of a tree.

A property of nodes that holds everywhere holds at the root and everywhere in
the operands (`everywhere_iff`), and so everywhere in each part of the tree.
-/
import TreeRewriting.Node.Location

namespace TreeRewriting.Node

/-- The property holds of the subtree at every location. -/
def Everywhere (P : Node → Prop) (n : Node) : Prop := ∀ p m, n.at? p = some m → P m

section

variable {P : Node → Prop} {n : Node}

theorem everywhere_iff : Everywhere P n ↔ P n ∧ ∀ c ∈ n.children, Everywhere P c := by
  constructor
  · intro h
    refine ⟨h [] n rfl, ?_⟩
    intro c hc p m hm
    obtain ⟨i, hi⟩ := List.mem_iff_getElem?.mp hc
    apply h (i :: p) m
    rw [at?_cons, hi, Option.bind_some, hm]
  · rintro ⟨hn, hchildren⟩ p m hm
    cases p with
    | nil =>
      obtain rfl : n = m := Option.some.inj hm
      exact hn
    | cons i p =>
      rw [at?_cons] at hm
      obtain ⟨c, hc, hm⟩ := Option.bind_eq_some_iff.mp hm
      exact hchildren c (List.mem_of_getElem? hc) p m hm

theorem everywhere_leaf {l : Leaf} : Everywhere P (.leaf l) ↔ P (.leaf l) := by
  rw [everywhere_iff]
  simp [children]

theorem everywhere_unary {op : UnaryOp} {x : Node} :
    Everywhere P (.unary op x) ↔ P (.unary op x) ∧ Everywhere P x := by
  rw [everywhere_iff]
  simp [children]

theorem everywhere_binary {op : BinaryOp} {a b : Node} :
    Everywhere P (.binary op a b) ↔ P (.binary op a b) ∧ Everywhere P a ∧ Everywhere P b := by
  rw [everywhere_iff]
  simp [children]

/-- What holds everywhere holds everywhere in a part. -/
theorem Everywhere.of_at? {p : Location} {m : Node} (h : Everywhere P n) (hm : n.at? p = some m) :
    Everywhere P m := by
  intro q k hk
  apply h (p ++ q) k
  rw [at?_append, hm, Option.bind_some, hk]

end

end TreeRewriting.Node
