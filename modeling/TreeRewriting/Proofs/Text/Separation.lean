/-
TreeRewriting/Proofs/Text/Separation.lean

The characters of a pattern fall into classes that do not meet.

A blank is no part of a label, and a mark is neither a blank nor part of a
label.  Of the characters nothing else is used when a pattern is cut into
tokens.
-/
import TreeRewriting.Pattern.Token

namespace TreeRewriting

namespace CodePoints

@[simp] theorem contains_nil (c : Char) : contains ⟨[]⟩ c = false := rfl

/-- Two boundaries enclose a range of members. -/
theorem contains_range (lo hi : Nat) (rest : List Nat) (c : Char) :
    contains ⟨lo :: hi :: rest⟩ c = true ↔
      lo ≤ c.toNat ∧ (hi ≤ c.toNat → contains ⟨rest⟩ c = true) := by
  by_cases hlo : lo ≤ c.toNat
  · by_cases hhi : hi ≤ c.toNat
    · simp only [contains, List.takeWhile_cons, hlo, hhi, decide_true, if_true, List.length_cons,
        beq_iff_eq, true_and, forall_const]
      omega
    · simp [contains, hlo, hhi]
  · simp [contains, hlo]

end CodePoints

/-- The code points of blanks. -/
def blanks : List Nat :=
  [9, 10, 11, 12, 13, 32, 133, 160, 5760, 8192, 8193, 8194, 8195, 8196, 8197, 8198, 8199, 8200,
    8201, 8202, 8232, 8233, 8239, 8287, 12288]

theorem toNat_mem_blanks {c : Char} (h : isBlank c = true) : c.toNat ∈ blanks := by
  simp only [isBlank, whiteSpace, CodePoints.contains_range, CodePoints.contains_nil,
    Bool.false_eq_true, imp_false] at h
  simp only [blanks, List.mem_cons, List.not_mem_nil]
  omega

/-- A blank is no part of a label. -/
theorem continuesLabel_of_isBlank {c : Char} (h : isBlank c = true) : continuesLabel c = false := by
  have hall : ∀ m ∈ blanks, continuesLabel (Char.ofNat m) = false := by decide +kernel
  simpa using hall c.toNat (toNat_mem_blanks h)

/-- A label does not start with a blank. -/
theorem isBlank_of_startsLabel {c : Char} (h : startsLabel c = true) : isBlank c = false := by
  rcases hb : isBlank c with - | -
  · rfl
  · have := continuesLabel_of_isBlank hb
    rw [continuesLabel_of_startsLabel h] at this
    exact absurd this (by simp)

/-- The marks of a pattern. -/
def marks : List Char :=
  [Order.opening .fixed, Order.closing .fixed, Order.opening .free, Order.closing .free, ',']

/-- A mark is neither a blank nor part of a label. -/
theorem separate_of_mem_marks : ∀ c ∈ marks,
    isBlank c = false ∧ startsLabel c = false ∧ continuesLabel c = false := by
  have hall : (marks.all fun c => !isBlank c && !startsLabel c && !continuesLabel c) = true := by
    decide +kernel
  intro c hc
  simpa [and_assoc] using List.all_eq_true.mp hall c hc

end TreeRewriting
