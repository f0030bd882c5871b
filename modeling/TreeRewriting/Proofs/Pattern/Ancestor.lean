/-
TreeRewriting/Proofs/Pattern/Ancestor.lean

Positions above one another, and the locations they are bound to.

Design.  A position is above another one if parents lead from the other one up
to it (`Above`).  A valid binding copies that order into the tree: distinct
positions have distinct locations (`Valid.eq_of_location`), and a location is
below another one iff the positions bound to them are so
(`Valid.isBelow_iff_above`).

Both go by induction on the steps of the lower location.  Its last step leads to
the location of the parent, where siblings differ by that step.
-/
import Mathlib.Data.List.Induction
import Mathlib.Logic.Relation
import TreeRewriting.Proofs.Pattern.ValidBinding

namespace TreeRewriting.Pattern

/-- The position at the first place is the parent of the one at the second. -/
def IsParent (p : Pattern) (j i : Nat) : Prop :=
  ∃ q, p.positions[i]? = some q ∧ q.parent = some j

/-- The position at the first place is strictly above the one at the second. -/
def Above (p : Pattern) (j i : Nat) : Prop := Relation.TransGen p.IsParent j i

namespace Valid

variable {p : Pattern} {n : Node} {b : Binding} {i j : Nat}

/-- Every place that has a location has a position. -/
theorem exists_position (h : p.Valid n b) {l : Location} (hl : b[i]? = some l) :
    ∃ q, p.positions[i]? = some q := by
  have hi : i < p.positions.length := h.length_eq ▸ (List.getElem?_eq_some_iff.mp hl).1
  exact ⟨p.positions[i], List.getElem?_eq_getElem hi⟩

/-- A parent is bound to the location above. -/
theorem location_of_isParent (h : p.Valid n b) (hj : p.IsParent j i) {l : Location}
    (hl : b[i]? = some l) : ∃ m c, b[j]? = some m ∧ l = m.child c := by
  obtain ⟨q, hq, hparent⟩ := hj
  obtain ⟨m, c, hm, hchild, -⟩ := h.below i q j hq hparent
  exact ⟨m, c, hm, Option.some.inj (hl.symm.trans hchild)⟩

/-- What is bound to a child of a location has a parent, which is bound to that location. -/
theorem exists_isParent (h : p.Valid n b) {l : Location} {c : Nat} (hl : b[i]? = some (l.child c)) :
    ∃ j, p.IsParent j i ∧ b[j]? = some l := by
  obtain ⟨q, hq⟩ := h.exists_position hl
  rcases hj : q.parent with - | j
  · -- the position at the top is bound to the root
    obtain rfl := Shape.eq_zero_of_parent_eq_none (p.positions_eq ▸ hq) hj
    have := Option.some.inj (hl.symm.trans h.top)
    simp [Location.child] at this
  · have hparent : p.IsParent j i := ⟨q, hq, hj⟩
    obtain ⟨m, c', hm, heq⟩ := h.location_of_isParent hparent hl
    obtain ⟨rfl, -⟩ := List.append_inj' heq rfl
    exact ⟨j, hparent, hm⟩

/-- Only the position at the top is bound to the root. -/
theorem eq_zero_of_location_nil (h : p.Valid n b) (hi : b[i]? = some []) : i = 0 := by
  obtain ⟨q, hq⟩ := h.exists_position hi
  rcases hj : q.parent with - | j
  · exact Shape.eq_zero_of_parent_eq_none (p.positions_eq ▸ hq) hj
  · obtain ⟨m, c, -, hchild⟩ := h.location_of_isParent ⟨q, hq, hj⟩ hi
    simp [Location.child] at hchild

/-- What is below a position has a location. -/
theorem lt_of_above (h : p.Valid n b) (habove : p.Above j i) : i < b.length := by
  obtain ⟨k, -, q, hq, -⟩ := Relation.TransGen.tail'_iff.mp habove
  rw [h.length_eq]
  exact (List.getElem?_eq_some_iff.mp hq).1

/-- Distinct positions are bound to distinct locations. -/
theorem eq_of_location (h : p.Valid n b) {l : Location} (hi : b[i]? = some l)
    (hj : b[j]? = some l) : i = j := by
  induction l using List.reverseRecOn generalizing i j with
  | nil => rw [h.eq_zero_of_location_nil hi, h.eq_zero_of_location_nil hj]
  | append_singleton l c ih =>
    obtain ⟨k, ⟨q, hq, hk⟩, hl⟩ := h.exists_isParent hi
    obtain ⟨k', ⟨q', hq', hk'⟩, hl'⟩ := h.exists_isParent hj
    obtain rfl := ih hl hl'
    -- siblings with the same last step
    by_contra hne
    exact h.distinct i j q q' k _ _ hq hq' hk hk' hne hi hj rfl

/-- Locations are below one another as the positions bound to them are. -/
theorem isBelow_iff_above (h : p.Valid n b) {l m : Location} (hi : b[i]? = some l)
    (hj : b[j]? = some m) : l.isBelow m = true ↔ p.Above j i := by
  constructor
  · rw [Location.isBelow_iff]
    rintro ⟨r, hr, rfl⟩
    -- the last of the steps in between leads from the parent
    induction r using List.reverseRecOn generalizing i with
    | nil => exact absurd rfl hr
    | append_singleton r c ih =>
      rw [← List.append_assoc] at hi
      obtain ⟨k, hk, hl⟩ := h.exists_isParent hi
      rcases List.eq_nil_or_concat' r with rfl | ⟨r', c', rfl⟩
      · rw [List.append_nil] at hl
        obtain rfl := h.eq_of_location hl hj
        exact .single hk
      · exact .tail (ih (by simp) hl) hk
  · intro habove
    induction habove generalizing l with
    | single hk =>
      obtain ⟨m', c, hm', rfl⟩ := h.location_of_isParent hk hi
      obtain rfl := Option.some.inj (hm'.symm.trans hj)
      exact Location.isBelow_iff.mpr ⟨[c], by simp, rfl⟩
    | tail _ hk ih =>
      obtain ⟨m', c, hm', rfl⟩ := h.location_of_isParent hk hi
      obtain ⟨r, -, rfl⟩ := Location.isBelow_iff.mp (ih hm')
      exact Location.isBelow_iff.mpr ⟨r ++ [c], by simp, by simp [Location.child]⟩

end Valid

end TreeRewriting.Pattern
