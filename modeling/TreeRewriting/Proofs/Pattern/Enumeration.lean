/-
TreeRewriting/Proofs/Pattern/Enumeration.lean

What the search for bindings enumerates.

Design.  The search hands its results to a visitor that may ask it to stop, and
nested searches stop together.  It is therefore one walk over the list of all
results (`visitBindings_eq`), and the first binding that a test accepts is the
first such in that list (`findBinding_eq`).

Which bindings are in the list is said position by position: a position at the
top is bound to the node itself, any other to a child of what its parent is
bound to, with an index that its slot allows (`mem_extensions_top`,
`mem_extensions_child`).  For the pattern of a rule these two unfold into the
nodes and indices a binding stands for.
-/
import TreeRewriting.Pattern.Binding

namespace TreeRewriting.Pattern

/-! ### One walk over all results -/

section

variable {σ α β : Type}

theorem foldUntil_append (f : σ → α → σ × Bool) (s : σ) (as bs : List α) :
    foldUntil f s (as ++ bs) =
      match foldUntil f s as with
      | (s', true) => (s', true)
      | (s', false) => foldUntil f s' bs := by
  induction as generalizing s with
  | nil => rfl
  | cons a as ih =>
    rw [List.cons_append, foldUntil, foldUntil]
    rcases f s a with ⟨s', - | -⟩
    · exact ih s'
    · rfl

/-- A walk of walks is one walk. -/
theorem foldUntil_flatMap (f : σ → β → σ × Bool) (g : α → List β) (s : σ) (as : List α) :
    foldUntil (fun s a => foldUntil f s (g a)) s as = foldUntil f s (as.flatMap g) := by
  induction as generalizing s with
  | nil => rfl
  | cons a as ih =>
    rw [foldUntil, List.flatMap_cons, foldUntil_append]
    rcases foldUntil f s (g a) with ⟨s', - | -⟩
    · exact ih s'
    · rfl

theorem visitExtensions_eq (n : Node) (visit : σ → Binding → σ × Bool) (earlier : List Position)
    (bound : Binding) (qs : List Position) (s : σ) :
    visitExtensions n visit earlier bound qs s
      = foldUntil visit s (extensions n earlier bound qs) := by
  induction qs generalizing earlier bound s with
  | nil =>
    rw [visitExtensions, extensions, foldUntil]
    rcases visit s bound with ⟨s', - | -⟩ <;> rfl
  | cons q rest ih =>
    -- every choice for the next position begins a search of its own, which may stop them all
    rw [visitExtensions, extensions, ← foldUntil_flatMap]
    simp only [ih]

/-- The search is a walk over the list of all bindings. -/
theorem visitBindings_eq (p : Pattern) (n : Node) (visit : σ → Binding → σ × Bool) (s : σ) :
    p.visitBindings n visit s = foldUntil visit s (p.bindings n) :=
  visitExtensions_eq n visit [] [] p.positions s

/-- A walk that stops at the first element a test accepts finds that element. -/
theorem foldUntil_find (accept : α → Bool) (as : List α) :
    (foldUntil (fun s a => if accept a then (some a, true) else (s, false)) none as).1
      = as.find? accept := by
  induction as with
  | nil => rfl
  | cons a as ih =>
    rw [foldUntil, List.find?_cons]
    rcases h : accept a with - | -
    · simpa [h] using ih
    · simp

end

/-- The search for a binding finds the first one that the test accepts. -/
theorem findBinding_eq (p : Pattern) (n : Node) (accept : Binding → Bool) :
    p.findBinding n accept = (p.bindings n).find? accept := by
  rw [findBinding, visitBindings_eq, foldUntil_find]

/-- Tests that agree on the bindings of a pattern find the same one. -/
theorem findBinding_congr {p : Pattern} {n : Node} {accept accept' : Binding → Bool}
    (h : ∀ b ∈ p.bindings n, accept b = accept' b) :
    p.findBinding n accept = p.findBinding n accept' := by
  rw [findBinding_eq, findBinding_eq, ← List.head?_filter, ← List.head?_filter,
    List.filter_congr h]

/-! ### Members -/

/-- Whether a slot allows a child index when siblings have taken some. -/
def Allows (slot : Slot) (taken : List Nat) (i : Nat) : Prop :=
  match slot with
  | .root => False
  | .fixed k => i = k
  | .free => i ∉ taken

theorem mem_indices {slot : Slot} {arity : Nat} {taken : List Nat} {i : Nat} :
    i ∈ indices slot arity taken ↔ i < arity ∧ Allows slot taken i := by
  cases slot with
  | root => simp [indices, Allows]
  | fixed k =>
    by_cases hk : k < arity
    · simp only [indices, if_pos hk, List.mem_singleton, Allows]
      exact ⟨fun h => ⟨h ▸ hk, h⟩, fun h => h.2⟩
    · simp only [indices, if_neg hk, List.not_mem_nil, Allows, false_iff]
      rintro ⟨h, rfl⟩
      exact hk h
  | free => simp [indices, Allows]

section

variable {n : Node} {earlier rest : List Position} {bound b : Binding} {q : Position}

theorem mem_choices_top (hq : q.parent = none) {p : Location} :
    p ∈ choices n earlier bound q ↔ p = [] ∧ q.minChildren ≤ n.arity := by
  simp only [choices, hq, List.mem_filter, List.mem_singleton]
  constructor
  · rintro ⟨rfl, h⟩
    exact ⟨rfl, by simpa using h⟩
  · rintro ⟨rfl, h⟩
    exact ⟨rfl, by simpa using h⟩

/-- A position is bound to a child, with enough children of its own, of what its parent is
bound to. -/
theorem mem_choices_child {j : Nat} (hq : q.parent = some j) {p : Location} :
    p ∈ choices n earlier bound q ↔
      ∃ here, bound[j]? = some here ∧ ∃ i, Allows q.slot (taken earlier bound j) i ∧
        ∃ c, n.at? (here.child i) = some c ∧ q.minChildren ≤ c.arity ∧ p = here.child i := by
  simp only [choices, hq, List.mem_filter]
  constructor
  · rintro ⟨hp, hmin⟩
    rcases hj : bound[j]? with - | here
    · simp [hj] at hp
    rcases hparent : n.at? here with - | parent
    · simp [hj, hparent] at hp
    simp only [hj, hparent, List.mem_map, mem_indices] at hp
    obtain ⟨i, ⟨-, hi⟩, rfl⟩ := hp
    refine ⟨here, rfl, i, hi, ?_⟩
    rcases hc : n.at? (here.child i) with - | c
    · simp [hc] at hmin
    · exact ⟨c, rfl, by simpa [hc] using hmin, rfl⟩
  · rintro ⟨here, hj, i, hi, c, hc, hmin, rfl⟩
    -- the node above has that child, so the index is one of those that are tried
    obtain ⟨parent, hparent, hchild⟩ : ∃ parent, n.at? here = some parent ∧
        parent.children[i]? = some c := by
      rw [Location.child, Node.at?_append] at hc
      obtain ⟨parent, hparent, hchild⟩ := Option.bind_eq_some_iff.mp hc
      exact ⟨parent, hparent, by simpa [Node.at?_cons] using hchild⟩
    have harity : i < parent.arity := (List.getElem?_eq_some_iff.mp hchild).1
    simp only [hj, hparent, hc, List.mem_map, mem_indices, decide_eq_true hmin, and_true]
    exact ⟨i, ⟨harity, hi⟩, rfl⟩

@[simp] theorem mem_extensions_nil : b ∈ extensions n earlier bound [] ↔ b = bound := by
  simp [extensions]

theorem mem_extensions_cons :
    b ∈ extensions n earlier bound (q :: rest) ↔
      ∃ p ∈ choices n earlier bound q, b ∈ extensions n (earlier ++ [q]) (bound ++ [p]) rest := by
  simp [extensions]

/-- What is bound stays bound. -/
theorem prefix_of_mem_extensions (h : b ∈ extensions n earlier bound rest) : bound <+: b := by
  induction rest generalizing earlier bound with
  | nil =>
    obtain rfl := mem_extensions_nil.mp h
    exact List.prefix_rfl
  | cons q rest ih =>
    obtain ⟨p, -, hb⟩ := mem_extensions_cons.mp h
    exact (List.prefix_append bound [p]).trans (ih hb)

/-- The position at the top of a pattern is bound to the node itself. -/
theorem mem_extensions_top (hq : q.parent = none) :
    b ∈ extensions n earlier bound (q :: rest) ↔
      q.minChildren ≤ n.arity ∧ b ∈ extensions n (earlier ++ [q]) (bound ++ [[]]) rest := by
  simp [mem_extensions_cons, mem_choices_top hq, and_assoc]

/-- Any other position is bound to a child of what its parent is bound to. -/
theorem mem_extensions_child {j : Nat} (hq : q.parent = some j) :
    b ∈ extensions n earlier bound (q :: rest) ↔
      ∃ here, bound[j]? = some here ∧ ∃ i, Allows q.slot (taken earlier bound j) i ∧
        ∃ c, n.at? (here.child i) = some c ∧ q.minChildren ≤ c.arity ∧
          b ∈ extensions n (earlier ++ [q]) (bound ++ [here.child i]) rest := by
  rw [mem_extensions_cons]
  constructor
  · rintro ⟨p, hp, hb⟩
    obtain ⟨here, hj, i, hi, c, hc, hmin, rfl⟩ := (mem_choices_child hq).mp hp
    exact ⟨here, hj, i, hi, c, hc, hmin, hb⟩
  · rintro ⟨here, hj, i, hi, c, hc, hmin, hb⟩
    exact ⟨here.child i, (mem_choices_child hq).mpr ⟨here, hj, i, hi, c, hc, hmin, rfl⟩, hb⟩

/-- The first location of a binding is the node itself. -/
theorem exists_eq_cons_of_mem_bindings {p : Pattern} (h : b ∈ p.bindings n) :
    ∃ below, b = [] :: below := by
  obtain ⟨l, k, rest, hp⟩ : ∃ l k rest, p.positions = ⟨l, none, .root, k⟩ :: rest := by
    rw [p.positions_eq]
    rcases p.shape with l | ⟨l, o, first, others⟩
    · exact ⟨l, 0, [], rfl⟩
    · exact ⟨l, _, _, rfl⟩
  rw [bindings, hp] at h
  obtain ⟨-, hb⟩ := (mem_extensions_top rfl).mp h
  obtain ⟨below, rfl⟩ := prefix_of_mem_extensions hb
  exact ⟨below, rfl⟩

end

end TreeRewriting.Pattern
