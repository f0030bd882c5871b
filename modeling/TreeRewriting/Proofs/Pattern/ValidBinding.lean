/-
TreeRewriting/Proofs/Pattern/ValidBinding.lean

The search for bindings lists the valid ones, each once and in order.

Design.  A binding is valid when every position but the top one is bound to a
child of what its parent is bound to, siblings to different children, and every
location bound to has a node with enough children (`Valid`).  That says nothing
about a search.  The search accepts a location for one position after the other,
looking only at what is bound before; a binding is found iff every location in
it is accepted after those before it (`mem_extensions_iff`), and the facts about
parents and siblings turn this into validity (`mem_bindings_iff`).

Two bindings that are found first differ at some position, and there the earlier
one has the smaller child (`pairwise_extensions`).

A visitor is handed a list of bindings up to the first at which it asks to stop
(`foldUntil_cases`), be it one that never does.

Main result: `enumeration_exact`.
-/
import TreeRewriting.Proofs.Pattern.Enumeration
import TreeRewriting.Proofs.Pattern.Flattening
import TreeRewriting.Rule

namespace TreeRewriting

namespace Pattern

/-! ### Valid bindings -/

/-- A location for every position, such that each position is bound to a child of what its
parent is bound to, siblings to different children, and all of them to nodes with enough
children. -/
structure Valid (p : Pattern) (n : Node) (b : Binding) : Prop where
  length_eq : b.length = p.positions.length
  top : b[0]? = some []
  below : ∀ (i : Nat) (q : Position) (j : Nat), p.positions[i]? = some q → q.parent = some j →
    ∃ (here : Location) (c : Nat), b[j]? = some here ∧ b[i]? = some (here.child c) ∧
      ∀ k, q.slot = .fixed k → c = k
  distinct : ∀ (i i' : Nat) (q q' : Position) (j : Nat) (l l' : Location),
    p.positions[i]? = some q → p.positions[i']? = some q' → q.parent = some j →
      q'.parent = some j → i ≠ i' → b[i]? = some l → b[i']? = some l' → l.getLast? ≠ l'.getLast?
  inTree : ∀ (i : Nat) (q : Position), p.positions[i]? = some q →
    ∃ (l : Location) (c : Node), b[i]? = some l ∧ n.at? l = some c ∧ q.minChildren ≤ c.arity

/-- The children that a binding picks, in the order of declaration. -/
def picks (b : Binding) : List Nat := b.filterMap List.getLast?

/-- The order in which bindings are tried: at the first position where they differ the
earlier one picks the smaller child. -/
def Precedes (b b' : Binding) : Prop := List.Lex (· < ·) (picks b) (picks b')

/-! ### What the search accepts -/

section

variable {n : Node} {earlier rest : List Position} {bound b : Binding}

/-- A binding is found iff each of its locations is accepted after those before it. -/
theorem mem_extensions_iff :
    b ∈ extensions n earlier bound rest ↔
      ∃ new, b = bound ++ new ∧ new.length = rest.length ∧
        ∀ (k : Nat) (q : Position) (l : Location), rest[k]? = some q → new[k]? = some l →
          l ∈ choices n (earlier ++ rest.take k) (bound ++ new.take k) q := by
  induction rest generalizing earlier bound with
  | nil =>
    rw [mem_extensions_nil]
    constructor
    · rintro rfl
      exact ⟨[], by simp, rfl, fun k q l hq => by simp at hq⟩
    · rintro ⟨new, rfl, hlength, -⟩
      simpa using hlength
  | cons q rest ih =>
    rw [mem_extensions_cons]
    constructor
    · rintro ⟨l, hl, hb⟩
      obtain ⟨new, rfl, hlength, hnew⟩ := ih.mp hb
      refine ⟨l :: new, by simp, by simp [hlength], fun k q' l' hq' hl' => ?_⟩
      rcases k with - | k
      · obtain rfl := Option.some.inj hq'
        obtain rfl := Option.some.inj hl'
        simpa using hl
      · simpa using hnew k q' l' hq' hl'
    · rintro ⟨new, rfl, hlength, hnew⟩
      rcases new with - | ⟨l, new⟩
      · simp at hlength
      refine ⟨l, by simpa using hnew 0 q l rfl rfl, ih.mpr ⟨new, by simp, by simpa using hlength, ?_⟩⟩
      intro k q' l' hq' hl'
      simpa using hnew (k + 1) q' l' hq' hl'

/-- A child of a location is taken iff an earlier position below it is bound to it. -/
theorem mem_taken_iff {j c : Nat} :
    c ∈ taken earlier bound j ↔
      ∃ (i : Nat) (q : Position) (l : Location), earlier[i]? = some q ∧ bound[i]? = some l ∧ q.parent = some j ∧
        l.getLast? = some c := by
  simp only [taken, List.mem_filterMap, Prod.exists, Option.ite_none_right_eq_some]
  constructor
  · rintro ⟨q, l, hmem, hq, hc⟩
    obtain ⟨i, hi⟩ := List.mem_iff_getElem?.mp hmem
    obtain ⟨hiq, hil⟩ := List.getElem?_zip_eq_some.mp hi
    exact ⟨i, q, l, hiq, hil, hq, hc⟩
  · rintro ⟨i, q, l, hiq, hil, hq, hc⟩
    exact ⟨q, l, List.mem_of_getElem? (List.getElem?_zip_eq_some.mpr ⟨hiq, hil⟩), hq, hc⟩

end

variable {p : Pattern} {n : Node} {b : Binding}

theorem mem_bindings_iff_choices :
    b ∈ p.bindings n ↔ b.length = p.positions.length ∧
      ∀ (k : Nat) (q : Position) (l : Location), p.positions[k]? = some q → b[k]? = some l →
        l ∈ choices n (p.positions.take k) (b.take k) q := by
  rw [bindings, mem_extensions_iff]
  constructor
  · rintro ⟨new, rfl, h⟩
    simpa using h
  · intro h
    exact ⟨b, rfl, by simpa using h⟩

section

variable {k : Nat} {q : Position} {l : Location}

/-- What the search accepts for a position below another one: a child that the slot allows,
with enough children, of what its parent is bound to. -/
theorem mem_choices_iff_below {j : Nat} (hq : p.positions[k]? = some q) (hj : q.parent = some j) :
    l ∈ choices n (p.positions.take k) (b.take k) q ↔
      ∃ here, b[j]? = some here ∧ ∃ c, l = Location.child here c ∧
        (∀ i, q.slot = .fixed i → c = i) ∧
        (q.slot = .free → ∀ (i : Nat) (q' : Position) (l' : Location), i < k →
          p.positions[i]? = some q' → q'.parent = some j → b[i]? = some l' →
            l'.getLast? ≠ some c) ∧
        ∃ m, n.at? l = some m ∧ q.minChildren ≤ m.arity := by
  have hjk : j < k := Shape.parent_lt (p.positions_eq ▸ hq) hj
  have hroot : q.slot ≠ .root := Shape.slot_ne_root (p.positions_eq ▸ hq) hj
  rw [mem_choices_child hj]
  simp only [List.getElem?_take_of_lt hjk]
  constructor
  · rintro ⟨here, hhere, c, hc, m, hm, hmin, rfl⟩
    refine ⟨here, hhere, c, rfl, fun i hi => ?_, fun hfree i q' l' hik hq' hp' hl' hlast => ?_,
      m, hm, hmin⟩
    · simpa [hi, Allows] using hc
    · rw [hfree] at hc
      refine hc (mem_taken_iff.mpr ⟨i, q', l', ?_, ?_, hp', hlast⟩)
      · rwa [List.getElem?_take_of_lt hik]
      · rwa [List.getElem?_take_of_lt hik]
  · rintro ⟨here, hhere, c, rfl, hfixed, hfree, m, hm, hmin⟩
    refine ⟨here, hhere, c, ?_, m, hm, hmin, rfl⟩
    rcases hslot : q.slot with - | i | -
    · exact absurd hslot hroot
    · exact hfixed i hslot
    · intro htaken
      obtain ⟨i, q', l', hq', hl', hp', hlast⟩ := mem_taken_iff.mp htaken
      have hik : i < k := by
        have := (List.getElem?_eq_some_iff.mp hq').1
        rw [List.length_take] at this
        omega
      rw [List.getElem?_take_of_lt hik] at hq' hl'
      exact hfree hslot i q' l' hik hq' hp' hl' hlast

end

/-- Siblings that the search has bound are bound to different children: their slots say so,
or the later one has been told what is taken. -/
theorem getLast?_ne_of_choices {i i' j : Nat} {q q' : Position} {l l' : Location}
    (hq : p.positions[i]? = some q) (hq' : p.positions[i']? = some q') (hj : q.parent = some j)
    (hj' : q'.parent = some j) (hlt : i < i') (hl : b[i]? = some l)
    (hchoice : l ∈ choices n (p.positions.take i) (b.take i) q)
    (hchoice' : l' ∈ choices n (p.positions.take i') (b.take i') q') :
    l.getLast? ≠ l'.getLast? := by
  obtain ⟨here, -, c, rfl, hfixed, -, -⟩ := (mem_choices_iff_below hq hj).mp hchoice
  obtain ⟨here', -, c', rfl, hfixed', hfree', -⟩ := (mem_choices_iff_below hq' hj').mp hchoice'
  have hlast : (Location.child here' c').getLast? = some c' := by simp [Location.child]
  rw [hlast]
  rcases Shape.slot_of_siblings (p.positions_eq ▸ hq) (p.positions_eq ▸ hq') hj hj'
    (Nat.ne_of_lt hlt) with ⟨-, hs'⟩ | ⟨k, k', hne, hs, hs'⟩
  · exact hfree' hs' i q _ hlt hq hj hl
  · obtain rfl := hfixed k hs
    obtain rfl := hfixed' k' hs'
    simpa [Location.child] using hne

/-- What the search finds is valid. -/
theorem valid_of_mem_bindings (hb : b ∈ p.bindings n) : p.Valid n b := by
  obtain ⟨hlength, hchoices⟩ := mem_bindings_iff_choices.mp hb
  have hbound : ∀ (i : Nat) (q : Position), p.positions[i]? = some q → ∃ l, b[i]? = some l := by
    intro i q hq
    have hi : i < b.length := hlength ▸ (List.getElem?_eq_some_iff.mp hq).1
    exact ⟨b[i], List.getElem?_eq_getElem hi⟩
  refine ⟨hlength, ?top, ?below, ?distinct, ?inTree⟩
  case top =>
    obtain ⟨rest, hpos⟩ := p.shape.exists_positions_eq
    rw [← p.positions_eq] at hpos
    obtain ⟨l, hl⟩ := hbound 0 ⟨_, _, _, _⟩ (by rw [hpos]; rfl)
    have hmem := hchoices 0 ⟨_, _, _, _⟩ l (by rw [hpos]; rfl) hl
    rw [hl, ((mem_choices_top rfl).mp hmem).1]
  case below =>
    intro i q j hq hj
    obtain ⟨l, hl⟩ := hbound i q hq
    obtain ⟨here, hhere, c, rfl, hfixed, -⟩ :=
      (mem_choices_iff_below hq hj).mp (hchoices i q l hq hl)
    exact ⟨here, c, hhere, hl, hfixed⟩
  case distinct =>
    intro i i' q q' j l l' hq hq' hj hj' hne hl hl'
    have h := hchoices i q l hq hl
    have h' := hchoices i' q' l' hq' hl'
    rcases Nat.lt_or_gt_of_ne hne with hlt | hlt
    · exact getLast?_ne_of_choices hq hq' hj hj' hlt hl h h'
    · exact (getLast?_ne_of_choices hq' hq hj' hj hlt hl' h' h).symm
  case inTree =>
    intro i q hq
    obtain ⟨l, hl⟩ := hbound i q hq
    have hmem := hchoices i q l hq hl
    rcases hj : q.parent with - | j
    · obtain ⟨rfl, hmin⟩ := (mem_choices_top hj).mp hmem
      exact ⟨[], n, hl, rfl, hmin⟩
    · obtain ⟨here, -, c, -, -, -, m, hm, hmin⟩ := (mem_choices_iff_below hq hj).mp hmem
      exact ⟨l, m, hl, hm, hmin⟩

/-- What is valid the search finds. -/
theorem Valid.mem_bindings (h : p.Valid n b) : b ∈ p.bindings n := by
  refine mem_bindings_iff_choices.mpr ⟨h.length_eq, fun k q l hq hl => ?_⟩
  obtain ⟨l', m, hl', hm, hmin⟩ := h.inTree k q hq
  obtain rfl := Option.some.inj (hl.symm.trans hl')
  rcases hj : q.parent with - | j
  · obtain rfl := Shape.eq_zero_of_parent_eq_none (p.positions_eq ▸ hq) hj
    obtain rfl := Option.some.inj (hl.symm.trans h.top)
    obtain rfl := Option.some.inj hm
    exact (mem_choices_top hj).mpr ⟨rfl, hmin⟩
  · obtain ⟨here, c, hhere, hchild, hfixed⟩ := h.below k q j hq hj
    obtain rfl := Option.some.inj (hl.symm.trans hchild)
    refine (mem_choices_iff_below hq hj).mpr
      ⟨here, hhere, c, rfl, hfixed, fun _ i q' l' hik hq' hj' hl' => ?_, m, hm, hmin⟩
    have hne := h.distinct i k q' q j l' _ hq' hq hj' hj (Nat.ne_of_lt hik) hl' hl
    simpa [Location.child] using hne

/-- The bindings found are the valid ones. -/
theorem mem_bindings_iff : b ∈ p.bindings n ↔ p.Valid n b :=
  ⟨valid_of_mem_bindings, Valid.mem_bindings⟩

/-! ### The order in which bindings are found -/

section

variable {earlier rest : List Position} {bound : Binding}

theorem pairwise_indices (slot : Slot) (arity : Nat) (taken : List Nat) :
    (indices slot arity taken).Pairwise (· < ·) := by
  cases slot with
  | root => exact .nil
  | fixed k =>
    rw [indices]
    split
    · exact List.pairwise_singleton _ _
    · exact .nil
  | free => exact List.pairwise_lt_range.filter _

/-- The locations that are tried for a position lead to one child after the other. -/
theorem pairwise_choices (n : Node) (earlier : List Position) (bound : Binding) (q : Position) :
    (choices n earlier bound q).Pairwise fun l l' =>
      ∃ c c', l.getLast? = some c ∧ l'.getLast? = some c' ∧ c < c' := by
  rw [choices]
  apply List.Pairwise.filter
  rcases q.parent with - | j
  · exact List.pairwise_singleton _ _
  dsimp only
  rcases bound[j]? with - | here
  · exact .nil
  dsimp only
  rcases n.at? here with - | parent
  · exact .nil
  refine List.pairwise_map.mpr ((pairwise_indices _ _ _).imp fun {c c'} hlt => ?_)
  exact ⟨c, c', by simp [Location.child], by simp [Location.child], hlt⟩

/-- What is bound later does not change the order. -/
theorem precedes_of_prefix {l l' : Location} {b b' : Binding} {c c' : Nat}
    (hb : bound ++ [l] <+: b) (hb' : bound ++ [l'] <+: b') (hl : l.getLast? = some c)
    (hl' : l'.getLast? = some c') (hlt : c < c') : Precedes b b' := by
  obtain ⟨t, rfl⟩ := hb
  obtain ⟨t', rfl⟩ := hb'
  show List.Lex (· < ·) (picks _) (picks _)
  simp only [picks, List.append_assoc, List.filterMap_append, List.filterMap_cons, hl, hl',
    List.singleton_append]
  exact List.Lex.append_left _ (.rel hlt) _

theorem pairwise_extensions (n : Node) (earlier : List Position) (bound : Binding)
    (rest : List Position) : (extensions n earlier bound rest).Pairwise Precedes := by
  induction rest generalizing earlier bound with
  | nil => exact List.pairwise_singleton _ _
  | cons q rest ih =>
    rw [extensions, List.pairwise_flatMap]
    refine ⟨fun l _ => ih _ _, (pairwise_choices n earlier bound q).imp ?_⟩
    rintro l l' ⟨c, c', hl, hl', hlt⟩ b hb b' hb'
    exact precedes_of_prefix (prefix_of_mem_extensions hb) (prefix_of_mem_extensions hb') hl hl' hlt

end

theorem Precedes.ne {b b' : Binding} (h : Precedes b b') : b ≠ b' := by
  rintro rfl
  exact List.lex_irrefl Nat.lt_irrefl _ h

theorem Precedes.asymm {b b' : Binding} (h : Precedes b b') : ¬ Precedes b' b := fun h' =>
  List.lex_irrefl Nat.lt_irrefl _ (List.lex_trans Nat.lt_trans h h')

/-- Bindings are found in order. -/
theorem pairwise_bindings (p : Pattern) (n : Node) : (p.bindings n).Pairwise Precedes :=
  pairwise_extensions n [] [] p.positions

/-! ### What a visitor is handed -/

section

variable {σ α : Type}

/-- The state of a visitor after it has been handed these, one by one. -/
def handed (visit : σ → α → σ × Bool) (s : σ) (as : List α) : σ :=
  as.foldl (fun s a => (visit s a).1) s

/-- A visitor that is handed these one by one asks to stop at none of them. -/
def GoesOn (visit : σ → α → σ × Bool) (s : σ) (as : List α) : Prop :=
  ∀ before a, before ++ [a] <+: as → (visit (handed visit s before) a).2 = false

theorem goesOn_nil (visit : σ → α → σ × Bool) (s : σ) : GoesOn visit s [] := by
  intro before a h
  simp at h

theorem GoesOn.cons {visit : σ → α → σ × Bool} {s s' : σ} {a : α} {as : List α}
    (ha : visit s a = (s', false)) (has : GoesOn visit s' as) : GoesOn visit s (a :: as) := by
  rintro (- | ⟨b, before⟩) c h
  · obtain rfl : c = a := by simpa using h
    rw [handed, List.foldl_nil, ha]
  · rw [List.cons_append, List.cons_prefix_cons] at h
    obtain ⟨rfl, h⟩ := h
    rw [handed, List.foldl_cons, ha]
    exact has before c h

/-- A walk hands the list over up to the first element at which the visitor asks to stop,
and says whether there was one. -/
theorem foldUntil_cases (visit : σ → α → σ × Bool) (s : σ) (as : List α) :
    (∃ before a after, as = before ++ a :: after ∧ GoesOn visit s before ∧
        (visit (handed visit s before) a).2 = true ∧
        foldUntil visit s as = (handed visit s (before ++ [a]), true)) ∨
      GoesOn visit s as ∧ foldUntil visit s as = (handed visit s as, false) := by
  induction as generalizing s with
  | nil => exact .inr ⟨goesOn_nil visit s, rfl⟩
  | cons a as ih =>
    rcases ha : visit s a with ⟨s', - | -⟩
    · have hwalk : foldUntil visit s (a :: as) = foldUntil visit s' as := by rw [foldUntil, ha]
      have hhanded : ∀ bs, handed visit s (a :: bs) = handed visit s' bs := by
        intro bs
        rw [handed, List.foldl_cons, ha]
        rfl
      rcases ih s' with ⟨before, b, after, rfl, hgo, hstop, heq⟩ | ⟨hgo, heq⟩
      · refine .inl ⟨a :: before, b, after, rfl, hgo.cons ha, ?_, ?_⟩
        · rwa [hhanded]
        · rw [hwalk, heq, List.cons_append, hhanded]
      · exact .inr ⟨hgo.cons ha, by rw [hwalk, heq, hhanded]⟩
    · refine .inl ⟨[], a, as, rfl, goesOn_nil visit s, ?_, ?_⟩
      · show (visit s a).2 = true
        rw [ha]
      · rw [foldUntil, ha]
        simp [handed, ha]

/-- A visitor that writes down what it is handed, and never asks to stop, is handed all. -/
theorem foldUntil_record (seen as : List α) :
    foldUntil (fun seen a => (seen ++ [a], false)) seen as = (seen ++ as, false) := by
  induction as generalizing seen with
  | nil => rw [foldUntil, List.append_nil]
  | cons a as ih =>
    show foldUntil _ (seen ++ [a]) as = _
    rw [ih, List.append_assoc, List.singleton_append]

end

end Pattern

/-! ### The first match of a rule -/

namespace Rule

/-- The nodes at a binding are as the rule expects, and its guard lets the match pass. -/
structure Admits (r : Rule) (n : Node) (b : Binding) : Prop where
  expected : ∀ (i : Nat) (e : Expect) (l : Location), r.expects[i]? = some e → b[i]? = some l →
    ∃ m, n.at? l = some m ∧ e.accepts m = true
  guarded : ∀ guard, r.guard = some guard → guard ⟨n, r.pattern, b⟩ = true

theorem accepts_iff {r : Rule} {n : Node} {b : Binding} :
    r.accepts n b = true ↔ r.Admits n b := by
  rw [accepts, Bool.and_eq_true, List.all_eq_true]
  constructor
  · rintro ⟨hexpects, hguard⟩
    refine ⟨fun i e l he hl => ?_, fun guard hg => by simpa [hg] using hguard⟩
    have hzip : (r.expects.zip b)[i]? = some (e, l) := List.getElem?_zip_eq_some.mpr ⟨he, hl⟩
    simpa [Option.any_eq_true] using hexpects (e, l) (List.mem_of_getElem? hzip)
  · rintro ⟨hexpects, hguard⟩
    constructor
    · rintro ⟨e, l⟩ hmem
      obtain ⟨i, hi⟩ := List.mem_iff_getElem?.mp hmem
      obtain ⟨he, hl⟩ := List.getElem?_zip_eq_some.mp hi
      simpa [Option.any_eq_true] using hexpects i e l he hl
    · rcases hg : r.guard with - | guard
      · rfl
      · exact hguard guard hg

end Rule

namespace Pattern

/-- In a list that is in order the first element with a property is the one that no other
such element precedes. -/
theorem find?_eq_some_iff_first {all : List Binding} (hall : all.Pairwise Precedes)
    {accept : Binding → Bool} {b : Binding} :
    all.find? accept = some b ↔
      b ∈ all ∧ accept b = true ∧ ∀ b' ∈ all, accept b' = true → b' = b ∨ Precedes b b' := by
  rw [List.find?_eq_some_iff_append]
  constructor
  · rintro ⟨hb, before, after, rfl, hbefore⟩
    refine ⟨by simp, hb, fun b' hmem hb' => ?_⟩
    rcases List.mem_append.mp hmem with hmem | hmem
    · exact absurd hb' (by simpa using hbefore b' hmem)
    rcases List.mem_cons.mp hmem with rfl | hmem
    · exact .inl rfl
    · exact .inr (List.rel_of_pairwise_cons (List.pairwise_append.mp hall).2.1 hmem)
  · rintro ⟨hmem, hb, hfirst⟩
    obtain ⟨before, after, rfl⟩ := List.append_of_mem hmem
    refine ⟨hb, before, after, rfl, fun b' hb' => ?_⟩
    have hprecedes : Precedes b' b :=
      (List.pairwise_append.mp hall).2.2 b' hb' b List.mem_cons_self
    rw [Bool.not_eq_true', Bool.eq_false_iff]
    intro haccept
    rcases hfirst b' (List.mem_append_left _ hb') haccept with rfl | h
    · exact hprecedes.ne rfl
    · exact hprecedes.asymm h

/-- **The enumeration of bindings is exact.**  There is one list of the valid bindings of a
pattern at a node, each once and in the order of the children picked, that every visitor is
handed: all of it if the visitor goes on, and else up to and including the first binding at
which it asks to stop, as the search then reports.  A rule finds the first valid binding in
that order that it admits, and none iff it admits none. -/
theorem enumeration_exact (p : Pattern) (n : Node) :
    ∃ all : List Binding,
      (∀ b, b ∈ all ↔ p.Valid n b) ∧ all.Nodup ∧ all.Pairwise Precedes ∧
      p.visitBindings n (fun seen b => (seen ++ [b], false)) [] = (all, false) ∧
      (∀ (σ : Type) (visit : σ → Binding → σ × Bool) (s : σ),
        (∃ before b after, all = before ++ b :: after ∧ GoesOn visit s before ∧
            (visit (handed visit s before) b).2 = true ∧
            p.visitBindings n visit s = (handed visit s (before ++ [b]), true)) ∨
          GoesOn visit s all ∧ p.visitBindings n visit s = (handed visit s all, false)) ∧
      ∀ r : Rule, r.pattern = p →
        (∀ b, r.find? n = some b ↔ p.Valid n b ∧ r.Admits n b ∧
          ∀ b', p.Valid n b' → r.Admits n b' → b' = b ∨ Precedes b b') ∧
        (r.find? n = none ↔ ∀ b, p.Valid n b → ¬ r.Admits n b) := by
  have hsorted := pairwise_bindings p n
  refine ⟨p.bindings n, fun _ => mem_bindings_iff, hsorted.imp Precedes.ne, hsorted,
    ?recorder, ?visitors, ?rules⟩
  case recorder => rw [visitBindings_eq, foldUntil_record, List.nil_append]
  case visitors =>
    intro σ visit s
    rw [visitBindings_eq]
    exact foldUntil_cases visit s (p.bindings n)
  case rules =>
    rintro r rfl
    constructor
    · intro b
      rw [Rule.find?, findBinding_eq, find?_eq_some_iff_first hsorted]
      simp only [mem_bindings_iff, Rule.accepts_iff]
    · rw [Rule.find?, findBinding_eq, List.find?_eq_none]
      simp only [mem_bindings_iff, Rule.accepts_iff]

end Pattern

end TreeRewriting
