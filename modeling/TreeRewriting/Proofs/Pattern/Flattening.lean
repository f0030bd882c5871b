/-
TreeRewriting/Proofs/Pattern/Flattening.lean

What the positions of a pattern say about its shape.

Design.  A node of a shape has an address, the numbers of the shapes that are
entered on the way down to it.  The positions of a shape describe its nodes one
by one, ordered by address: that order puts a node before everything in it and
everything in one shape before everything in the next one of the group
(`flattening_positions`).

A description names its parent by place.  `addresses` collects the nodes the way
the positions are collected, so the two lists can be walked together, and while
they are, the place of the node at hand is the number of addresses passed.

Three facts about positions are read off: the first one and only it is at the
top, a parent comes before its children, and two positions with one parent have
different slots, unless the slots are free.
-/
import Mathlib.Data.List.Forall2
import Mathlib.Data.List.Lex
import TreeRewriting.Pattern.Binding

namespace TreeRewriting

namespace Shape

/-! ### Nodes and their addresses -/

/-- The shapes a shape lists in its group, if it has one. -/
def listed : Shape → List Shape
  | leaf _ => []
  | group _ _ s ss => s :: ss

/-- How the shapes in the group are assigned to children. -/
def order? : Shape → Option Order
  | leaf _ => none
  | group _ o _ _ => some o

/-- The node of a shape at an address. -/
def at? (t : Shape) : Location → Option Shape
  | [] => some t
  | i :: a => t.listed[i]?.bind (·.at? a)

@[simp] theorem at?_nil (t : Shape) : t.at? [] = some t := rfl

theorem at?_cons (t : Shape) (i : Nat) (a : Location) :
    t.at? (i :: a) = t.listed[i]?.bind (·.at? a) := rfl

theorem at?_append (t : Shape) (a b : Location) : t.at? (a ++ b) = (t.at? a).bind (·.at? b) := by
  induction a generalizing t with
  | nil => rfl
  | cons i a ih =>
    simp only [List.cons_append, at?_cons]
    rcases t.listed[i]? with - | s
    · rfl
    · exact ih s

mutual

/-- The addresses in a shape, each before those below it, siblings in order. -/
def addresses : Shape → List Location
  | leaf _ => [[]]
  | group _ _ s ss => [] :: ((addresses s).map (0 :: ·) ++ addressesFrom 1 ss)

/-- The addresses in a list of siblings of which the first has the given number. -/
def addressesFrom (i : Nat) : List Shape → List Location
  | [] => []
  | s :: ss => (addresses s).map (i :: ·) ++ addressesFrom (i + 1) ss

end

theorem addresses_eq (t : Shape) : t.addresses = [] :: addressesFrom 0 t.listed := by
  cases t <;> simp [addresses, addressesFrom, listed]

/-! ### Induction -/

theorem size_le_sizeList {s : Shape} {ss : List Shape} (h : s ∈ ss) : s.size ≤ sizeList ss := by
  induction ss with
  | nil => simp at h
  | cons u ss ih =>
    rw [sizeList]
    rcases List.mem_cons.mp h with rfl | h
    · omega
    · have := ih h
      omega

theorem size_listed_lt {s t : Shape} (h : s ∈ t.listed) : s.size < t.size := by
  cases t with
  | leaf l => simp [listed] at h
  | group l o first rest =>
    have : s.size ≤ sizeList (first :: rest) := size_le_sizeList h
    rw [sizeList] at this
    rw [size]
    omega

/-- Induction on shapes, with the hypothesis for every shape listed. -/
@[elab_as_elim]
theorem induct {motive : Shape → Prop}
    (shape : ∀ t, (∀ s ∈ t.listed, motive s) → motive t) (t : Shape) : motive t :=
  shape t fun s _ => induct shape s
termination_by t.size
decreasing_by exact size_listed_lt ‹_›

/-! ### Counting -/

mutual

theorem length_addresses : (t : Shape) → t.addresses.length = t.size
  | .leaf _ => rfl
  | .group _ _ s ss => by
    simp [addresses, size, length_addresses s, length_addressesFrom 1 ss]

theorem length_addressesFrom (i : Nat) :
    (ss : List Shape) → (addressesFrom i ss).length = sizeList ss
  | [] => rfl
  | s :: ss => by
    simp [addressesFrom, sizeList, length_addresses s, length_addressesFrom (i + 1) ss]

end

/-! ### The order of the addresses -/

theorem exists_cons_of_mem_addressesFrom {i : Nat} {ss : List Shape} {a : Location}
    (h : a ∈ addressesFrom i ss) : ∃ j b, i ≤ j ∧ a = j :: b := by
  induction ss generalizing i with
  | nil => simp [addressesFrom] at h
  | cons s ss ih =>
    rw [addressesFrom, List.mem_append, List.mem_map] at h
    rcases h with ⟨b, -, rfl⟩ | h
    · exact ⟨i, b, Nat.le_refl i, rfl⟩
    · obtain ⟨j, b, hj, rfl⟩ := ih h
      exact ⟨j, b, by omega, rfl⟩

/-- The addresses are listed in order. -/
theorem pairwise_addresses (t : Shape) : t.addresses.Pairwise (List.Lex (· < ·)) := by
  induction t using induct with
  | shape t ih =>
    have below : ∀ (ss : List Shape) (i : Nat), (∀ s ∈ ss, s ∈ t.listed) →
        (addressesFrom i ss).Pairwise (List.Lex (· < ·)) := by
      intro ss
      induction ss with
      | nil => exact fun i _ => .nil
      | cons s ss ihs =>
        intro i hmem
        refine List.pairwise_append.mpr
          ⟨?_, ihs (i + 1) fun s hs => hmem s (List.mem_cons_of_mem _ hs), fun a ha b hb => ?_⟩
        · exact List.pairwise_map.mpr ((ih s (hmem s List.mem_cons_self)).imp .cons)
        · obtain ⟨a, -, rfl⟩ := List.mem_map.mp ha
          obtain ⟨j, b, hj, rfl⟩ := exists_cons_of_mem_addressesFrom hb
          exact .rel hj
    rw [addresses_eq]
    refine List.pairwise_cons.mpr ⟨fun a ha => ?_, below t.listed 0 fun s hs => hs⟩
    obtain ⟨j, b, -, rfl⟩ := exists_cons_of_mem_addressesFrom ha
    exact .nil

theorem mem_addressesFrom {i : Nat} {ss : List Shape} {a : Location} :
    a ∈ addressesFrom i ss ↔ ∃ j s b, ss[j]? = some s ∧ b ∈ s.addresses ∧ a = (i + j) :: b := by
  induction ss generalizing i with
  | nil => simp [addressesFrom]
  | cons s ss ih =>
    simp only [addressesFrom, List.mem_append, List.mem_map, ih]
    constructor
    · rintro (⟨b, hb, rfl⟩ | ⟨j, u, b, hu, hb, rfl⟩)
      · exact ⟨0, s, b, rfl, hb, rfl⟩
      · exact ⟨j + 1, u, b, hu, hb, by rw [Nat.add_right_comm]; rfl⟩
    · rintro ⟨- | j, u, b, hu, hb, rfl⟩
      · obtain rfl := Option.some.inj hu
        exact .inl ⟨b, hb, rfl⟩
      · exact .inr ⟨j, u, b, hu, hb, by rw [Nat.add_right_comm]; rfl⟩

section

variable {t : Shape} {i j : Nat} {a b : Location}

/-- What has the smaller address is listed first. -/
theorem lt_of_lex (ha : t.addresses[i]? = some a) (hb : t.addresses[j]? = some b)
    (h : List.Lex (· < ·) a b) : i < j := by
  obtain ⟨hi, rfl⟩ := List.getElem?_eq_some_iff.mp ha
  obtain ⟨hj, rfl⟩ := List.getElem?_eq_some_iff.mp hb
  refine Nat.lt_of_not_le fun hle => ?_
  rcases Nat.lt_or_eq_of_le hle with hlt | rfl
  · have h' := List.pairwise_iff_getElem.mp t.pairwise_addresses j i hj hi hlt
    exact List.lex_irrefl Nat.lt_irrefl _ (List.lex_trans Nat.lt_trans h h')
  · exact List.lex_irrefl Nat.lt_irrefl _ h

/-- No address is listed twice. -/
theorem eq_of_address (ha : t.addresses[i]? = some a) (hb : t.addresses[j]? = some a) : i = j := by
  obtain ⟨hi, rfl⟩ := List.getElem?_eq_some_iff.mp ha
  obtain ⟨hj, hb⟩ := List.getElem?_eq_some_iff.mp hb
  rcases Nat.lt_trichotomy i j with hlt | rfl | hlt
  · have h := List.pairwise_iff_getElem.mp t.pairwise_addresses i j hi hj hlt
    exact absurd (hb ▸ h) (List.lex_irrefl Nat.lt_irrefl _)
  · rfl
  · have h := List.pairwise_iff_getElem.mp t.pairwise_addresses j i hj hi hlt
    exact absurd (hb ▸ h) (List.lex_irrefl Nat.lt_irrefl _)

end

/-- The addresses listed are those that lead to a node. -/
theorem mem_addresses_iff {t : Shape} {a : Location} : a ∈ t.addresses ↔ ∃ s, t.at? a = some s := by
  induction t using induct generalizing a with
  | shape t ih =>
    rw [addresses_eq, List.mem_cons, mem_addressesFrom]
    cases a with
    | nil => simp
    | cons i a =>
      simp only [reduceCtorEq, false_or, Nat.zero_add, List.cons.injEq, at?_cons,
        Option.bind_eq_some_iff]
      constructor
      · rintro ⟨j, s, b, hs, hb, rfl, rfl⟩
        obtain ⟨u, hu⟩ := (ih s (List.mem_of_getElem? hs)).mp hb
        exact ⟨u, s, hs, hu⟩
      · rintro ⟨u, s, hs, hu⟩
        exact ⟨i, s, a, hs, (ih s (List.mem_of_getElem? hs)).mpr ⟨u, hu⟩, rfl, rfl⟩

/-! ### What a position says about a node -/

/-- A position describes the node at an address, when the nodes are listed by their
addresses: it has the label of the node, asks for as many children as the node lists, and
names the node above by its place in the list. -/
structure Describes (t : Shape) (nodes : List Location) (a : Location) (q : Position) : Prop where
  node : ∃ s, t.at? a = some s ∧ q.label = s.label ∧ q.minChildren = s.listed.length
  top : a = [] → q.parent = none ∧ q.slot = .root
  below : ∀ b k, a = Location.child b k → ∃ j s o, q.parent = some j ∧ nodes[j]? = some b ∧
    t.at? b = some s ∧ s.order? = some o ∧ q.slot = o.slot k

/-- A list of positions describes the nodes of a shape in pre-order. -/
def Flattening (t : Shape) (ps : List Position) : Prop :=
  ∃ nodes : List Location, nodes.Pairwise (List.Lex (· < ·)) ∧
    (∀ a, a ∈ nodes ↔ ∃ s, t.at? a = some s) ∧ List.Forall₂ (t.Describes nodes) nodes ps

section

variable {t u : Shape} {nodes : List Location}

/-- The positions of siblings describe them, if those of each sibling do. -/
theorem forall₂_describes_siblings {a : Location} {o : Order} {place : Nat}
    (hplace : nodes[place]? = some a) (hu : t.at? a = some u) (ho : u.order? = some o)
    (ss : List Shape) (number : Nat) (pre post : List Location)
    (hdrop : u.listed.drop number = ss)
    (hnodes : nodes = pre ++ ((addressesFrom number ss).map (a ++ ·) ++ post))
    (ih : ∀ s ∈ ss, ∀ (pre post : List Location) (a : Location) (parent : Option Nat) (slot : Slot),
      nodes = pre ++ (s.addresses.map (a ++ ·) ++ post) → t.at? a = some s →
      t.Describes nodes a ⟨s.label, parent, slot, s.listed.length⟩ →
      List.Forall₂ (t.Describes nodes) (s.addresses.map (a ++ ·))
        (s.positionsAt pre.length parent slot)) :
    List.Forall₂ (t.Describes nodes) ((addressesFrom number ss).map (a ++ ·))
      (positionsListAt pre.length place o number ss) := by
  induction ss generalizing number pre with
  | nil => exact .nil
  | cons s ss ihs =>
    have hs : u.listed[number]? = some s := by
      rw [← List.head?_drop, hdrop, List.head?_cons]
    have hchild : t.at? (Location.child a number) = some s := by
      rw [Location.child, at?_append, hu, Option.bind_some, at?_cons, hs]
      rfl
    have hmap : (addressesFrom number (s :: ss)).map (a ++ ·)
        = s.addresses.map (Location.child a number ++ ·)
          ++ (addressesFrom (number + 1) ss).map (a ++ ·) := by
      simp [addressesFrom, Location.child, Function.comp_def]
    rw [hmap, List.append_assoc] at hnodes
    rw [hmap, positionsListAt]
    refine List.rel_append ?_ ?_
    · refine ih s List.mem_cons_self pre _ _ _ _ hnodes hchild ⟨⟨s, hchild, rfl, rfl⟩, ?_, ?_⟩
      · exact fun h => absurd h (by simp [Location.child])
      · intro b k h
        obtain ⟨rfl, hk⟩ := List.append_inj' h rfl
        obtain rfl : number = k := by simpa using hk
        exact ⟨place, u, o, rfl, hplace, hu, ho, rfl⟩
    · have hlength : pre.length + s.size
          = (pre ++ s.addresses.map (Location.child a number ++ ·)).length := by
        rw [List.length_append, List.length_map, length_addresses]
      rw [hlength]
      refine ihs (number + 1) _ ?_ ?_ fun s hs => ih s (List.mem_cons_of_mem _ hs)
      · rw [← List.tail_drop, hdrop, List.tail_cons]
      · rw [hnodes, List.append_assoc]

/-- The positions of a node and of what is below it describe these nodes, if the first one
describes the node itself. -/
theorem forall₂_describes (s : Shape) (pre post : List Location) (a : Location)
    (parent : Option Nat) (slot : Slot) (hnodes : nodes = pre ++ (s.addresses.map (a ++ ·) ++ post))
    (hs : t.at? a = some s) (hhead : t.Describes nodes a ⟨s.label, parent, slot, s.listed.length⟩) :
    List.Forall₂ (t.Describes nodes) (s.addresses.map (a ++ ·))
      (s.positionsAt pre.length parent slot) := by
  induction s using induct generalizing pre post a parent slot with
  | shape s ih =>
    have hmap : s.addresses.map (a ++ ·) = a :: (addressesFrom 0 s.listed).map (a ++ ·) := by
      rw [addresses_eq, List.map_cons, List.append_nil]
    rw [hmap] at hnodes ⊢
    cases s with
    | leaf l => exact .cons hhead .nil
    | group l o first rest =>
      refine .cons hhead ?_
      have hplace : nodes[pre.length]? = some a := by simp [hnodes]
      have h := forall₂_describes_siblings hplace hs (o := o) rfl (first :: rest) 0 (pre ++ [a])
        post rfl (by simp [hnodes, listed]) ih
      simpa [positionsListAt, listed] using h

/-- The positions of a shape describe its nodes in pre-order. -/
theorem forall₂_describes_positions (t : Shape) :
    List.Forall₂ (t.Describes t.addresses) t.addresses t.positions := by
  have htop : t.Describes t.addresses [] ⟨t.label, none, .root, t.listed.length⟩ :=
    ⟨⟨t, rfl, rfl, rfl⟩, fun _ => ⟨rfl, rfl⟩, fun b k h => by simp [Location.child] at h⟩
  have h := forall₂_describes t [] [] [] none .root (by simp) rfl htop
  simpa [positions] using h

theorem flattening_positions (t : Shape) : t.Flattening t.positions :=
  ⟨t.addresses, t.pairwise_addresses, fun _ => mem_addresses_iff, t.forall₂_describes_positions⟩

end

/-! ### Parents and siblings -/

section

variable {t : Shape} {i j : Nat} {q : Position}

/-- The node that a position describes. -/
theorem exists_describes (h : t.positions[i]? = some q) :
    ∃ a, t.addresses[i]? = some a ∧ t.Describes t.addresses a q := by
  obtain ⟨hi, rfl⟩ := List.getElem?_eq_some_iff.mp h
  have hi' : i < t.addresses.length := t.forall₂_describes_positions.length_eq ▸ hi
  exact ⟨t.addresses[i], List.getElem?_eq_getElem hi', t.forall₂_describes_positions.get hi' hi⟩

/-- The first position is at the top. -/
theorem exists_positions_eq (t : Shape) :
    ∃ below, t.positions = ⟨t.label, none, .root, t.listed.length⟩ :: below := by
  cases t with
  | leaf l => exact ⟨[], rfl⟩
  | group l o s ss => exact ⟨_, rfl⟩

/-- Only the first position is at the top. -/
theorem eq_zero_of_parent_eq_none (h : t.positions[i]? = some q) (hq : q.parent = none) : i = 0 := by
  obtain ⟨a, ha, hd⟩ := exists_describes h
  rcases List.eq_nil_or_concat' a with rfl | ⟨b, k, rfl⟩
  · -- the top comes before every other address
    rcases i with - | i
    · rfl
    · rw [addresses_eq, List.getElem?_cons_succ] at ha
      obtain ⟨k, b, -, hb⟩ := exists_cons_of_mem_addressesFrom (List.mem_of_getElem? ha)
      exact absurd hb (by simp)
  · obtain ⟨j, s, o, hj, -⟩ := hd.below b k rfl
    rw [hq] at hj
    exact absurd hj (by simp)

/-- A parent comes before its children. -/
theorem parent_lt (h : t.positions[i]? = some q) (hq : q.parent = some j) : j < i := by
  obtain ⟨a, ha, hd⟩ := exists_describes h
  rcases List.eq_nil_or_concat' a with rfl | ⟨b, k, rfl⟩
  · rw [(hd.top rfl).1] at hq
    exact absurd hq (by simp)
  · obtain ⟨j', s, o, hj', hb, -⟩ := hd.below b k rfl
    obtain rfl : j' = j := Option.some.inj (hj'.symm.trans hq)
    apply lt_of_lex hb ha
    simpa using List.Lex.append_left (· < ·) (.nil (a := k) (l := [])) b

/-- A position below another one has a slot in the other one's group. -/
theorem slot_ne_root (h : t.positions[i]? = some q) (hq : q.parent = some j) :
    q.slot ≠ .root := by
  obtain ⟨a, ha, hd⟩ := exists_describes h
  rcases List.eq_nil_or_concat' a with rfl | ⟨b, k, rfl⟩
  · rw [(hd.top rfl).1] at hq
    exact absurd hq (by simp)
  · obtain ⟨-, -, o, -, -, -, -, hslot⟩ := hd.below b k rfl
    cases o <;> simp [hslot, Order.slot]

/-- A position below the first one has a slot in the group at the top. -/
theorem slot_of_parent_eq_zero (h : t.positions[i]? = some q) (hq : q.parent = some 0) :
    ∃ o k, t.order? = some o ∧ q.slot = o.slot k := by
  obtain ⟨a, ha, hd⟩ := exists_describes h
  rcases List.eq_nil_or_concat' a with rfl | ⟨b, k, rfl⟩
  · rw [(hd.top rfl).1] at hq
    exact absurd hq (by simp)
  · obtain ⟨j, s, o, hj, hb, hs, ho, hslot⟩ := hd.below b k rfl
    obtain rfl : j = 0 := Option.some.inj (hj.symm.trans hq)
    obtain rfl : [] = b := by simpa [addresses_eq] using hb
    obtain rfl : t = s := by simpa using hs
    exact ⟨o, k, ho, hslot⟩

/-- Siblings have slots that are both free, or fixed and different. -/
theorem slot_of_siblings {i' : Nat} {q' : Position} (h : t.positions[i]? = some q)
    (h' : t.positions[i']? = some q') (hq : q.parent = some j) (hq' : q'.parent = some j)
    (hne : i ≠ i') :
    q.slot = .free ∧ q'.slot = .free ∨
      ∃ k k', k ≠ k' ∧ q.slot = .fixed k ∧ q'.slot = .fixed k' := by
  obtain ⟨a, ha, hd⟩ := exists_describes h
  obtain ⟨a', ha', hd'⟩ := exists_describes h'
  rcases List.eq_nil_or_concat' a with rfl | ⟨b, k, rfl⟩
  · rw [(hd.top rfl).1] at hq
    exact absurd hq (by simp)
  rcases List.eq_nil_or_concat' a' with rfl | ⟨b', k', rfl⟩
  · rw [(hd'.top rfl).1] at hq'
    exact absurd hq' (by simp)
  obtain ⟨n, s, o, hn, hb, hs, ho, hslot⟩ := hd.below b k rfl
  obtain ⟨n', s', o', hn', hb', hs', ho', hslot'⟩ := hd'.below b' k' rfl
  -- the two are in one group
  obtain rfl : n = j := Option.some.inj (hn.symm.trans hq)
  obtain rfl : n' = n := Option.some.inj (hn'.symm.trans hq')
  obtain rfl : b = b' := Option.some.inj (hb.symm.trans hb')
  obtain rfl : s = s' := Option.some.inj (hs.symm.trans hs')
  obtain rfl : o = o' := Option.some.inj (ho.symm.trans ho')
  cases o with
  | free => exact .inl ⟨hslot, hslot'⟩
  | fixed =>
    refine .inr ⟨k, k', ?_, hslot, hslot'⟩
    rintro rfl
    exact hne (eq_of_address ha ha')

end

end Shape

end TreeRewriting
