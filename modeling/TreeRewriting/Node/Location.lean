/-
TreeRewriting/Node/Location.lean

Locations in a tree.

A location is the list of child indices on the way down from the root; the
empty list is the root itself.  `at?` reads the subtree at a location and `set`
puts another in its place.  `locations` lists all of them, children before
their parent and siblings from left to right.
-/
import TreeRewriting.Node.Size

namespace TreeRewriting

/-- A way down from the root of a tree, as child indices. -/
abbrev Location := List Nat

namespace Location

/-- The location of a child. -/
def child (p : Location) (i : Nat) : Location := p ++ [i]

/-- The location of the parent; the root has none. -/
def parent? (p : Location) : Option Location := if p.isEmpty then none else some p.dropLast

/-- Whether a location lies strictly below another. -/
def isBelow (p q : Location) : Bool := q.isPrefixOf p && q.length < p.length

/-- The text of a location: a slash, and the steps with slashes between them. -/
def text (p : Location) : String := "/" ++ "/".intercalate (p.map toString)

theorem isBelow_iff {p q : Location} : p.isBelow q = true ↔ ∃ r, r ≠ [] ∧ p = q ++ r := by
  simp only [isBelow, Bool.and_eq_true, List.isPrefixOf_iff_prefix, decide_eq_true_eq]
  constructor
  · rintro ⟨⟨r, rfl⟩, h⟩
    exact ⟨r, by rintro rfl; simp at h, rfl⟩
  · rintro ⟨r, hr, rfl⟩
    have := List.length_pos_iff.mpr hr
    exact ⟨⟨r, rfl⟩, by simp; omega⟩

end Location

namespace Node

/-! ### Reading and replacing -/

/-- The subtree at a location. -/
def at? (n : Node) : Location → Option Node
  | [] => some n
  | i :: p =>
    match n.children[i]? with
    | some c => c.at? p
    | none => none

/-- The tree with another subtree at a location; a location that is not in the tree leaves
it as it is. -/
def set (n : Node) : Location → Node → Node
  | [], m => m
  | i :: p, m =>
    match n.children[i]? with
    | some c => n.withChildren (n.children.set i (c.set p m))
    | none => n

@[simp] theorem at?_nil (n : Node) : n.at? [] = some n := rfl

@[simp] theorem set_nil (n m : Node) : n.set [] m = m := rfl

theorem at?_cons (n : Node) (i : Nat) (p : Location) :
    n.at? (i :: p) = n.children[i]?.bind (·.at? p) := by
  simp only [at?]
  rcases n.children[i]? with - | c <;> rfl

@[simp] theorem at?_unary (op : UnaryOp) (x : Node) (p : Location) :
    (unary op x).at? (0 :: p) = x.at? p := rfl

@[simp] theorem at?_binary_left (op : BinaryOp) (a b : Node) (p : Location) :
    (binary op a b).at? (0 :: p) = a.at? p := rfl

@[simp] theorem at?_binary_right (op : BinaryOp) (a b : Node) (p : Location) :
    (binary op a b).at? (1 :: p) = b.at? p := rfl

theorem at?_singleton (n : Node) (i : Nat) : n.at? [i] = n.children[i]? := by
  simp [at?_cons]

theorem lt_arity_of_at? {n c : Node} {i : Nat} (h : n.at? [i] = some c) : i < n.arity :=
  (List.getElem?_eq_some_iff.mp ((at?_singleton n i).symm.trans h)).1

/-- An operator on two operands has its operands at two locations. -/
theorem at?_binary_eq_some {op : BinaryOp} {a b c : Node} {i : Nat} :
    (binary op a b).at? [i] = some c ↔ (i = 0 ∧ c = a) ∨ (i = 1 ∧ c = b) := by
  match i with
  | 0 => simp [eq_comm]
  | 1 => simp [eq_comm]
  | i + 2 => simp [at?_singleton, children]

theorem at?_append (n : Node) (p q : Location) : n.at? (p ++ q) = (n.at? p).bind (·.at? q) := by
  induction p generalizing n with
  | nil => rfl
  | cons i p ih =>
    simp only [List.cons_append, at?_cons]
    rcases n.children[i]? with - | c
    · rfl
    · exact ih c

/-- An operator on any number of operands has them at the locations of its children. -/
theorem at?_child {n : Node} {p : Location} {op : NaryOp} {xs : List Node}
    (h : n.at? p = some (.nary op xs)) (i : Nat) : n.at? (p.child i) = xs[i]? := by
  rw [Location.child, at?_append, h]
  exact at?_singleton _ i

/-- Below a changed child everything is read from the new child, and the other children
are what they were. -/
theorem children_set_cons {n c : Node} {i : Nat} (h : n.children[i]? = some c) (p : Location)
    (m : Node) : (n.set (i :: p) m).children = n.children.set i (c.set p m) := by
  simp only [set, h]
  exact children_withChildren (by simp [arity])

/-- What has been put at a location of the tree is read back there. -/
theorem at?_set_self {n : Node} {p : Location} {c : Node} (h : n.at? p = some c) (m : Node) :
    (n.set p m).at? p = some m := by
  induction p generalizing n with
  | nil => rfl
  | cons i p ih =>
    rw [at?_cons] at h
    obtain ⟨d, hd, h⟩ := Option.bind_eq_some_iff.mp h
    have hi : i < n.children.length := (List.getElem?_eq_some_iff.mp hd).1
    rw [at?_cons, children_set_cons hd, List.getElem?_set_self hi]
    exact ih h

theorem set_cons {n c : Node} {i : Nat} (h : n.children[i]? = some c) (p : Location) (m : Node) :
    n.set (i :: p) m = n.withChildren (n.children.set i (c.set p m)) := by
  rw [set, h]

theorem set_of_no_child {n : Node} {i : Nat} (h : n.children[i]? = none) (p : Location)
    (m : Node) : n.set (i :: p) m = n := by
  rw [set, h]

/-- Changing one child leaves the others. -/
theorem getElem?_children_set {i j : Nat} (hij : i ≠ j) (n : Node) (p : Location) (m : Node) :
    (n.set (i :: p) m).children[j]? = n.children[j]? := by
  rcases hc : n.children[i]? with - | c
  · rw [set_of_no_child hc]
  · rw [children_set_cons hc, List.getElem?_set_ne hij]

theorem at?_set_of_ne {i j : Nat} (hij : i ≠ j) (n : Node) (p q : Location) (m : Node) :
    (n.set (i :: p) m).at? (j :: q) = n.at? (j :: q) := by
  rw [at?_cons, getElem?_children_set hij, at?_cons]

/-- What is put at a location last is what stands there. -/
theorem set_set (n : Node) (p : Location) (a b : Node) : (n.set p a).set p b = n.set p b := by
  induction p generalizing n with
  | nil => rfl
  | cons i p ih =>
    rcases hc : n.children[i]? with - | c
    · rw [set_of_no_child hc]
    · have hi : i < n.children.length := (List.getElem?_eq_some_iff.mp hc).1
      have hc' : (n.set (i :: p) a).children[i]? = some (c.set p a) := by
        rw [children_set_cons hc, List.getElem?_set_self hi]
      rw [set_cons hc', children_set_cons hc, ih, List.set_set, set_cons hc, set_cons hc,
        withChildren_withChildren (by simp [arity]) (by simp [arity])]

/-- Changes in different operands may be made in either order. -/
theorem set_comm {i j : Nat} (hij : i ≠ j) (n : Node) (p q : Location) (a b : Node) :
    (n.set (i :: p) a).set (j :: q) b = (n.set (j :: q) b).set (i :: p) a := by
  have hi : (n.set (j :: q) b).children[i]? = n.children[i]? :=
    getElem?_children_set hij.symm n q b
  have hj : (n.set (i :: p) a).children[j]? = n.children[j]? := getElem?_children_set hij n p a
  rcases hc : n.children[i]? with - | c
  · rw [set_of_no_child hc, set_of_no_child (hi.trans hc)]
  rcases hd : n.children[j]? with - | d
  · rw [set_of_no_child hd, set_of_no_child (hj.trans hd)]
  · rw [set_cons (hj.trans hd), set_cons (hi.trans hc), children_set_cons hc,
      children_set_cons hd, set_cons hc, set_cons hd,
      withChildren_withChildren (by simp [arity]) (by simp [arity]),
      withChildren_withChildren (by simp [arity]) (by simp [arity]), List.set_comm _ _ hij]

/-- Putting a subtree at a location in one of the operands changes that operand. -/
theorem set_withChildren_append {n c : Node} {pre post : List Node}
    (hn : (pre ++ c :: post).length = n.arity) (p : Location) (m : Node) :
    (n.withChildren (pre ++ c :: post)).set (pre.length :: p) m
      = n.withChildren (pre ++ c.set p m :: post) := by
  have hc : (n.withChildren (pre ++ c :: post)).children[pre.length]? = some c := by
    simp [children_withChildren hn]
  have hset : (pre ++ c :: post).set pre.length (c.set p m) = pre ++ c.set p m :: post := by
    simp
  have hlen : (pre ++ c.set p m :: post).length = n.arity := by simpa using hn
  rw [set, hc]
  simp only [children_withChildren hn, hset]
  exact withChildren_withChildren hn hlen

/-- What is read in an operand is read in that operand. -/
theorem at?_withChildren_append {n c : Node} {pre post : List Node}
    (hn : (pre ++ c :: post).length = n.arity) (p : Location) :
    (n.withChildren (pre ++ c :: post)).at? (pre.length :: p) = c.at? p := by
  simp [at?_cons, children_withChildren hn]

/-- An operand stands between those before it and those behind it. -/
theorem exists_withChildren_append {n c : Node} {i : Nat} (h : n.children[i]? = some c) :
    ∃ pre post, pre.length = i ∧ (pre ++ c :: post).length = n.arity ∧
      n.withChildren (pre ++ c :: post) = n := by
  obtain ⟨hi, hc⟩ := List.getElem?_eq_some_iff.mp h
  have hsplit : n.children.take i ++ c :: n.children.drop (i + 1) = n.children := by
    rw [← hc, ← List.drop_eq_getElem_cons hi, List.take_append_drop]
  refine ⟨n.children.take i, n.children.drop (i + 1), ?_, ?_, ?_⟩
  · exact List.length_take_of_le (Nat.le_of_lt hi)
  · rw [hsplit, arity]
  · rw [hsplit, withChildren_children]

/-! ### All locations -/

mutual

/-- All locations of a tree, children before their parent, siblings from left to right. -/
def locations : Node → List Location
  | .leaf _ => [[]]
  | .unary _ x => (locations x).map (0 :: ·) ++ [[]]
  | .binary _ a b => (locations a).map (0 :: ·) ++ (locations b).map (1 :: ·) ++ [[]]
  | .nary _ xs => locationsFrom 0 xs ++ [[]]

/-- All locations in a list of siblings of which the first has the given index. -/
def locationsFrom (i : Nat) : List Node → List Location
  | [] => []
  | x :: xs => (locations x).map (i :: ·) ++ locationsFrom (i + 1) xs

end

theorem locationsFrom_append (i : Nat) (xs ys : List Node) :
    locationsFrom i (xs ++ ys) = locationsFrom i xs ++ locationsFrom (i + xs.length) ys := by
  induction xs generalizing i with
  | nil => simp [locationsFrom]
  | cons x xs ih =>
    have hi : i + 1 + xs.length = i + (x :: xs).length := by simp; omega
    simp [locationsFrom, ih, hi]

theorem locations_eq (n : Node) : n.locations = locationsFrom 0 n.children ++ [[]] := by
  cases n <;> simp [locations, locationsFrom, children]

mutual

/-- A tree has as many locations as nodes. -/
theorem length_locations : (n : Node) → n.locations.length = n.size
  | .leaf _ => rfl
  | .unary _ x => by simp [locations, size, length_locations x]
  | .binary _ a b => by
    simp [locations, size, length_locations a, length_locations b, Nat.add_assoc]
  | .nary _ xs => by simp [locations, size, length_locationsFrom 0 xs]

theorem length_locationsFrom (i : Nat) :
    (xs : List Node) → (locationsFrom i xs).length = sizeList xs
  | [] => rfl
  | x :: xs => by
    simp [locationsFrom, sizeList, length_locations x, length_locationsFrom (i + 1) xs]

end

/-- A location in a list of siblings leads into one of them. -/
theorem mem_locationsFrom {i : Nat} {xs : List Node} {p : Location} :
    p ∈ locationsFrom i xs ↔ ∃ j x q, xs[j]? = some x ∧ q ∈ x.locations ∧ p = (i + j) :: q := by
  induction xs generalizing i with
  | nil => simp [locationsFrom]
  | cons x xs ih =>
    simp only [locationsFrom, List.mem_append, List.mem_map, ih]
    constructor
    · rintro (⟨q, hq, rfl⟩ | ⟨j, y, q, hy, hq, rfl⟩)
      · exact ⟨0, x, q, rfl, hq, rfl⟩
      · exact ⟨j + 1, y, q, hy, hq, by rw [Nat.add_right_comm]; rfl⟩
    · rintro ⟨- | j, y, q, hy, hq, rfl⟩
      · obtain rfl := Option.some.inj hy
        exact .inl ⟨q, hq, rfl⟩
      · exact .inr ⟨j, y, q, hy, hq, by rw [Nat.add_right_comm]; rfl⟩

/-- The locations listed are those at which the tree has a subtree. -/
theorem mem_locations_iff {n : Node} {p : Location} : p ∈ n.locations ↔ ∃ m, n.at? p = some m := by
  induction n using induct generalizing p with
  | node n ih =>
    rw [locations_eq, List.mem_append, List.mem_singleton, mem_locationsFrom]
    cases p with
    | nil => simp
    | cons i p =>
      simp only [reduceCtorEq, or_false, Nat.zero_add, List.cons.injEq, at?_cons,
        Option.bind_eq_some_iff]
      constructor
      · rintro ⟨j, c, q, hc, hq, rfl, rfl⟩
        obtain ⟨m, hm⟩ := (ih c (List.mem_of_getElem? hc)).mp hq
        exact ⟨m, c, hc, hm⟩
      · rintro ⟨m, c, hc, hm⟩
        exact ⟨i, c, p, hc, (ih c (List.mem_of_getElem? hc)).mpr ⟨m, hm⟩, rfl, rfl⟩

end Node

end TreeRewriting
