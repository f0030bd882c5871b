/-
TreeRewriting/Proofs/Rule/History.lean

What the calls of an action have changed, and what that says of its scope.

Design.  A call that takes or replaces a subtree changes one position; every
other call, and every call that faults, leaves the scope as it was
(`answer_cases`).  The history of a run lists its changes in order.

A scope is what the history says it is (`Recorded`).  A position is detached
once a position above it has been changed, and else stands as its last change
has left it (`History.standing`).  The tree is the one at the start with the
subtree of each changed position that is not detached put in its place, all at
once (`Scope.swap`).  One change keeps this (`Recorded.put`), since nothing is
put in above a position that is not detached, and so does a run
(`Recorded.after`).
-/
import TreeRewriting.Proofs.Node.Patch
import TreeRewriting.Proofs.Pattern.Ancestor
import TreeRewriting.Rule.Call

namespace TreeRewriting

/-- What a call has done to a position. -/
inductive Change where
  /-- its subtree has been taken out -/
  | taken
  /-- a subtree has been put there -/
  | replaced (n : Node)

namespace Change

/-- What the change leaves at the position. -/
def node : Change → Node
  | taken => .bool false
  | replaced n => n

/-- How the position stands after the change. -/
def standing : Change → Standing
  | taken => .vacated
  | replaced _ => .live

theorem standing_ne_detached (c : Change) : c.standing ≠ .detached := by
  cases c <;> simp [standing]

end Change

/-- The changes of positions, given by their places, in the order in which they were
made. -/
abbrev History := List (Nat × Change)

namespace History

variable {h : History} {b : Binding} {i j : Nat} {c : Change}

/-- The last change of the position at a place. -/
def last? (h : History) (i : Nat) : Option Change :=
  (h.filter (·.1 == i)).getLast?.map Prod.snd

/-- Whether the location of a changed position is above that of the position at a place. -/
def detaches (h : History) (b : Binding) (i : Nat) : Bool :=
  h.any fun e => (b.getD i []).isBelow (b.getD e.1 [])

/-- How the position at a place stands after the changes. -/
def standing (h : History) (b : Binding) (i : Nat) : Standing :=
  if h.detaches b i then .detached else ((h.last? i).map Change.standing).getD .live

theorem last?_append (h : History) (i j : Nat) (c : Change) :
    last? (h ++ [(i, c)]) j = if j = i then some c else last? h j := by
  by_cases hij : j = i
  · simp [last?, hij]
  · simp [last?, hij, Ne.symm hij]

theorem mem_of_last? (hc : h.last? i = some c) : (i, c) ∈ h := by
  obtain ⟨⟨j, d⟩, hlast, rfl⟩ := Option.map_eq_some_iff.mp hc
  obtain ⟨hmem, hj⟩ := List.mem_filter.mp (List.mem_of_getLast? hlast)
  obtain rfl : j = i := by simpa using hj
  exact hmem

/-- What has been changed has a last change. -/
theorem exists_last? (hc : (i, c) ∈ h) : ∃ d, h.last? i = some d := by
  have hmem : (i, c) ∈ h.filter (·.1 == i) := List.mem_filter.mpr ⟨hc, by simp⟩
  rw [last?, List.getLast?_eq_some_getLast (List.ne_nil_of_mem hmem)]
  exact ⟨_, rfl⟩

theorem detaches_iff : h.detaches b i = true ↔
    ∃ j c, (j, c) ∈ h ∧ (b.getD i []).isBelow (b.getD j []) = true := by
  simp [detaches, List.any_eq_true, Prod.exists]

theorem detaches_append (h h' : History) (b : Binding) (i : Nat) :
    (h ++ h').detaches b i = (h.detaches b i || h'.detaches b i) :=
  List.any_append

theorem standing_eq_detached_iff : h.standing b i = .detached ↔ h.detaches b i = true := by
  rw [standing]
  rcases h.detaches b i with - | -
  · rcases h.last? i with - | - | m <;> simp [Change.standing]
  · simp

/-- A change detaches what is below, and decides how the position itself stands, unless it
is detached. -/
theorem standing_append (h : History) (b : Binding) (i j : Nat) (c : Change) :
    standing (h ++ [(i, c)]) b j =
      if (b.getD j []).isBelow (b.getD i []) then .detached
      else if j = i ∧ h.standing b j ≠ .detached then c.standing else h.standing b j := by
  have hnew : detaches [(i, c)] b j = (b.getD j []).isBelow (b.getD i []) := by simp [detaches]
  simp only [ne_eq, standing_eq_detached_iff]
  rw [standing, standing, detaches_append, hnew, last?_append]
  rcases (b.getD j []).isBelow (b.getD i []) with - | -
  · -- what is detached already stays so, even if it is the position itself
    rcases h.detaches b j with - | -
    · by_cases hij : j = i <;> simp [hij]
    · simp
  · simp

theorem standing_eq_vacated_iff :
    h.standing b i = .vacated ↔ h.detaches b i = false ∧ h.last? i = some .taken := by
  rw [standing]
  rcases h.detaches b i with - | -
  · rcases h.last? i with - | - | m <;> simp [Change.standing]
  · simp

theorem standing_eq_live_iff :
    h.standing b i = .live ↔ h.detaches b i = false ∧ h.last? i ≠ some .taken := by
  rw [standing]
  rcases h.detaches b i with - | -
  · rcases h.last? i with - | - | m <;> simp [Change.standing]
  · simp

end History

namespace Scope

variable {s : Scope} {i j : Nat} {c : Change} {l : String}

/-! ### What a call changes -/

/-- The change that a call makes, and the place of the position. -/
def change? (s : Scope) (c : Call) : Option (Nat × Change) :=
  match c, (s.answer c).1 with
  | .take l, .ok _ => (s.pattern.indexOf? l).map fun i => (i, .taken)
  | .replace l n, .ok _ => (s.pattern.indexOf? l).map fun i => (i, .replaced n)
  | _, _ => none

/-- The changes that a sequence of calls makes. -/
def changes (s : Scope) : List Call → History
  | [] => []
  | c :: calls => (s.change? c).toList ++ changes (s.answer c).2 calls

/-- The scope after a change of the position at a place. -/
def put (s : Scope) (i : Nat) (c : Change) : Scope :=
  { s with tree := s.tree.set (s.location i) c.node, standings := s.settle i c.standing }

theorem live_eq_ok_iff :
    s.live l = .ok i ↔ s.pattern.indexOf? l = some i ∧ s.standing i = .live := by
  rw [live, index]
  rcases s.pattern.indexOf? l with - | j
  · simp
  · dsimp only
    rw [Option.some.injEq]
    constructor
    · intro h
      rcases hj : s.standing j with - | - | - <;> rw [hj] at h
      · obtain rfl := Except.ok.inj h
        exact ⟨rfl, hj⟩
      · cases h
      · cases h
    · rintro ⟨rfl, hj⟩
      rw [hj]

theorem node_eq_ok_iff {k : Node} :
    s.node l = .ok k ↔ ∃ i, s.live l = .ok i ∧ s.tree.at? (s.location i) = some k := by
  rw [node]
  rcases s.live l with e | i
  · simp
  · rcases ht : s.tree.at? (s.location i) with - | m <;> simp [ht]

theorem take_eq_ok_iff {m : Node} {s' : Scope} :
    s.take l = .ok (m, s') ↔
      ∃ i, s.live l = .ok i ∧ s.tree.at? (s.location i) = some m ∧ s' = s.put i .taken := by
  rw [take]
  rcases s.live l with e | i
  · simp
  · rcases ht : s.tree.at? (s.location i) with - | m'
    · simp [ht]
    · simp [ht, put, Change.node, Change.standing, @eq_comm Scope s']

theorem replace_eq_ok_iff {m : Node} {s' : Scope} :
    s.replace l m = .ok s' ↔
      ∃ i, s.pattern.indexOf? l = some i ∧ s.standing i ≠ .detached ∧
        (∃ old, s.tree.at? (s.location i) = some old) ∧ s' = s.put i (.replaced m) := by
  rw [replace, index]
  rcases s.pattern.indexOf? l with - | i
  · simp
  · by_cases hd : s.standing i = .detached
    · simp [hd]
    · rcases ht : s.tree.at? (s.location i) with - | m'
      · simp [hd, ht]
      · simp [hd, ht, put, Change.node, Change.standing, @eq_comm Scope s']

/-- A call either changes nothing, or one position that is not detached. -/
theorem answer_cases (s : Scope) (call : Call) :
    s.change? call = none ∧ (s.answer call).2 = s ∨
      ∃ i c l, s.change? call = some (i, c) ∧ s.pattern.indexOf? l = some i ∧
        s.standing i ≠ .detached ∧ (s.answer call).2 = s.put i c := by
  cases call with
  | take l =>
    simp only [change?, answer]
    rcases h : s.take l with e | ⟨m, s'⟩
    · exact .inl ⟨rfl, rfl⟩
    · obtain ⟨i, hi, -, rfl⟩ := take_eq_ok_iff.mp h
      obtain ⟨hindex, hlive⟩ := live_eq_ok_iff.mp hi
      exact .inr ⟨i, .taken, l, by simp [hindex], hindex, by simp [hlive], rfl⟩
  | replace l m =>
    simp only [change?, answer]
    rcases h : s.replace l m with e | s'
    · exact .inl ⟨rfl, rfl⟩
    · obtain ⟨i, hindex, hd, -, rfl⟩ := replace_eq_ok_iff.mp h
      exact .inr ⟨i, .replaced m, l, by simp [hindex], hindex, hd, rfl⟩
  | _ => exact .inl ⟨rfl, rfl⟩

/-! ### One change -/

@[simp] theorem put_binding (s : Scope) (i : Nat) (c : Change) :
    (s.put i c).binding = s.binding := rfl

theorem getElem?_binding (hi : i < s.binding.length) : s.binding[i]? = some (s.location i) := by
  simp [location, hi]

theorem length_standings_put (h : s.standings.length = s.binding.length) :
    (s.put i c).standings.length = s.binding.length := by
  simp [put, settle, h]

theorem standing_put (h : s.standings.length = s.binding.length) (hj : j < s.binding.length) :
    (s.put i c).standing j =
      if (s.location j).isBelow (s.location i) then .detached
      else if j = i then c.standing else s.standing j := by
  have hset : (s.standings.set i c.standing)[j]?
      = some (if j = i then c.standing else s.standing j) := by
    by_cases hij : i = j
    · subst hij
      simp [h, hj]
    · simp [standing, h, hj, hij, Ne.symm hij]
  have hzip : (s.binding.zip (s.standings.set i c.standing))[j]?
      = some (s.location j, if j = i then c.standing else s.standing j) :=
    List.getElem?_zip_eq_some.mpr ⟨getElem?_binding hj, hset⟩
  rw [standing, put, settle, List.getD_eq_getElem?_getD, List.getElem?_map, hzip]
  rfl

/-! ### The tree of a history -/

/-- The subtree put at the position at a place, if it has been changed and is not
detached. -/
def content? (s : Scope) (h : History) (i : Nat) : Option Node :=
  if s.standing i = .detached then none else (h.last? i).map Change.node

/-- The subtrees put in place of those at the start: what the last change of a position has
left, at the location of each changed position that is not detached. -/
def swap (s : Scope) (h : History) (q : Location) : Option Node :=
  (s.binding.findIdx? (· == q)).bind (s.content? h)

/-- A position has been changed and is still part of the tree. -/
def Swapped (s : Scope) (h : History) (i : Nat) : Prop :=
  s.standing i ≠ .detached ∧ ∃ c, (i, c) ∈ h

theorem content?_eq_some_iff {h : History} {m : Node} :
    s.content? h i = some m ↔
      s.standing i ≠ .detached ∧ ∃ c, h.last? i = some c ∧ c.node = m := by
  rw [content?]
  by_cases hd : s.standing i = .detached
  · simp [hd]
  · simp [hd]

theorem location_of_findIdx? {q : Location} (hq : s.binding.findIdx? (· == q) = some i) :
    i < s.binding.length ∧ s.location i = q := by
  obtain ⟨hi, hloc, -⟩ := List.findIdx?_eq_some_iff_getElem.mp hq
  exact ⟨hi, by simpa [location, hi] using hloc⟩

/-- Only at the locations of changed positions a subtree is put in. -/
theorem swapped_of_swap {h : History} {q : Location} {m : Node} (hq : s.swap h q = some m) :
    ∃ i, i < s.binding.length ∧ s.location i = q ∧ s.Swapped h i := by
  obtain ⟨i, hfind, hcontent⟩ := Option.bind_eq_some_iff.mp hq
  obtain ⟨hi, hloc⟩ := location_of_findIdx? hfind
  obtain ⟨hd, c, hc, -⟩ := content?_eq_some_iff.mp hcontent
  exact ⟨i, hi, hloc, hd, c, History.mem_of_last? hc⟩

theorem swap_eq_none {h : History} {q : Location}
    (hq : ∀ i, s.Swapped h i → s.location i ≠ q) : s.swap h q = none := by
  rcases hm : s.swap h q with - | m
  · rfl
  · obtain ⟨i, -, hloc, hi⟩ := swapped_of_swap hm
    exact absurd hloc (hq i hi)

/-- A change at a location leaves what is put in elsewhere. -/
theorem swap_put_of_not_prefix (hlength : s.standings.length = s.binding.length) {q : Location}
    (hq : ¬ s.location i <+: q) (h : History) (c : Change) :
    (s.put i c).swap (h ++ [(i, c)]) q = s.swap h q := by
  rw [swap, swap, put_binding]
  rcases hfind : s.binding.findIdx? (· == q) with - | j
  · rfl
  · obtain ⟨hj, rfl⟩ := location_of_findIdx? hfind
    have hij : j ≠ i := by
      rintro rfl
      exact hq (List.prefix_refl _)
    have hbelow : ¬ (s.location j).isBelow (s.location i) = true := fun hbelow =>
      hq (Location.prefix_iff_eq_or_isBelow.mpr (.inr hbelow))
    rw [Option.bind_some, Option.bind_some, content?, content?, standing_put hlength hj,
      if_neg hbelow, if_neg hij, History.last?_append, if_neg hij]

/-! ### What a run records -/

/-- The scope is what the changes since the start say. -/
structure Recorded (s₀ : Scope) (h : History) (s : Scope) : Prop where
  rule : s.rule = s₀.rule
  pattern : s.pattern = s₀.pattern
  binding : s.binding = s₀.binding
  valid : s.pattern.Valid s₀.tree s.binding
  length_standings : s.standings.length = s.binding.length
  bound : ∀ i c, (i, c) ∈ h → i < s.binding.length
  standing : ∀ i, i < s.binding.length → s.standing i = h.standing s.binding i
  tree : s.tree = s₀.tree.patch (s.swap h)

namespace Recorded

variable {s₀ : Scope} {h : History}

theorem eq_of_location (hr : Recorded s₀ h s) (hi : i < s.binding.length)
    (hj : j < s.binding.length) (hij : s.location i = s.location j) : i = j :=
  hr.valid.eq_of_location (getElem?_binding hi) (hij ▸ getElem?_binding hj)

theorem findIdx?_location (hr : Recorded s₀ h s) (hi : i < s.binding.length) :
    s.binding.findIdx? (· == s.location i) = some i := by
  refine List.findIdx?_eq_some_iff_getElem.mpr ⟨hi, by simp [location, hi], fun j hj => ?_⟩
  have hj' : j < s.binding.length := Nat.lt_trans hj hi
  intro hloc
  have hij : s.location j = s.location i := by simpa [location, hj'] using hloc
  exact Nat.ne_of_lt hj (hr.eq_of_location hj' hi hij)

/-- At the location of a position stands what its last change has left. -/
theorem swap_location (hr : Recorded s₀ h s) (hi : i < s.binding.length) :
    s.swap h (s.location i) = s.content? h i := by
  rw [swap, hr.findIdx?_location hi, Option.bind_some]

/-- Above a position that is not detached nothing has been changed. -/
theorem not_isBelow (hr : Recorded s₀ h s) (hi : i < s.binding.length)
    (hd : s.standing i ≠ .detached) (hc : (j, c) ∈ h) :
    ¬ (s.location i).isBelow (s.location j) = true := by
  intro hbelow
  rw [hr.standing i hi] at hd
  exact hd (History.standing_eq_detached_iff.mpr (History.detaches_iff.mpr ⟨j, c, hc, hbelow⟩))

/-- Above a position that is not detached nothing is put in. -/
theorem swap_above (hr : Recorded s₀ h s) (hi : i < s.binding.length)
    (hd : s.standing i ≠ .detached) {q : Location} (hq : (s.location i).isBelow q = true) :
    s.swap h q = none := by
  refine swap_eq_none ?_
  rintro j ⟨-, c, hc⟩ rfl
  exact hr.not_isBelow hi hd hc hq

/-- The location of a position that is not detached is in the tree. -/
theorem exists_at? (hr : Recorded s₀ h s) (hi : i < s.binding.length)
    (hd : s.standing i ≠ .detached) :
    ∃ m, s₀.tree.at? (s.location i) = some m ∧
      s.tree.at? (s.location i) = some (m.patch fun r => s.swap h (s.location i ++ r)) := by
  obtain ⟨q, hq⟩ := hr.valid.exists_position (getElem?_binding hi)
  obtain ⟨l, m, hl, hm, -⟩ := hr.valid.inTree i q hq
  obtain rfl := Option.some.inj ((getElem?_binding hi).symm.trans hl)
  refine ⟨m, hm, ?_⟩
  rw [hr.tree, Node.at?_patch fun q hq => hr.swap_above hi hd hq, hm, Option.map_some]

theorem standing_put (hr : Recorded s₀ h s) (hi : i < s.binding.length)
    (hd : s.standing i ≠ .detached) (c : Change) (hj : j < s.binding.length) :
    (s.put i c).standing j = History.standing (h ++ [(i, c)]) s.binding j := by
  rw [Scope.standing_put hr.length_standings hj, hr.standing j hj, History.standing_append]
  by_cases hij : j = i
  · subst hij
    rw [hr.standing j hj] at hd
    simp only [hd, true_and, ne_eq, not_false_eq_true, if_true, location]
  · simp only [hij, false_and, if_false, location]

theorem tree_put (hr : Recorded s₀ h s) (hi : i < s.binding.length)
    (hd : s.standing i ≠ .detached) (c : Change) :
    (s.put i c).tree = s₀.tree.patch ((s.put i c).swap (h ++ [(i, c)])) := by
  have helsewhere : ∀ q, ¬ s.location i <+: q →
      (s.put i c).swap (h ++ [(i, c)]) q = s.swap h q := fun q hq =>
    swap_put_of_not_prefix hr.length_standings hq h c
  show s.tree.set (s.location i) c.node = _
  rw [hr.tree]
  refine Node.set_patch (fun q hq => hr.swap_above hi hd hq) ?above ?here helsewhere ?inTree
  case above =>
    intro q hq
    -- a location above this one is neither it nor below it
    rw [helsewhere q fun hprefix => ?_, hr.swap_above hi hd hq]
    rcases Location.prefix_iff_eq_or_isBelow.mp hprefix with rfl | hq'
    · exact Location.isBelow_irrefl _ hq
    · exact Location.isBelow_irrefl _ (Location.isBelow_trans hq hq')
  case here =>
    rw [swap, put_binding, hr.findIdx?_location hi, Option.bind_some, content?,
      Scope.standing_put hr.length_standings hi, if_neg (Location.isBelow_irrefl _), if_pos rfl,
      if_neg c.standing_ne_detached, History.last?_append, if_pos rfl, Option.map_some]
  case inTree =>
    obtain ⟨m, hm, -⟩ := hr.exists_at? hi hd
    exact ⟨m, hm⟩

/-- A change of a position that is not detached is recorded. -/
theorem put (hr : Recorded s₀ h s) (hi : i < s.binding.length) (hd : s.standing i ≠ .detached)
    (c : Change) : Recorded s₀ (h ++ [(i, c)]) (s.put i c) where
  rule := hr.rule
  pattern := hr.pattern
  binding := hr.binding
  valid := hr.valid
  length_standings := length_standings_put hr.length_standings
  bound j d hd := by
    rcases List.mem_append.mp hd with hd | hd
    · exact hr.bound j d hd
    · obtain ⟨rfl, -⟩ : j = i ∧ d = c := by simpa using hd
      exact hi
  standing _ hj := hr.standing_put hi hd c hj
  tree := hr.tree_put hi hd c

/-- A label names a position that has a location. -/
theorem lt_of_indexOf? (hr : Recorded s₀ h s) (hl : s.pattern.indexOf? l = some i) :
    i < s.binding.length := by
  obtain ⟨hi, -⟩ := List.findIdx?_eq_some_iff_getElem.mp hl
  rw [hr.valid.length_eq]
  exact hi

/-- What a call changes is recorded. -/
theorem answer (hr : Recorded s₀ h s) (call : Call) :
    Recorded s₀ (h ++ (s.change? call).toList) (s.answer call).2 := by
  rcases s.answer_cases call with ⟨hnone, hsame⟩ | ⟨i, c, l, hsome, hl, hd, hput⟩
  · rw [hnone, hsame, Option.toList_none, List.append_nil]
    exact hr
  · rw [hsome, hput, Option.toList_some]
    exact hr.put (hr.lt_of_indexOf? hl) hd c

/-- What a run changes is recorded. -/
theorem after (hr : Recorded s₀ h s) (calls : List Call) :
    Recorded s₀ (h ++ s.changes calls) (s.after calls) := by
  induction calls generalizing s h with
  | nil =>
    rw [changes, List.append_nil]
    exact hr
  | cons call calls ih =>
    rw [changes, ← List.append_assoc]
    exact ih (hr.answer call)

end Recorded

variable {p : Pattern} {n : Node} {b : Binding}

/-- At the start nothing has been changed. -/
theorem recorded_enter (hb : b ∈ p.bindings n) (rule : String) :
    Recorded (enter rule p b n) [] (enter rule p b n) where
  rule := rfl
  pattern := rfl
  binding := rfl
  valid := Pattern.mem_bindings_iff.mp hb
  length_standings := by simp [enter]
  bound i c hc := by simp at hc
  standing i hi := by
    have hi' : i < b.length := hi
    simp [standing, enter, hi', History.standing, History.detaches, History.last?]
  tree := by
    refine (Node.patch_eq_self fun q => swap_eq_none ?_).symm
    rintro i ⟨-, c, hc⟩
    simp at hc

/-- A run is recorded by its history. -/
theorem recorded_after (hb : b ∈ p.bindings n) (rule : String) (calls : List Call) :
    Recorded (enter rule p b n) ((enter rule p b n).changes calls)
      ((enter rule p b n).after calls) :=
  (recorded_enter hb rule).after calls

end Scope

end TreeRewriting
