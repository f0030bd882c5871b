/-
TreeRewriting/Proofs/Session/Tour.lean

A single pass is one loop over the locations of the tree it starts from.

Design.  The loop (`tour`) is given a list of locations and looks at each of them
once, in the tree as the rewrites before have left it; a location that the tree
has lost by then ends it without a result.  `Toured` is the loop as a relation,
in the terms in which a sweep ends.  A loop over two lists is one loop after the
other (`Toured.append`), and a loop in an operand is one over the locations that
lead into the operand (`Toured.inOperand`).

The locations of a tree are those of its operands, one operand after the other,
and then the root.  That is the order in which a sweep works, and in a single
pass it leaves the node it has rewritten alone.  What it rewrites is therefore
never above a location that is still to come, and the operands behind are those
at the start (`sweep_toured`).

Main result: `Session.run_singlePass_eq_tour`.
-/
import TreeRewriting.Proofs.Session.Trail

namespace TreeRewriting

/-! ### The loop -/

/-- What a loop over locations leaves behind: the tree, the rewrites in their order, and why
it ended early, if it did. -/
structure Tour where
  after : Node
  firings : List Firing
  halt : Option Halt

namespace Tour

/-- The same with earlier rewrites in front. -/
def prepend (fs : List Firing) (t : Tour) : Tour := { t with firings := fs ++ t.firings }

/-- How a session ends that consists of the loop: if all locations have been visited it is
saturated unless something has been rewritten. -/
def ending (t : Tour) : Ending :=
  match t.halt with
  | none => .stopped (if t.firings.isEmpty then .saturated else .singlePass)
  | some .exhausted => .stopped .iterationLimit
  | some (.faulted attempt e) => .faulted attempt e

/-- The session on a tree that consists of the loop. -/
def session (t : Tour) (n : Node) : Session := ⟨n, t.after, [t.firings], t.ending⟩

@[simp] theorem firings_session (t : Tour) (n : Node) : (t.session n).firings = t.firings := by
  simp [Session.firings, session]

theorem ending_eq_iterationLimit_iff {t : Tour} :
    t.ending = .stopped .iterationLimit ↔ t.halt = some .exhausted := by
  obtain ⟨m, fs, - | - | ⟨attempt, e⟩⟩ := t
  · rcases fs with - | ⟨f, fs⟩ <;> simp [ending]
  · simp [ending]
  · simp [ending]

end Tour

/-- Visits the listed locations one after the other and applies, where a rule matches, the
first one that does.  The loop ends early when the action ends in a fault, or when a rule
matches after so many rewrites; it has no result when a location is not in the tree any
more. -/
def tour (rules : RuleSet) (budget : Nat) (n : Node) : List Location → Option Tour
  | [] => some ⟨n, [], none⟩
  | p :: ps =>
    match n.at? p with
    | none => none
    | some _ =>
      match rules.redexAt? n p with
      | none => tour rules budget n ps
      | some x =>
        match budget with
        | 0 => some ⟨n, [], some .exhausted⟩
        | budget + 1 =>
          match x.outcome.fault with
          | some e => some ⟨x.contract n, [], some (.faulted (x.firing []) e)⟩
          | none => (tour rules budget (x.contract n) ps).map (·.prepend [x.firing []])

/-! ### The loop as a relation -/

/-- The loop over the listed locations of a tree that hangs at a location, all of which it
finds in the tree. -/
inductive Toured (rules : RuleSet) (here : Location) :
    Nat → Node → List Location → Node → List Firing → Option Halt → Prop
  | nil (budget : Nat) (n : Node) : Toured rules here budget n [] n [] none
  | pass {budget : Nat} {n o m : Node} {p : Location} {ps : List Location} {fs : List Firing}
      {halt : Option Halt} (found : n.at? p = some m) (clear : rules.redexAt? n p = none)
      (rest : Toured rules here budget n ps o fs halt) :
      Toured rules here budget n (p :: ps) o fs halt
  | fire {budget : Nat} {n o : Node} {p : Location} {ps : List Location} {fs : List Firing}
      {halt : Option Halt} {x : Redex} (redex : rules.redexAt? n p = some x)
      (done : x.outcome.fault = none)
      (rest : Toured rules here budget (x.contract n) ps o fs halt) :
      Toured rules here (budget + 1) n (p :: ps) o (x.firing here :: fs) halt
  | exhausted {n : Node} {p : Location} {x : Redex} (ps : List Location)
      (redex : rules.redexAt? n p = some x) :
      Toured rules here 0 n (p :: ps) n [] (some .exhausted)
  | faulted {budget : Nat} {n : Node} {p : Location} {x : Redex} {e : Fault}
      (ps : List Location) (redex : rules.redexAt? n p = some x)
      (fault : x.outcome.fault = some e) :
      Toured rules here (budget + 1) n (p :: ps) (x.contract n) []
        (some (.faulted (x.firing here) e))

namespace Toured

variable {rules : RuleSet} {here : Location} {budget : Nat} {n m o : Node}
variable {ps qs : List Location} {fs gs : List Firing} {halt halt' : Option Halt}

/-- One loop after the other. -/
theorem append (h : Toured rules here budget n ps m fs none)
    (h' : Toured rules here (budget - fs.length) m qs o gs halt) :
    Toured rules here budget n (ps ++ qs) o (fs ++ gs) halt := by
  generalize hfinished : (none : Option Halt) = halt' at h
  induction h with
  | nil => exact h'
  | pass found clear _ ih => exact .pass found clear (ih h' hfinished)
  | fire redex done _ ih =>
    rw [List.length_cons, Nat.add_sub_add_right] at h'
    exact .fire redex done (ih h' hfinished)
  | exhausted => cases hfinished
  | faulted => cases hfinished

/-- A loop that has ended early does not come to further locations. -/
theorem append_of_halt {why : Halt} (h : Toured rules here budget n ps m fs (some why))
    (qs : List Location) : Toured rules here budget n (ps ++ qs) m fs (some why) := by
  generalize hended : some why = halt' at h
  induction h with
  | nil => cases hended
  | pass found clear _ ih => exact .pass found clear (ih hended)
  | fire redex done _ ih => exact .fire redex done (ih hended)
  | exhausted ps redex => exact .exhausted (ps ++ qs) redex
  | faulted ps redex fault => exact .faulted (ps ++ qs) redex fault

/-- A loop in an operand is one over the locations that lead into the operand. -/
theorem inOperand {c d : Node} {pre post : List Node} (hn : (pre ++ c :: post).length = n.arity)
    (h : Toured rules (here.child pre.length) budget c ps d fs halt) :
    Toured rules here budget (n.withChildren (pre ++ c :: post)) (ps.map (pre.length :: ·))
      (n.withChildren (pre ++ d :: post)) fs halt := by
  induction h with
  | nil budget c => exact .nil budget _
  | pass found clear _ ih =>
    refine .pass ((Node.at?_withChildren_append hn _).trans found) ?_ (ih hn)
    rw [RuleSet.redexAt?_operand hn, clear, Option.map_none]
  | @fire budget c d p ps fs halt x redex done _ ih =>
    have hrest := ih (by simpa using hn)
    rw [← x.contract_below hn] at hrest
    rw [← x.firing_below]
    exact .fire (RuleSet.redexAt?_below hn redex) done hrest
  | exhausted ps redex => exact .exhausted _ (RuleSet.redexAt?_below hn redex)
  | @faulted budget c p x e ps redex fault =>
    rw [← x.contract_below hn, ← x.firing_below]
    exact .faulted _ (RuleSet.redexAt?_below hn redex) fault

/-- The loop comes to what the relation says. -/
theorem tour_eq (h : Toured rules [] budget n ps m fs halt) :
    tour rules budget n ps = some ⟨m, fs, halt⟩ := by
  induction h with
  | nil => rfl
  | pass found clear _ ih => simp only [tour, found, clear, ih]
  | fire redex done _ ih =>
    have found := (RuleSet.applies_of_redexAt? redex).1
    simp only [tour, found, redex, done, ih]
    rfl
  | exhausted ps redex =>
    have found := (RuleSet.applies_of_redexAt? redex).1
    simp only [tour, found, redex]
  | faulted ps redex fault =>
    have found := (RuleSet.applies_of_redexAt? redex).1
    simp only [tour, found, redex, fault]

/-- What is rewritten, is rewritten at listed locations, in their order. -/
theorem locations_sublist (h : Toured rules here budget n ps m fs halt) :
    (fs.map (·.location)).Sublist (ps.map (here ++ ·)) := by
  induction h with
  | nil => exact .slnil
  | pass _ _ _ ih => exact .cons _ ih
  | fire redex _ _ ih =>
    obtain ⟨rfl, -⟩ := RuleSet.redexAt?_eq_some_iff.mp redex
    exact .cons_cons _ ih
  | exhausted ps => exact List.nil_sublist _
  | faulted ps => exact List.nil_sublist _

/-- After the operands of a node the loop over its locations comes to the node itself. -/
theorem thenRoot (h : Toured rules here budget n (Node.locationsFrom 0 n.children) m fs none)
    (h' : Toured rules here (budget - fs.length) m [[]] o gs halt) :
    Toured rules here budget n n.locations o (fs ++ gs) halt := by
  rw [Node.locations_eq]
  exact h.append h'

end Toured

/-! ### Sweeps -/

/-- The sweep of the operands of a node behind those already swept is the loop over the
locations that lead into them. -/
structure OperandsToured (rules : RuleSet) (here : Location) (budget : Nat) (n : Node)
    (pre xs : List Node) (s : Sweep (List Node) budget) : Prop where
  length : s.result.length = xs.length
  toured : Toured rules here budget (n.withChildren (pre ++ xs))
    (Node.locationsFrom pre.length xs) (n.withChildren (pre ++ s.result)) s.firings s.halt

/-- What a sweep of a node has to do with the loop. -/
def SweptAsToured (rules : RuleSet) (strategy : Strategy) (budget : Nat) (here : Location)
    (n : Node) : Prop :=
  let s := sweep strategy rules budget here n
  strategy = .singlePass → Toured rules here budget n n.locations s.result s.firings s.halt

/-- What a sweep of operands has to do with the loop, whatever the node and the operands
already swept. -/
def OperandsSweptAsToured (rules : RuleSet) (strategy : Strategy) (budget : Nat)
    (here : Location) (index : Nat) (xs : List Node) : Prop :=
  strategy = .singlePass → ∀ (n : Node) (pre : List Node), (pre ++ xs).length = n.arity →
    pre.length = index →
      OperandsToured rules here budget n pre xs (sweepList strategy rules budget here index xs)

/-- The sweep of all operands of a node. -/
theorem OperandsSweptAsToured.all {rules : RuleSet} {budget : Nat} {here : Location} {n : Node}
    {below : Sweep (List Node) budget} {halt : Option Halt}
    (h : OperandsSweptAsToured rules .singlePass budget here 0 n.children)
    (hbelow : sweepList .singlePass rules budget here 0 n.children = below)
    (hhalt : below.halt = halt) :
    Toured rules here budget n (Node.locationsFrom 0 n.children) (n.withChildren below.result)
      below.firings halt := by
  have htoured := (h rfl n [] rfl rfl).toured
  rwa [hbelow, hhalt, List.nil_append, Node.withChildren_children, List.nil_append,
    List.length_nil] at htoured

/-- The operand in front, and the operands behind it. -/
theorem OperandsToured.cons {rules : RuleSet} {here : Location} {budget : Nat} {n x : Node}
    {pre xs : List Node} {first : Sweep Node budget} {rest : Sweep (List Node) first.left}
    (hn : (pre ++ x :: xs).length = n.arity)
    (hfirst : Toured rules (here.child pre.length) budget x x.locations first.result
      first.firings none)
    (hrest : OperandsToured rules here first.left n (pre ++ [first.result]) xs rest) :
    OperandsToured rules here budget n pre (x :: xs)
      ((first.andThen rest).withResult (first.result :: rest.result)) := by
  obtain ⟨hlength, htoured⟩ := hrest
  simp only [List.append_assoc, List.singleton_append, List.length_append,
    List.length_singleton] at htoured
  refine ⟨congrArg (· + 1) hlength, ?_⟩
  rw [Node.locationsFrom]
  exact (hfirst.inOperand hn).append htoured

/-- A sweep in a single pass is the loop over the locations of the tree. -/
theorem sweep_toured (rules : RuleSet) (budget : Nat) (here : Location) (n : Node) :
    let s := sweep .singlePass rules budget here n
    Toured rules here budget n n.locations s.result s.firings s.halt := by
  suffices h : SweptAsToured rules .singlePass budget here n from h rfl
  -- by induction along the calls of a sweep, which are made under either strategy
  refine sweep.induct rules (SweptAsToured rules) (OperandsSweptAsToured rules) ?halted ?clear
    ?faulted ?once ?fired ?spent ?nil ?first ?rest .singlePass budget here n
  case halted =>
    rintro _ budget here n below halt hhalt ih rfl
    have htoured := ih.all rfl hhalt
    rw [sweep_of_halt rfl hhalt, Node.locations_eq]
    exact hhalt.symm ▸ htoured.append_of_halt [[]]
  case clear =>
    rintro _ budget here n below m hhalt hmatch ih rfl
    have htoured := ih.all rfl hhalt
    have hroot : rules.redexAt? m [] = none := by rw [RuleSet.redexAt?_nil, hmatch, Option.map_none]
    have hall := htoured.thenRoot (.pass rfl hroot (.nil _ _))
    rw [List.append_nil] at hall
    rw [sweep_of_no_match rfl hhalt rfl hmatch]
    exact hhalt.symm ▸ hall
  case faulted =>
    rintro _ budget here n below m hhalt r b hmatch hleft out e hfault ih rfl
    have htoured := ih.all rfl hhalt
    obtain ⟨k, hk⟩ := Nat.exists_eq_add_one_of_ne_zero (Nat.sub_ne_zero_of_lt hleft)
    have hroot : Toured rules here (k + 1) m [[]] _ _ _ :=
      .faulted [] (RuleSet.redexAt?_root hmatch) hfault
    rw [← hk, Redex.firing_whole, Redex.contract_whole] at hroot
    have hall := htoured.thenRoot hroot
    rw [List.append_nil] at hall
    rw [sweep_of_fault rfl hhalt rfl hmatch hleft hfault]
    exact hall
  case once =>
    rintro budget here n r b below m hhalt hmatch hleft out hdone ih -
    have htoured := ih.all rfl hhalt
    obtain ⟨k, hk⟩ := Nat.exists_eq_add_one_of_ne_zero (Nat.sub_ne_zero_of_lt hleft)
    have hroot : Toured rules here (k + 1) m [[]] _ _ _ :=
      .fire (RuleSet.redexAt?_root hmatch) hdone (.nil k _)
    rw [← hk, Redex.firing_whole, Redex.contract_whole] at hroot
    rw [sweep_singlePass_of_fired rfl hhalt rfl hmatch hleft hdone]
    exact htoured.thenRoot hroot
  case fired =>
    -- a single pass is not under the fixpoint strategy
    rintro budget here n r b below m hhalt hmatch hleft out firing hdone fired ih ih' ⟨⟩
  case spent =>
    rintro _ budget here n below m hhalt r b hmatch hspent ih rfl
    have htoured := ih.all rfl hhalt
    have hleft : budget - below.firings.length = 0 := by omega
    have hroot : Toured rules here 0 m [[]] _ _ _ := .exhausted [] (RuleSet.redexAt?_root hmatch)
    rw [← hleft] at hroot
    have hall := htoured.thenRoot hroot
    rw [List.append_nil] at hall
    rw [sweep_of_spent rfl hhalt rfl hmatch hspent]
    exact hall
  case nil =>
    rintro _ budget here index rfl n pre - -
    rw [sweepList_nil]
    exact ⟨rfl, .nil _ _⟩
  case first =>
    rintro _ budget here index x xs first halt hhalt ih rfl n pre hn rfl
    have hfirst : Toured rules _ budget x x.locations first.result first.firings first.halt :=
      ih rfl
    rw [hhalt] at hfirst
    rw [sweepList_of_halt rfl hhalt]
    refine ⟨rfl, ?_⟩
    rw [Node.locationsFrom]
    exact hhalt.symm ▸ (hfirst.inOperand hn).append_of_halt _
  case rest =>
    rintro _ budget here index x xs first hhalt ih ih' rfl n pre hn rfl
    have hfirst : Toured rules _ budget x x.locations first.result first.firings first.halt :=
      ih rfl
    rw [hhalt] at hfirst
    have hrest := ih' rfl n (pre ++ [first.result]) (by simpa using hn) (by simp)
    rw [sweepList_of_finished rfl hhalt rfl]
    exact .cons hn hfirst hrest

/-! ### Sessions -/

namespace Session

/-- A single pass is the loop over the locations of the tree. -/
theorem passesFrom_singlePass (rules : RuleSet) (budget : Nat) (n : Node) :
    ∃ t : Tour, Toured rules [] budget n n.locations t.after t.firings t.halt ∧
      passesFrom .singlePass rules budget n = t.session n := by
  have htoured := sweep_toured rules budget [] n
  rcases hs : sweep .singlePass rules budget [] n with ⟨m, fs, halt, within⟩
  rw [hs] at htoured
  refine ⟨⟨m, fs, halt⟩, htoured, ?_⟩
  rcases halt with - | - | ⟨attempt, e⟩
  · by_cases hidle : fs = []
    · rw [passesFrom_of_unchanged hs rfl fun hleft => Sweep.left_lt_iff.mp hleft hidle]
      simp [last, Tour.session, Tour.ending, hidle]
    · have hchanged : (Sweep.mk m fs none within).left < budget := Sweep.left_lt_iff.mpr hidle
      rw [passesFrom_singlePass_of_changed hs rfl hchanged]
      simp [last, Tour.session, Tour.ending, hidle]
  · rw [passesFrom_of_exhausted hs rfl]
    rfl
  · rw [passesFrom_of_fault hs rfl]
    rfl

/-- A session in a single pass is what the loop comes to. -/
theorem run_singlePass_of_toured {rules : RuleSet} {limit : Nat} {n m : Node} {fs : List Firing}
    {halt : Option Halt} (h : Toured rules [] limit n n.locations m fs halt) :
    run ⟨limit, .singlePass⟩ rules n = (Tour.mk m fs halt).session n := by
  obtain ⟨t, htoured, hs⟩ := passesFrom_singlePass rules limit n
  obtain rfl : t = ⟨m, fs, halt⟩ := Option.some.inj (htoured.tour_eq.symm.trans h.tour_eq)
  exact hs

/-- **A session in a single pass is one loop over the locations of the tree it starts from.**
Listed beforehand, each of them is still in the tree when its turn comes; the session makes
the rewrites of the loop in their order, in one pass, and ends with its tree and as it ends,
be it a stop or a fault.  So the rewritten locations are some of those of the tree at the
start, in their order, and there are no more rewrites than the tree had nodes. -/
theorem run_singlePass_eq_tour (rules : RuleSet) (limit : Nat) (n : Node) :
    let s := run ⟨limit, .singlePass⟩ rules n
    ∃ t, tour rules limit n n.locations = some t ∧
      s.firings = t.firings ∧ s.after = t.after ∧ s.ending = t.ending ∧
      (s.firings.map (·.location)).Sublist n.locations ∧ s.rewrites ≤ s.sizeBefore ∧
      s.passes.length = 1 := by
  intro s
  obtain ⟨t, htoured, hs⟩ := passesFrom_singlePass rules limit n
  have hs : s = ⟨n, t.after, [t.firings], t.ending⟩ := hs
  have hfirings : s.firings = t.firings := by simp [hs, firings]
  have hlocations : (s.firings.map (·.location)).Sublist n.locations := by
    have hsublist := htoured.locations_sublist
    simpa [hfirings] using hsublist
  refine ⟨t, htoured.tour_eq, hfirings, by rw [hs], by rw [hs], hlocations, ?_, by rw [hs]; rfl⟩
  calc s.rewrites = (s.firings.map (·.location)).length := (List.length_map _).symm
    _ ≤ n.locations.length := hlocations.length_le
    _ = n.size := n.length_locations
    _ = s.sizeBefore := by rw [sizeBefore, hs, Node.cost_unitWeight]

end Session

end TreeRewriting
