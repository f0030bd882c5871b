/-
TreeRewriting/Proofs/Session/Trail.lean

What every session does, whatever the strategy.

Design.  A trail is a number of rewrites one after the other, each at a redex of
the tree that the one before has left, wherever in the tree that is.  It knows
less than a chain of the loop that starts over, but a sweep leaves one under
either strategy (`sweep_swept`), and so does a session (`passesFrom_account`).
So whatever every rewrite at every location keeps, a session keeps
(`Trail.invariant`).

What is added is how the trail ends.  A sweep that has rewritten nothing has
looked everywhere and found nothing; one that has used up its budget or met a
fault leaves a redex behind.
-/
import TreeRewriting.Proofs.Session.Restart

namespace TreeRewriting

/-! ### Trees without a redex -/

namespace RuleSet

variable {rules : RuleSet} {n : Node} {p : Location} {x : Redex}

theorem redexAt?_eq_some_iff :
    rules.redexAt? n p = some x ↔
      x.location = p ∧ n.at? p = some x.subtree ∧
        rules.firstMatch? x.subtree = some (x.rule, x.binding) := by
  obtain ⟨location, subtree, rule, binding⟩ := x
  simp only [redexAt?, Option.bind_eq_some_iff, Option.map_eq_some_iff, Redex.mk.injEq]
  constructor
  · rintro ⟨m, hm, e, he, rfl, rfl, rfl, rfl⟩
    exact ⟨rfl, hm, he⟩
  · rintro ⟨rfl, hm, he⟩
    exact ⟨subtree, hm, (rule, binding), he, rfl, rfl, rfl, rfl⟩

theorem firstRedex?_eq_none_iff :
    rules.firstRedex? n = none ↔ ∀ p, rules.redexAt? n p = none := by
  rw [firstRedex?, List.findSome?_eq_none_iff]
  constructor
  · intro h p
    rcases hm : n.at? p with - | m
    · simp [redexAt?, hm]
    · exact h p (Node.mem_locations_iff.mpr ⟨m, hm⟩)
  · intro h p _
    exact h p

theorem firstMatch?_eq_none_iff :
    rules.firstMatch? n = none ↔ ∀ r ∈ rules.rules, r.applies n = false := by
  simp [firstMatch?, Rule.applies]

/-- There is no redex when no rule applies anywhere. -/
theorem firstRedex?_eq_none_iff_applies :
    rules.firstRedex? n = none ↔
      ∀ p m, n.at? p = some m → ∀ r ∈ rules.rules, r.applies m = false := by
  simp only [firstRedex?_eq_none_iff, redexAt?, Option.bind_eq_none_iff, Option.map_eq_none_iff,
    firstMatch?_eq_none_iff]

/-- At a redex its rule applies. -/
theorem applies_of_redexAt? (h : rules.redexAt? n p = some x) :
    n.at? p = some x.subtree ∧ x.rule ∈ rules.rules ∧ x.rule.find? x.subtree = some x.binding := by
  obtain ⟨-, hm, he⟩ := redexAt?_eq_some_iff.mp h
  obtain ⟨r, hr, he⟩ := List.exists_of_findSome?_eq_some he
  obtain ⟨b, hb, he⟩ := Option.map_eq_some_iff.mp he
  obtain ⟨rfl, rfl⟩ := Prod.mk.inj he
  exact ⟨hm, hr, hb⟩

theorem redexAt?_root {r : Rule} {b : Binding} (h : rules.firstMatch? n = some (r, b)) :
    rules.redexAt? n [] = some (.whole n (r, b)) := by
  rw [redexAt?_nil, h]
  rfl

/-- At the locations in an operand there are the redexes of the operand. -/
theorem redexAt?_operand {c : Node} {pre post : List Node}
    (hn : (pre ++ c :: post).length = n.arity) (p : Location) :
    rules.redexAt? (n.withChildren (pre ++ c :: post)) (pre.length :: p)
      = (rules.redexAt? c p).map (·.below pre.length) := by
  have hc : (n.withChildren (pre ++ c :: post)).children[pre.length]? = some c := by
    simp [Node.children_withChildren hn]
  exact redexAt?_cons hc p

/-- A redex of an operand is one of the whole tree. -/
theorem redexAt?_below {c : Node} {pre post : List Node}
    (hn : (pre ++ c :: post).length = n.arity) (h : rules.redexAt? c p = some x) :
    rules.redexAt? (n.withChildren (pre ++ c :: post)) (pre.length :: p)
      = some (x.below pre.length) := by
  rw [redexAt?_operand hn, h, Option.map_some]

end RuleSet

/-! ### Trails -/

/-- Rewrites one after the other, of a tree that hangs at a location. -/
inductive Trail (rules : RuleSet) (here : Location) : Node → List Firing → Node → Prop
  | nil (n : Node) : Trail rules here n [] n
  | cons {n m : Node} {fs : List Firing} {x : Redex} {p : Location}
      (redex : rules.redexAt? n p = some x) (done : x.outcome.fault = none)
      (rest : Trail rules here (x.contract n) fs m) : Trail rules here n (x.firing here :: fs) m

namespace Trail

variable {rules : RuleSet} {here : Location}

theorem append {n m o : Node} {fs gs : List Firing} (h : Trail rules here n fs m)
    (h' : Trail rules here m gs o) : Trail rules here n (fs ++ gs) o := by
  induction h with
  | nil => exact h'
  | cons redex done _ ih => exact .cons redex done (ih h')

/-- Rewrites in an operand are rewrites of the whole tree. -/
theorem inOperand {n c d : Node} {pre post : List Node} {fs : List Firing}
    (hn : (pre ++ c :: post).length = n.arity)
    (h : Trail rules (here.child pre.length) c fs d) :
    Trail rules here (n.withChildren (pre ++ c :: post)) fs
      (n.withChildren (pre ++ d :: post)) := by
  induction h with
  | nil => exact .nil _
  | @cons c d fs x p redex done _ ih =>
    have hredex := RuleSet.redexAt?_below hn redex
    have hrest := ih (by simpa using hn)
    rw [← x.contract_below hn] at hrest
    rw [← x.firing_below]
    exact .cons hredex done hrest

/-- A rewrite of the whole tree. -/
theorem root (here : Location) {n : Node} {r : Rule} {b : Binding}
    (h : rules.firstMatch? n = some (r, b)) (done : (r.rewrite n b).fault = none) :
    Trail rules here n [⟨r.name, here, n, (r.rewrite n b).journal⟩] (r.rewrite n b).tree := by
  have hcons : Trail rules here n _ _ := .cons (RuleSet.redexAt?_root h) done (.nil _)
  rw [Redex.firing_whole, Redex.contract_whole] at hcons
  exact hcons

/-- What every rewrite keeps, a trail keeps. -/
theorem invariant {P : Node → Prop}
    (hP : ∀ n p x, rules.redexAt? n p = some x → x.outcome.fault = none → P n → P (x.contract n))
    {n m : Node} {fs : List Firing} (h : Trail rules here n fs m) (hn : P n) : P m := by
  induction h with
  | nil => exact hn
  | cons redex done _ ih => exact ih (hP _ _ _ redex done hn)

/-- What every rewrite lowers bounds their number. -/
theorem length_add_le {μ : Node → Nat}
    (hμ : ∀ n p x, rules.redexAt? n p = some x → x.outcome.fault = none → μ (x.contract n) < μ n)
    {n m : Node} {fs : List Firing} (h : Trail rules here n fs m) : fs.length + μ m ≤ μ n := by
  induction h with
  | nil n => exact Nat.le_of_eq (Nat.zero_add (μ n))
  | cons redex done _ ih =>
    have hlt := hμ _ _ _ redex done
    rw [List.length_cons]
    omega

/-- A tree without a redex is not rewritten. -/
theorem eq_of_clear {n m : Node} {fs : List Firing} (h : Trail rules here n fs m)
    (hn : rules.firstRedex? n = none) : fs = [] ∧ m = n := by
  cases h with
  | nil => exact ⟨rfl, rfl⟩
  | cons redex =>
    rw [RuleSet.firstRedex?_eq_none_iff.mp hn] at redex
    cases redex

end Trail

/-! ### Sweeps -/

/-- A sweep of a tree at a location leaves a trail.  If it runs to its end without a
rewrite there was no redex; if it ends early there is one, beyond the budget or with an
action that ends in a fault. -/
inductive Swept (rules : RuleSet) (here : Location) (budget : Nat) (n : Node) :
    Node → List Firing → Option Halt → Prop
  | finished {m : Node} {fs : List Firing} (trail : Trail rules here n fs m)
      (idle : fs = [] → rules.firstRedex? m = none) : Swept rules here budget n m fs none
  | exhausted {m : Node} {fs : List Firing} {x : Redex} {p : Location}
      (trail : Trail rules here n fs m) (spent : fs.length = budget)
      (redex : rules.redexAt? m p = some x) : Swept rules here budget n m fs (some .exhausted)
  | faulted {m : Node} {fs : List Firing} {x : Redex} {p : Location} {e : Fault}
      (trail : Trail rules here n fs m) (redex : rules.redexAt? m p = some x)
      (fault : x.outcome.fault = some e) :
      Swept rules here budget n (x.contract m) fs (some (.faulted (x.firing here) e))

namespace Swept

variable {rules : RuleSet} {here : Location} {budget : Nat}

theorem trail_and_idle {n m : Node} {fs : List Firing}
    (h : Swept rules here budget n m fs none) :
    Trail rules here n fs m ∧ (fs = [] → rules.firstRedex? m = none) := by
  cases h with
  | finished trail idle => exact ⟨trail, idle⟩

/-- Rewrites that come before count for the budget. -/
theorem after {n m o : Node} {fs gs : List Firing} {halt : Option Halt}
    (h : Trail rules here n fs m) (hb : fs.length ≤ budget)
    (h' : Swept rules here (budget - fs.length) m o gs halt) :
    Swept rules here budget n o (fs ++ gs) halt := by
  cases h' with
  | finished trail idle =>
    exact .finished (h.append trail) fun he => idle (List.append_eq_nil_iff.mp he).2
  | exhausted trail spent redex =>
    exact .exhausted (h.append trail) (by rw [List.length_append]; omega) redex
  | faulted trail redex fault => exact .faulted (h.append trail) redex fault

/-- A sweep that ends early in an operand ends early in the whole tree. -/
theorem inOperand {n c d : Node} {pre post : List Node} {fs : List Firing} {halt : Halt}
    (hn : (pre ++ c :: post).length = n.arity)
    (h : Swept rules (here.child pre.length) budget c d fs (some halt)) :
    Swept rules here budget (n.withChildren (pre ++ c :: post))
      (n.withChildren (pre ++ d :: post)) fs (some halt) := by
  cases h with
  | exhausted trail spent redex =>
    have hd : (pre ++ d :: post).length = n.arity := by simpa using hn
    exact .exhausted (trail.inOperand hn) spent (RuleSet.redexAt?_below hd redex)
  | @faulted m _ x p e trail redex fault =>
    have hm : (pre ++ m :: post).length = n.arity := by simpa using hn
    rw [← x.contract_below hm, ← x.firing_below]
    exact .faulted (trail.inOperand hn) (RuleSet.redexAt?_below hm redex) fault

end Swept

/-- What the sweep of the operands of a node behind those already swept comes to, in terms
of the whole node. -/
structure OperandsSwept (rules : RuleSet) (here : Location) (budget : Nat) (n : Node)
    (pre xs : List Node) (s : Sweep (List Node) budget) : Prop where
  length : s.result.length = xs.length
  finished : s.halt = none →
    Trail rules here (n.withChildren (pre ++ xs)) s.firings (n.withChildren (pre ++ s.result)) ∧
      (s.firings = [] → ∀ x ∈ s.result, rules.firstRedex? x = none)
  stopped : ∀ h, s.halt = some h →
    Swept rules here budget (n.withChildren (pre ++ xs)) (n.withChildren (pre ++ s.result))
      s.firings (some h)

namespace OperandsSwept

variable {rules : RuleSet} {here : Location} {budget : Nat} {n : Node}

/-- When the sweep of all operands has run to its end, it has led to the node with the swept
operands; if it has rewritten nothing, the node itself decides whether there is a redex. -/
theorem finished_all {m : Node} {below : Sweep (List Node) budget}
    (h : OperandsSwept rules here budget n [] n.children below) (hhalt : below.halt = none)
    (hm : n.withChildren below.result = m) :
    Trail rules here n below.firings m ∧
      (below.firings = [] → rules.firstMatch? m = none → rules.firstRedex? m = none) := by
  obtain ⟨htrail, hclear⟩ := h.finished hhalt
  rw [List.nil_append, Node.withChildren_children, List.nil_append, hm] at htrail
  refine ⟨htrail, fun hidle hmatch => ?_⟩
  rw [RuleSet.firstRedex?_of_operands_clear, hmatch]
  · rfl
  · intro c hc
    rw [← hm, Node.children_withChildren h.length] at hc
    exact hclear hidle c hc

/-- The operand in front, and the operands behind it. -/
theorem cons {x : Node} {pre xs : List Node} {first : Sweep Node budget}
    {rest : Sweep (List Node) first.left} (hn : (pre ++ x :: xs).length = n.arity)
    (hfirst : Swept rules (here.child pre.length) budget x first.result first.firings none)
    (hrest : OperandsSwept rules here first.left n (pre ++ [first.result]) xs rest) :
    OperandsSwept rules here budget n pre (x :: xs)
      ((first.andThen rest).withResult (first.result :: rest.result)) := by
  obtain ⟨hlen, hfinished, hstopped⟩ := hrest
  simp only [List.append_assoc, List.singleton_append] at hfinished hstopped
  obtain ⟨htrail, hidle⟩ := hfirst.trail_and_idle
  have htrail' := htrail.inOperand hn
  refine ⟨congrArg (· + 1) hlen, ?_, ?_⟩
  · intro h
    obtain ⟨hrest, hclear⟩ := hfinished h
    refine ⟨htrail'.append hrest, ?_⟩
    intro he y hy
    obtain ⟨he, he'⟩ := List.append_eq_nil_iff.mp he
    rcases List.mem_cons.mp hy with rfl | hy
    · exact hidle he
    · exact hclear he' y hy
  · intro h hh
    exact (hstopped h hh).after htrail' first.within

end OperandsSwept

/-- A sweep under either strategy leaves a trail. -/
theorem sweep_swept (strategy : Strategy) (rules : RuleSet) (budget : Nat) (here : Location)
    (n : Node) :
    let s := sweep strategy rules budget here n
    Swept rules here budget n s.result s.firings s.halt := by
  -- by induction along the calls of a sweep; of operands, whatever the node they belong to
  refine sweep.induct rules
    (fun strategy budget here n =>
      Swept rules here budget n (sweep strategy rules budget here n).result
        (sweep strategy rules budget here n).firings (sweep strategy rules budget here n).halt)
    (fun strategy budget here index xs =>
      ∀ (n : Node) (pre : List Node), (pre ++ xs).length = n.arity → pre.length = index →
        OperandsSwept rules here budget n pre xs (sweepList strategy rules budget here index xs))
    ?halted ?clear ?faulted ?once ?fired ?spent ?nil ?first ?rest strategy budget here n
  case halted =>
    intro strategy budget here n below halt hhalt ih
    have hp := (ih n [] rfl rfl).stopped halt hhalt
    rw [List.nil_append, Node.withChildren_children] at hp
    rw [sweep_of_halt rfl hhalt]
    exact hhalt.symm ▸ hp
  case clear =>
    intro strategy budget here n below m hhalt hmatch ih
    obtain ⟨htrail, hidle⟩ := (ih n [] rfl rfl).finished_all hhalt rfl
    rw [sweep_of_no_match rfl hhalt rfl hmatch]
    have hp : Swept rules here budget n m below.firings none :=
      .finished htrail fun he => hidle he hmatch
    exact hhalt.symm ▸ hp
  case faulted =>
    intro strategy budget here n below m hhalt r b hmatch hleft out e hfault ih
    obtain ⟨htrail, -⟩ := (ih n [] rfl rfl).finished_all hhalt rfl
    rw [sweep_of_fault rfl hhalt rfl hmatch hleft hfault]
    have hp : Swept rules here budget n _ _ _ :=
      .faulted htrail (RuleSet.redexAt?_root hmatch) hfault
    rw [Redex.firing_whole] at hp
    exact hp
  case once =>
    intro budget here n r b below m hhalt hmatch hleft out hdone ih
    obtain ⟨htrail, -⟩ := (ih n [] rfl rfl).finished_all hhalt rfl
    rw [sweep_singlePass_of_fired rfl hhalt rfl hmatch hleft hdone]
    have hround := Trail.root here hmatch hdone
    exact .finished (htrail.append hround) (by simp [Sweep.fire])
  case fired =>
    intro budget here n r b below m hhalt hmatch hleft out firing hdone fired ih ih'
    obtain ⟨htrail, -⟩ := (ih n [] rfl rfl).finished_all hhalt rfl
    rw [sweep_fixpoint_of_fired rfl hhalt rfl hmatch hleft hdone rfl]
    have hround := Trail.root here hmatch hdone
    exact ih'.after (htrail.append hround) fired.within
  case spent =>
    intro strategy budget here n below m hhalt r b hmatch hspent ih
    obtain ⟨htrail, -⟩ := (ih n [] rfl rfl).finished_all hhalt rfl
    rw [sweep_of_spent rfl hhalt rfl hmatch hspent]
    exact .exhausted htrail (Nat.le_antisymm below.within (Nat.le_of_not_lt hspent))
      (RuleSet.redexAt?_root hmatch)
  case nil =>
    intro strategy budget here index n pre hn hindex
    rw [sweepList_nil]
    exact ⟨rfl, fun _ => ⟨.nil _, by simp⟩, by simp⟩
  case first =>
    intro strategy budget here index x xs first halt hhalt ih n pre hn hindex
    subst hindex
    rw [sweepList_of_halt rfl hhalt]
    refine ⟨rfl, ?_, ?_⟩
    · intro h
      exact absurd (hhalt.symm.trans h) (by simp)
    · intro h hh
      have hp : Swept rules _ budget x first.result first.firings first.halt := ih
      rw [show first.halt = some h from hh] at hp
      exact hp.inOperand hn
  case rest =>
    intro strategy budget here index x xs first hhalt ih ih' n pre hn hindex
    subst hindex
    have hp : Swept rules _ budget x first.result first.firings first.halt := ih
    rw [hhalt] at hp
    have hrest := ih' n (pre ++ [first.result]) (by simpa using hn) (by simp)
    rw [sweepList_of_finished rfl hhalt rfl]
    exact .cons hn hp hrest

/-- In a tree without a redex a sweep does nothing. -/
theorem sweep_of_clear {rules : RuleSet} {n : Node} (h : rules.firstRedex? n = none)
    (strategy : Strategy) (budget : Nat) (here : Location) :
    sweep strategy rules budget here n = ⟨n, [], none, Nat.zero_le _⟩ := by
  have hp := sweep_swept strategy rules budget here n
  rcases hs : sweep strategy rules budget here n with ⟨m, fs, halt, within⟩
  rw [hs] at hp
  rcases hp with ⟨trail, -⟩ | ⟨trail, -, redex⟩ | ⟨trail, redex, -⟩
  · obtain ⟨rfl, rfl⟩ := trail.eq_of_clear h
    rfl
  all_goals
    obtain ⟨-, rfl⟩ := trail.eq_of_clear h
    rw [RuleSet.firstRedex?_eq_none_iff.mp h] at redex
    cases redex

/-! ### Sessions -/

namespace Session

/-- How a session with a budget can end: saturated without a redex, after the single pass
that was asked for, at a redex beyond the budget, or at one whose action ends in a fault. -/
inductive Account (strategy : Strategy) (rules : RuleSet) (budget : Nat) (n : Node) :
    Node → List Firing → Ending → Prop
  | saturated {m : Node} {fs : List Firing} (trail : Trail rules [] n fs m)
      (within : fs.length ≤ budget) (clear : rules.firstRedex? m = none) :
      Account strategy rules budget n m fs (.stopped .saturated)
  | singlePass {m : Node} {fs : List Firing} (trail : Trail rules [] n fs m)
      (within : fs.length ≤ budget) (once : strategy = .singlePass) :
      Account strategy rules budget n m fs (.stopped .singlePass)
  | exhausted {m : Node} {fs : List Firing} {x : Redex} {p : Location}
      (trail : Trail rules [] n fs m) (spent : fs.length = budget)
      (redex : rules.redexAt? m p = some x) :
      Account strategy rules budget n m fs (.stopped .iterationLimit)
  | faulted {m : Node} {fs : List Firing} {x : Redex} {p : Location} {e : Fault}
      (trail : Trail rules [] n fs m) (redex : rules.redexAt? m p = some x)
      (fault : x.outcome.fault = some e) :
      Account strategy rules budget n (x.contract m) fs (.faulted (x.firing []) e)

variable {strategy : Strategy} {rules : RuleSet}

/-- Rewrites of an earlier pass count for the budget. -/
theorem Account.after {budget : Nat} {n m o : Node} {fs gs : List Firing} {ending : Ending}
    (h : Trail rules [] n fs m) (hb : fs.length ≤ budget)
    (h' : Account strategy rules (budget - fs.length) m o gs ending) :
    Account strategy rules budget n o (fs ++ gs) ending := by
  cases h' with
  | saturated trail within clear =>
    exact .saturated (h.append trail) (by rw [List.length_append]; omega) clear
  | singlePass trail within once =>
    exact .singlePass (h.append trail) (by rw [List.length_append]; omega) once
  | exhausted trail spent redex =>
    exact .exhausted (h.append trail) (by rw [List.length_append]; omega) redex
  | faulted trail redex fault => exact .faulted (h.append trail) redex fault

/-- What the account of a session that stopped by itself says, reason by reason. -/
theorem Account.of_stopped {budget : Nat} {n m : Node} {fs : List Firing} {reason : StopReason}
    (h : Account strategy rules budget n m fs (.stopped reason)) :
    fs.length ≤ budget ∧ (reason = .saturated → rules.firstRedex? m = none) ∧
      (reason = .iterationLimit →
        fs.length = budget ∧ ∃ p x, rules.redexAt? m p = some x) := by
  cases h with
  | saturated _ within clear => exact ⟨within, fun _ => clear, by rintro ⟨⟩⟩
  | singlePass _ within _ => exact ⟨within, by rintro ⟨⟩, by rintro ⟨⟩⟩
  | exhausted _ spent redex =>
    exact ⟨Nat.le_of_eq spent, by rintro ⟨⟩, fun _ => ⟨spent, _, _, redex⟩⟩

/-- Under the fixpoint strategy a session that stops by itself is saturated or at its limit. -/
theorem Account.saturated_of_stopped {budget : Nat} {n m : Node} {fs : List Firing}
    {reason : StopReason} (h : Account .fixpoint rules budget n m fs (.stopped reason))
    (hreason : reason ≠ .iterationLimit) : reason = .saturated := by
  cases h with
  | saturated => rfl
  | singlePass _ _ once => cases once
  | exhausted => exact absurd rfl hreason

/-- A session that faults does so at a redex. -/
theorem Account.of_faulted {budget : Nat} {n m : Node} {fs : List Firing} {attempt : Firing}
    {e : Fault} (h : Account strategy rules budget n m fs (.faulted attempt e)) :
    ∃ o p x, rules.redexAt? o p = some x ∧ x.outcome.fault = some e := by
  cases h with
  | faulted _ redex fault => exact ⟨_, _, _, redex, fault⟩

/-- The rewrites of a session are a trail, however it ends. -/
theorem Account.exists_trail {budget : Nat} {n m : Node} {fs : List Firing} {ending : Ending}
    (h : Account strategy rules budget n m fs ending) : ∃ o, Trail rules [] n fs o := by
  cases h with
  | saturated trail => exact ⟨_, trail⟩
  | singlePass trail => exact ⟨_, trail⟩
  | exhausted trail => exact ⟨_, trail⟩
  | faulted trail => exact ⟨_, trail⟩

/-- What every rewrite lowers bounds the number of rewrites of a session. -/
theorem Account.length_le_of_measure {budget : Nat} {n m : Node} {fs : List Firing}
    {ending : Ending} (h : Account strategy rules budget n m fs ending) {μ : Node → Nat}
    (hμ : ∀ n p x, rules.redexAt? n p = some x → μ (x.contract n) < μ n) : fs.length ≤ μ n := by
  obtain ⟨o, trail⟩ := h.exists_trail
  have hlength := trail.length_add_le fun n p x hx _ => hμ n p x hx
  omega

/-- A session over rules that never fault leaves a trail to the tree in which it ends. -/
theorem Account.trail_of_done {budget : Nat} {n m : Node} {fs : List Firing} {ending : Ending}
    (h : Account strategy rules budget n m fs ending)
    (hdone : ∀ n p x, rules.redexAt? n p = some x → x.outcome.fault = none) :
    Trail rules [] n fs m := by
  cases h with
  | saturated trail => exact trail
  | singlePass trail => exact trail
  | exhausted trail => exact trail
  | faulted _ redex fault =>
    rw [hdone _ _ _ redex] at fault
    cases fault

/-- A session that rewrites until nothing is left, over rules that lower a measure and never
fault, is saturated within a budget of the measure. -/
theorem Account.saturated_of_measure {budget : Nat} {n m : Node} {fs : List Firing}
    {ending : Ending} (h : Account .fixpoint rules budget n m fs ending) {μ : Node → Nat}
    (hdone : ∀ n p x, rules.redexAt? n p = some x → x.outcome.fault = none)
    (hμ : ∀ n p x, rules.redexAt? n p = some x → μ (x.contract n) < μ n) (hb : μ n ≤ budget) :
    ending = .stopped .saturated := by
  have hμ' := fun n p x (hx : rules.redexAt? n p = some x) (_ : x.outcome.fault = none) =>
    hμ n p x hx
  cases h with
  | saturated => rfl
  | singlePass _ _ once => cases once
  | @exhausted m fs x p trail spent redex =>
    -- the budget is used up, so nothing is left of the measure that this redex could lower
    have hlength := trail.length_add_le hμ'
    have hlt := hμ _ _ _ redex
    omega
  | @faulted m fs x p e _ redex fault =>
    rw [hdone _ _ _ redex] at fault
    cases fault

/-- A session knows the tree from which it started. -/
theorem before_passesFrom (strategy : Strategy) (rules : RuleSet) (budget : Nat) (n : Node) :
    (passesFrom strategy rules budget n).before = n := by
  rw [passesFrom.eq_def]
  dsimp only
  split
  · rfl
  · rfl
  · split
    · split <;> rfl
    · rfl

/-- A session under either strategy leaves a trail. -/
theorem passesFrom_account (strategy : Strategy) (rules : RuleSet) (budget : Nat) (n : Node) :
    Account strategy rules budget n (passesFrom strategy rules budget n).after
      (passesFrom strategy rules budget n).firings (passesFrom strategy rules budget n).ending := by
  induction budget using Nat.strongRecOn generalizing n with
  | ind budget ih =>
    have hp := sweep_swept strategy rules budget [] n
    rcases hs : sweep strategy rules budget [] n with ⟨m, fs, halt, within⟩
    rw [hs] at hp
    cases hp with
    | exhausted trail spent redex =>
      rw [passesFrom_of_exhausted hs rfl, firings_last]
      exact .exhausted trail spent redex
    | @faulted m _ x p e trail redex fault =>
      rw [passesFrom_of_fault hs rfl, firings_last]
      exact .faulted trail redex fault
    | finished trail idle =>
      by_cases hidle : fs = []
      · rw [passesFrom_of_unchanged hs rfl fun hleft => Sweep.left_lt_iff.mp hleft hidle,
          firings_last]
        exact .saturated trail within (idle hidle)
      · have hleft : (Sweep.mk m fs none within).left < budget := Sweep.left_lt_iff.mpr hidle
        cases strategy with
        | singlePass =>
          rw [passesFrom_singlePass_of_changed hs rfl hleft, firings_last]
          exact .singlePass trail within rfl
        | fixpoint =>
          rw [passesFrom_fixpoint_of_changed hs rfl hleft, firings_cons]
          exact (ih _ hleft m).after trail within

/-- A session that ends saturated leaves a tree without a redex. -/
theorem clear_of_saturated {config : Config} {n : Node}
    (h : (run config rules n).ending = .stopped .saturated) :
    rules.firstRedex? (run config rules n).after = none := by
  have haccount : Account config.strategy rules config.limit n _ _ (run config rules n).ending :=
    passesFrom_account config.strategy rules config.limit n
  rw [h] at haccount
  exact haccount.of_stopped.2.1 rfl

/-- A tree without a redex takes one pass, which does nothing. -/
theorem passesFrom_of_clear {n : Node} (h : rules.firstRedex? n = none) (strategy : Strategy)
    (budget : Nat) : passesFrom strategy rules budget n = ⟨n, n, [[]], .stopped .saturated⟩ := by
  rw [passesFrom_of_unchanged (sweep_of_clear h strategy budget [])]
  · rfl
  · rfl
  · exact Nat.lt_irrefl budget

end Session

end TreeRewriting
