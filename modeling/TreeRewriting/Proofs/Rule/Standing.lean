/-
TreeRewriting/Proofs/Rule/Standing.lean

How positions stand, and what calls fault with.

Design.  How a position stands is read off the history: a change of a position
above detaches it for good, and else its own last change decides.  Which fault
a call ends in is read off how the position of its label stands (`Blames`), as
the location of a position that is not detached is in the tree.

Main result: `faults_exact`.
-/
import TreeRewriting.Proofs.Pattern.Fit
import TreeRewriting.Proofs.Rule.History

namespace TreeRewriting

/-! ### Calls and their labels -/

/-- The label whose position a call reads or takes. -/
def Call.reads? : Call → Option String
  | .rule | .replace _ _ => none
  | .node l | .number l | .bool l | .constant l | .var l | .literal l => some l
  | .childIndex l | .copyOf l | .take l => some l

/-- The label a call is about. -/
def Call.label? : Call → Option String
  | .replace l _ => some l
  | c => c.reads?

theorem Call.label?_of_reads? {c : Call} {l : String} (h : c.reads? = some l) :
    c.label? = some l := by
  cases c <;> first | exact h | cases h

/-- A position strictly above the one at a place has been changed. -/
def History.ChangesAbove (h : History) (p : Pattern) (i : Nat) : Prop :=
  ∃ j c, (j, c) ∈ h ∧ p.Above j i

namespace Scope

variable {s₀ s : Scope} {h : History} {i j : Nat} {c : Call} {l : String} {e : Fault}

/-! ### The faults of a call -/

/-- Why a call faults: its label is unknown, or the position of the label does not stand as
the call needs it, or the node there has another kind, or it is asked of the node of the
match which child it is. -/
inductive Blames (s : Scope) : Call → Fault.Cause → Prop
  | unknown {c : Call} {l : String} : c.label? = some l → s.pattern.indexOf? l = none →
    Blames s c (.unknownLabel l)
  | detached {c : Call} {l : String} {i : Nat} : c.label? = some l →
    s.pattern.indexOf? l = some i → s.standing i = .detached → Blames s c (.detached l)
  | vacated {c : Call} {l : String} {i : Nat} : c.reads? = some l →
    s.pattern.indexOf? l = some i → s.standing i = .vacated → Blames s c (.vacated l)
  | wrongKind {c : Call} {l : String} {i : Nat} (found : Kind) (wanted : String) :
    c.reads? = some l → s.pattern.indexOf? l = some i → s.standing i = .live →
    Blames s c (.wrongKind l found wanted)
  | root {l : String} {i : Nat} : s.pattern.indexOf? l = some i → s.standing i = .live →
    s.location i = [] → Blames s (.childIndex l) (.noNode [])

theorem blames_of_live (hc : c.reads? = some l) (he : s.live l = .error e) :
    ∃ cause, e = s.fault cause ∧ s.Blames c cause := by
  have hlabel := Call.label?_of_reads? hc
  rw [live, index] at he
  rcases hl : s.pattern.indexOf? l with - | i <;> rw [hl] at he
  · obtain rfl := Except.error.inj he
    exact ⟨_, rfl, .unknown hlabel hl⟩
  · dsimp only at he
    rcases hi : s.standing i with - | - | - <;> rw [hi] at he
    · cases he
    · obtain rfl := Except.error.inj he
      exact ⟨_, rfl, .vacated hc hl hi⟩
    · obtain rfl := Except.error.inj he
      exact ⟨_, rfl, .detached hlabel hl hi⟩

theorem blames_of_childIndex (he : s.childIndex l = .error e) :
    ∃ cause, e = s.fault cause ∧ s.Blames (.childIndex l) cause := by
  rw [childIndex] at he
  rcases hi : s.live l with e' | i <;> rw [hi] at he
  · obtain rfl := Except.error.inj he
    exact blames_of_live rfl hi
  · dsimp only at he
    rcases hlast : (s.location i).getLast? with - | k <;> rw [hlast] at he
    · obtain rfl := Except.error.inj he
      obtain ⟨hl, hlive⟩ := live_eq_ok_iff.mp hi
      have hnil := List.getLast?_eq_none_iff.mp hlast
      exact ⟨_, by rw [hnil], .root hl hlive hnil⟩
    · cases he

theorem live_eq_vacated (hl : s.pattern.indexOf? l = some i) (hi : s.standing i = .vacated) :
    s.live l = .error (s.fault (.vacated l)) := by
  simp only [live, index, hl, hi]

theorem live_eq_detached (hl : s.pattern.indexOf? l = some i) (hi : s.standing i = .detached) :
    s.live l = .error (s.fault (.detached l)) := by
  simp only [live, index, hl, hi]

/-- A call that reads or takes faults as the look-up of its label does. -/
theorem answer_of_live (hc : c.reads? = some l) (he : s.live l = .error e) :
    (s.answer c).1 = .error e := by
  cases c with
  | rule => cases hc
  | replace l m => cases hc
  | _ =>
    obtain rfl := Option.some.inj hc
    simp only [answer, number, bool, constant, var, literal, payload, node, childIndex, take, he,
      Except.map]

theorem eq_error_of_map {α : Type} {x : Except Fault α} {f : α → Reply}
    (he : x.map f = .error e) : x = .error e := by
  rcases x with e' | a
  · exact congrArg _ (Except.error.inj he)
  · cases he

namespace Recorded

theorem exists_at?_of_live (hr : Recorded s₀ h s) (hi : s.live l = .ok i) :
    ∃ m, s.tree.at? (s.location i) = some m := by
  obtain ⟨hl, hlive⟩ := live_eq_ok_iff.mp hi
  obtain ⟨m, -, hm⟩ := hr.exists_at? (hr.lt_of_indexOf? hl) (by simp [hlive])
  exact ⟨_, hm⟩

theorem blames_of_node (hr : Recorded s₀ h s) (hc : c.reads? = some l) (he : s.node l = .error e) :
    ∃ cause, e = s.fault cause ∧ s.Blames c cause := by
  rw [node] at he
  rcases hi : s.live l with e' | i <;> rw [hi] at he
  · obtain rfl := Except.error.inj he
    exact blames_of_live hc hi
  · obtain ⟨m, hm⟩ := hr.exists_at?_of_live hi
    simp only [hm, reduceCtorEq] at he

theorem blames_of_payload (hr : Recorded s₀ h s) (hc : c.reads? = some l) {α : Type}
    {wanted : String} {get : Node → Option α} (he : s.payload wanted get l = .error e) :
    ∃ cause, e = s.fault cause ∧ s.Blames c cause := by
  rw [payload] at he
  rcases hm : s.node l with e' | m <;> rw [hm] at he
  · obtain rfl := Except.error.inj he
    exact hr.blames_of_node hc hm
  · dsimp only at he
    rcases hget : get m with - | a <;> rw [hget] at he
    · obtain rfl := Except.error.inj he
      obtain ⟨i, hi, -⟩ := node_eq_ok_iff.mp hm
      obtain ⟨hl, hlive⟩ := live_eq_ok_iff.mp hi
      exact ⟨_, rfl, .wrongKind m.kind wanted hc hl hlive⟩
    · cases he

theorem blames_of_take (hr : Recorded s₀ h s) (he : s.take l = .error e) :
    ∃ cause, e = s.fault cause ∧ s.Blames (.take l) cause := by
  rw [Scope.take] at he
  rcases hi : s.live l with e' | i <;> rw [hi] at he
  · obtain rfl := Except.error.inj he
    exact blames_of_live rfl hi
  · obtain ⟨m, hm⟩ := hr.exists_at?_of_live hi
    simp only [hm, reduceCtorEq] at he

theorem blames_of_replace (hr : Recorded s₀ h s) {m : Node} (he : s.replace l m = .error e) :
    ∃ cause, e = s.fault cause ∧ s.Blames (.replace l m) cause := by
  rw [Scope.replace, index] at he
  rcases hl : s.pattern.indexOf? l with - | i <;> rw [hl] at he
  · obtain rfl := Except.error.inj he
    exact ⟨_, rfl, .unknown rfl hl⟩
  · dsimp only at he
    by_cases hd : s.standing i = .detached
    · rw [if_pos hd] at he
      obtain rfl := Except.error.inj he
      exact ⟨_, rfl, .detached rfl hl hd⟩
    · obtain ⟨old, -, hold⟩ := hr.exists_at? (hr.lt_of_indexOf? hl) hd
      simp only [if_neg hd, hold, reduceCtorEq] at he

/-- Whatever a call faults with, there is a reason for it. -/
theorem blames_of_answer (hr : Recorded s₀ h s) (he : (s.answer c).1 = .error e) :
    ∃ cause, e = s.fault cause ∧ s.Blames c cause := by
  cases c with
  | rule => cases he
  | node l => exact hr.blames_of_node rfl (eq_error_of_map he)
  | number l => exact hr.blames_of_payload rfl (eq_error_of_map he)
  | bool l => exact hr.blames_of_payload rfl (eq_error_of_map he)
  | constant l => exact hr.blames_of_payload rfl (eq_error_of_map he)
  | var l => exact hr.blames_of_payload rfl (eq_error_of_map he)
  | literal l => exact hr.blames_of_payload rfl (eq_error_of_map he)
  | childIndex l => exact blames_of_childIndex (eq_error_of_map he)
  | copyOf l => exact hr.blames_of_node rfl (eq_error_of_map he)
  | take l =>
    rw [Scope.answer] at he
    rcases ht : s.take l with e' | ⟨m, s'⟩ <;> rw [ht] at he
    · obtain rfl := Except.error.inj he
      exact hr.blames_of_take ht
    · cases he
  | replace l m =>
    rw [Scope.answer] at he
    rcases ht : s.replace l m with e' | s' <;> rw [ht] at he
    · obtain rfl := Except.error.inj he
      exact hr.blames_of_replace ht
    · cases he

theorem blames (hr : Recorded s₀ h s) {cause : Fault.Cause}
    (he : (s.answer c).1 = .error (s.fault cause)) : s.Blames c cause := by
  obtain ⟨cause', hcause, hblames⟩ := hr.blames_of_answer he
  obtain rfl : cause = cause' := congrArg Fault.cause hcause
  exact hblames

/-- What reads or takes a position says that it is detached iff it is. -/
theorem answer_detached_iff (hr : Recorded s₀ h s) (hl : s.pattern.indexOf? l = some i)
    (hc : c.reads? = some l) :
    (s.answer c).1 = .error (s.fault (.detached l)) ↔ s.standing i = .detached := by
  refine ⟨fun he => ?_, fun hi => answer_of_live hc (live_eq_detached hl hi)⟩
  cases hr.blames he with
  | detached _ hl' hi =>
    obtain rfl := Option.some.inj (hl.symm.trans hl')
    exact hi

/-- What reads or takes a position says that it is vacated iff it is. -/
theorem answer_vacated_iff (hr : Recorded s₀ h s) (hl : s.pattern.indexOf? l = some i)
    (hc : c.reads? = some l) :
    (s.answer c).1 = .error (s.fault (.vacated l)) ↔ s.standing i = .vacated := by
  refine ⟨fun he => ?_, fun hi => answer_of_live hc (live_eq_vacated hl hi)⟩
  cases hr.blames he with
  | vacated _ hl' hi =>
    obtain rfl := Option.some.inj (hl.symm.trans hl')
    exact hi

/-- A subtree can be put at a position unless it is detached. -/
theorem answer_replace (hr : Recorded s₀ h s) (hl : s.pattern.indexOf? l = some i) (m : Node) :
    (s.answer (.replace l m)).1 =
      if s.standing i = .detached then .error (s.fault (.detached l)) else .ok .replaced := by
  by_cases hd : s.standing i = .detached
  · simp only [Scope.answer, replace, index, hl, if_pos hd]
  · obtain ⟨old, -, hold⟩ := hr.exists_at? (hr.lt_of_indexOf? hl) hd
    simp only [Scope.answer, replace_eq_ok hl hd hold, if_neg hd]

/-- No call says that a location is not in the tree, but the one that asks which child the
node of the match is. -/
theorem answer_noNode_iff (hr : Recorded s₀ h s) :
    (∃ q, (s.answer c).1 = .error (s.fault (.noNode q))) ↔
      ∃ l, c = .childIndex l ∧ s.pattern.indexOf? l = some 0 ∧ s.standing 0 = .live := by
  have hroot : s.binding[0]? = some [] := hr.valid.top
  constructor
  · rintro ⟨q, he⟩
    cases hr.blames he with
    | @root l i hl hi hnil =>
      -- no position but the top one is bound to the root
      have hbound := getElem?_binding (hr.lt_of_indexOf? hl)
      rw [hnil] at hbound
      obtain rfl := hr.valid.eq_zero_of_location_nil hbound
      exact ⟨l, rfl, hl, hi⟩
  · rintro ⟨l, rfl, hl, hi⟩
    have hlive : s.live l = .ok 0 := live_eq_ok_iff.mpr ⟨hl, hi⟩
    have hnil : s.location 0 = [] := by simp [location, hroot]
    refine ⟨[], ?_⟩
    simp only [Scope.answer, childIndex, hlive, hnil, List.getLast?_nil]
    rfl

/-! ### How positions stand -/

/-- A location of a changed position is above another one iff the position is above. -/
theorem detaches_iff_changesAbove (hr : Recorded s₀ h s) (hi : i < s.binding.length) :
    h.detaches s.binding i = true ↔ h.ChangesAbove s.pattern i := by
  rw [History.detaches_iff]
  constructor
  · rintro ⟨j, c, hc, hbelow⟩
    have hj := getElem?_binding (hr.bound j c hc)
    exact ⟨j, c, hc, (hr.valid.isBelow_iff_above (getElem?_binding hi) hj).mp hbelow⟩
  · rintro ⟨j, c, hc, habove⟩
    have hj := getElem?_binding (hr.bound j c hc)
    exact ⟨j, c, hc, (hr.valid.isBelow_iff_above (getElem?_binding hi) hj).mpr habove⟩

/-- What is detached stays so, whatever is called. -/
theorem standing_after (hr : Recorded s₀ h s) (hi : i < s.binding.length)
    (hd : s.standing i = .detached) (calls : List Call) :
    (s.after calls).standing i = .detached := by
  have hr' := hr.after calls
  have hbinding : (s.after calls).binding = s.binding := hr'.binding.trans hr.binding.symm
  have hdetaches : h.detaches s.binding i = true :=
    History.standing_eq_detached_iff.mp ((hr.standing i hi).symm.trans hd)
  rw [hr'.standing i (hbinding ▸ hi), History.standing_eq_detached_iff, hbinding,
    History.detaches_append, hdetaches, Bool.true_or]

end Recorded

/-! ### The end of an action -/

theorem lt_of_standing_eq_vacated (hi : s.standing i = .vacated) : i < s.standings.length := by
  by_contra hlt
  rw [standing, List.getD_eq_getElem?_getD,
    List.getElem?_eq_none (Nat.le_of_not_lt hlt)] at hi
  cases hi

theorem findIdx?_vacated :
    s.standings.findIdx? (· == .vacated) = some i ↔
      s.standing i = .vacated ∧ ∀ j, j < i → s.standing j ≠ .vacated := by
  rw [List.findIdx?_eq_some_iff_getElem]
  constructor
  · rintro ⟨hi, hvacated, hfirst⟩
    refine ⟨by simpa [standing, hi] using hvacated, fun j hj => ?_⟩
    simpa [standing, Nat.lt_trans hj hi] using hfirst j hj
  · rintro ⟨hvacated, hfirst⟩
    have hi := lt_of_standing_eq_vacated hvacated
    refine ⟨hi, by simpa [standing, hi] using hvacated, fun j hj => ?_⟩
    simpa [standing, Nat.lt_trans hj hi] using hfirst j hj

/-- An action is complete iff no position is left vacated. -/
theorem finish_eq_ok_iff :
    s.finish = .ok () ↔ ∀ i, i < s.standings.length → s.standing i ≠ .vacated := by
  rcases hfind : s.standings.findIdx? (· == .vacated) with - | i
  · refine iff_of_true (by simp only [finish, hfind]) fun i hi => ?_
    simpa [standing, hi] using List.findIdx?_eq_none_iff.mp hfind s.standings[i] (by simp)
  · have hvacated := (findIdx?_vacated.mp hfind).1
    refine iff_of_false (by simp [finish, hfind]) fun hnone => ?_
    exact hnone i (lt_of_standing_eq_vacated hvacated) hvacated

/-- The fault of an incomplete action names the first position that is left vacated. -/
theorem Recorded.finish_eq_error_iff (hr : Recorded s₀ h s) :
    s.finish = .error e ↔ ∃ i q, s.pattern.positions[i]? = some q ∧ s.standing i = .vacated ∧
      (∀ j, j < i → s.standing j ≠ .vacated) ∧ e = s.fault (.vacated q.label) := by
  have hlength : s.standings.length = s.pattern.positions.length :=
    hr.length_standings.trans hr.valid.length_eq
  constructor
  · intro he
    rw [finish] at he
    rcases hfind : s.standings.findIdx? (· == .vacated) with - | i <;> rw [hfind] at he
    · cases he
    · obtain rfl := Except.error.inj he
      obtain ⟨hvacated, hfirst⟩ := findIdx?_vacated.mp hfind
      have hi : i < s.pattern.positions.length := hlength ▸ lt_of_standing_eq_vacated hvacated
      exact ⟨i, _, List.getElem?_eq_getElem hi, hvacated, hfirst, by simp [hi]⟩
  · rintro ⟨i, q, hq, hvacated, hfirst, rfl⟩
    have hfind := findIdx?_vacated.mpr ⟨hvacated, hfirst⟩
    simp only [finish, hfind, hq, Option.map_some, Option.getD_some]

/-! ### Faults are exact -/

/-- **The faults of a scope are exact.**  After any calls a position is detached iff a position
strictly above has been changed, and then it stays so whatever is called; else it is vacated
iff its last change was to take its subtree, and live iff not, and its location is in the
tree.  What reads or takes the position of a label says that it is detached or vacated iff
it is; a subtree can be put there iff it is not detached.  That there is no node at a
location is only ever said of the node of the match, while it is live, when asked which
child it is.  An action is complete iff no position is left vacated, and else the first one
that is names the fault. -/
theorem faults_exact {p : Pattern} {n : Node} {b : Binding} (hb : b ∈ p.bindings n)
    (rule : String) (calls : List Call) :
    let s₀ := enter rule p b n
    let s := s₀.after calls
    let h := s₀.changes calls
    (∀ i, i < p.positions.length →
      (s.standing i = .detached ↔ h.ChangesAbove p i) ∧
      (s.standing i = .vacated ↔ ¬ h.ChangesAbove p i ∧ h.last? i = some .taken) ∧
      (s.standing i = .live ↔ ¬ h.ChangesAbove p i ∧ h.last? i ≠ some .taken) ∧
      (s.standing i ≠ .detached → ∃ m, s.tree.at? (s.location i) = some m) ∧
      (s.standing i = .detached → ∀ more, (s.after more).standing i = .detached)) ∧
    (∀ l i, p.indexOf? l = some i →
      (∀ c, c.reads? = some l →
        ((s.answer c).1 = .error ⟨rule, .detached l⟩ ↔ s.standing i = .detached) ∧
        ((s.answer c).1 = .error ⟨rule, .vacated l⟩ ↔ s.standing i = .vacated)) ∧
      ∀ m, (s.answer (.replace l m)).1 =
        if s.standing i = .detached then .error ⟨rule, .detached l⟩ else .ok .replaced) ∧
    (∀ c, (∃ q, (s.answer c).1 = .error ⟨rule, .noNode q⟩) ↔
      ∃ l, c = .childIndex l ∧ p.indexOf? l = some 0 ∧ s.standing 0 = .live) ∧
    (s.finish = .ok () ↔ ∀ i, i < p.positions.length → s.standing i ≠ .vacated) ∧
    ∀ e, s.finish = .error e ↔ ∃ i q, p.positions[i]? = some q ∧ s.standing i = .vacated ∧
      (∀ j, j < i → s.standing j ≠ .vacated) ∧ e = ⟨rule, .vacated q.label⟩ := by
  intro s₀ s h
  have hr : Recorded s₀ h s := recorded_after hb rule calls
  have hpattern : s.pattern = p := hr.pattern
  have hfault : ∀ cause, s.fault cause = ⟨rule, cause⟩ := fun cause =>
    congrArg (Fault.mk · cause) hr.rule
  have hlength : s.binding.length = p.positions.length := by
    rw [hr.valid.length_eq, hpattern]
  refine ⟨fun i hi => ?standings, fun l i hl => ⟨fun c hc => ?reading, fun m => ?replacing⟩,
    fun c => ?noNode, ?complete, fun e => ?incomplete⟩
  case standings =>
    have hi : i < s.binding.length := hlength ▸ hi
    have habove := hr.detaches_iff_changesAbove hi
    rw [hpattern] at habove
    refine ⟨?_, ?_, ?_, fun hd => ?_, hr.standing_after hi⟩
    · rw [hr.standing i hi, History.standing_eq_detached_iff, habove]
    · rw [hr.standing i hi, History.standing_eq_vacated_iff, ← Bool.not_eq_true, habove]
    · rw [hr.standing i hi, History.standing_eq_live_iff, ← Bool.not_eq_true, habove]
    · obtain ⟨m, -, hm⟩ := hr.exists_at? hi hd
      exact ⟨_, hm⟩
  case reading =>
    rw [← hpattern] at hl
    rw [← hfault, ← hfault]
    exact ⟨hr.answer_detached_iff hl hc, hr.answer_vacated_iff hl hc⟩
  case replacing =>
    rw [← hpattern] at hl
    rw [← hfault]
    exact hr.answer_replace hl m
  case noNode =>
    simp only [← hfault, ← hpattern]
    exact hr.answer_noNode_iff
  case complete =>
    rw [finish_eq_ok_iff, hr.length_standings, hlength]
  case incomplete =>
    simp only [← hfault, ← hpattern]
    exact hr.finish_eq_error_iff

/-- What is below a negation stays detached once the negation is replaced by another one. -/
theorem faults_exact_negation :
    let p := Pattern.ofShape (.group "p" .fixed (.group "a" .fixed "b" []) [])
    let n : Node := .negate (.negate (.var 0))
    let b : Binding := [[], [0], [0, 0]]
    let s := (enter "renew" p b n).after [.take "b", .replace "a" (.negate (.var 1))]
    b ∈ p.bindings n ∧ s.finish = .ok () ∧ ∀ more, (s.after more).standing 2 = .detached := by
  have hb : [[], [0], [0, 0]] ∈
      (Pattern.ofShape (.group "p" .fixed (.group "a" .fixed "b" []) [])).bindings
        (.negate (.negate (.var 0))) :=
    mem_bindings_unary_unary.mpr
      ⟨Nat.le_refl 1, .negate (.var 0), rfl, Nat.le_refl 1, .var 0, rfl, rfl⟩
  exact ⟨hb, rfl, ((faults_exact hb "renew" _).1 2 (by decide)).2.2.2.2 rfl⟩

end Scope

end TreeRewriting
