/-
TreeRewriting/Proofs/Rule/Placeholder.lean

What stands where a subtree has been taken.

Design.  A false truth constant stands at a vacated position, and it is part of
the tree like any other node: whoever copies or takes a subtree above the
position gets it too, and may put it back.  Putting something in above the
position then detaches the position, and an action is complete as soon as no
position is left vacated.  So an action may be complete and yet have left a
placeholder behind (`placeholder_put_back`).

In a tree without truth constants the placeholders are the only ones.  As long
as nothing that has one is put in, they stand exactly at the vacated positions
(`Clean.at_vacated`), so what a call hands out has one iff a position strictly
below is vacated (`Clean.withoutBool_iff_whole`).  Hence nothing that has one is
put in as long as what is put in comes from calls for which that is not so, and
when such an action is complete no placeholder is left (`no_placeholder_left`).
-/
import TreeRewriting.Proofs.Node.Everywhere
import TreeRewriting.Proofs.Pattern.Grammar
import TreeRewriting.Proofs.Rule.Frame
import TreeRewriting.Proofs.Rule.Standing

namespace TreeRewriting

/-! ### Trees without truth constants -/

namespace Node

/-- No truth constant stands anywhere in the tree. -/
def WithoutBool (n : Node) : Prop := n.Everywhere fun m => m.kind ≠ .bool

/-- Trees built from given ones: these, the parts of a tree that is built, and every node
but a truth constant over operands that are built. -/
inductive Built (given : Node → Prop) : Node → Prop
  | given {n : Node} : given n → Built given n
  | part {n m : Node} {p : Location} : Built given n → n.at? p = some m → Built given m
  | fresh {n : Node} : n.kind ≠ .bool → (∀ c ∈ n.children, Built given c) → Built given n

/-- What is built from trees without truth constants has none. -/
theorem Built.withoutBool {given : Node → Prop} {n : Node} (h : Built given n)
    (hgiven : ∀ m, given m → m.WithoutBool) : n.WithoutBool := by
  induction h with
  | given hn => exact hgiven _ hn
  | part _ hm ih => exact ih.of_at? hm
  | fresh hkind _ ih => exact everywhere_iff.mpr ⟨hkind, ih⟩

end Node

namespace Scope

variable {s₀ s : Scope} {h : History} {i : Nat} {c : Call} {m : Node}

/-! ### What calls hand out and put in -/

/-- The subtree that a call hands to the action, as a copy or taken out of the tree. -/
def handed? (s : Scope) (c : Call) : Option Node :=
  match (s.answer c).1 with
  | .ok (.node m) => some m
  | _ => none

/-- Whatever the calls put in is built from what is given and from what earlier ones among
them have handed out while usable. -/
def PutsBack (usable : Scope → Call → Prop) (s : Scope) (given : Node → Prop) :
    List Call → Prop
  | [] => True
  | c :: calls =>
    (∀ l m, c = .replace l m → m.Built given) ∧
      PutsBack usable (s.answer c).2 (fun m => given m ∨ usable s c ∧ s.handed? c = some m) calls

/-- No call faults. -/
def Succeeds (s : Scope) : List Call → Prop
  | [] => True
  | c :: calls => (∃ r, (s.answer c).1 = .ok r) ∧ Succeeds (s.answer c).2 calls

/-- No position strictly below that of the call is vacated. -/
def Whole (s : Scope) (c : Call) : Prop :=
  ∀ l i j, c.label? = some l → s.pattern.indexOf? l = some i → s.pattern.Above i j →
    s.standing j ≠ .vacated

theorem eq_ok_of_map {α : Type} {x : Except Fault α} {f : α → Reply} {r : Reply}
    (hx : x.map f = .ok r) : ∃ a, x = .ok a ∧ f a = r := by
  rcases x with e | a
  · cases hx
  · exact ⟨a, rfl, Except.ok.inj hx⟩

/-- What a call hands out stands at the live position of its label. -/
theorem handed?_eq_some (hm : s.handed? c = some m) :
    ∃ l i, c.label? = some l ∧ s.live l = .ok i ∧ s.tree.at? (s.location i) = some m := by
  have hanswer : (s.answer c).1 = .ok (.node m) := by
    rw [handed?] at hm
    split at hm
    · next heq =>
      obtain rfl := Option.some.inj hm
      exact heq
    · cases hm
  have of_node : ∀ l, c.label? = some l → s.node l = .ok m →
      ∃ l i, c.label? = some l ∧ s.live l = .ok i ∧ s.tree.at? (s.location i) = some m := by
    intro l hl hnode
    obtain ⟨i, hi, hat⟩ := node_eq_ok_iff.mp hnode
    exact ⟨l, i, hl, hi, hat⟩
  cases c with
  | rule => cases hanswer
  | node l =>
    obtain ⟨_, hnode, ⟨⟩⟩ := eq_ok_of_map hanswer
    exact of_node l rfl hnode
  | copyOf l =>
    obtain ⟨_, hnode, ⟨⟩⟩ := eq_ok_of_map hanswer
    exact of_node l rfl hnode
  | constant l =>
    obtain ⟨x | x, -, ⟨⟩⟩ := eq_ok_of_map hanswer
  | number l | bool l | var l | literal l | childIndex l =>
    obtain ⟨_, -, ⟨⟩⟩ := eq_ok_of_map hanswer
  | take l =>
    rw [answer] at hanswer
    rcases ht : s.take l with e | ⟨k, s'⟩ <;> rw [ht] at hanswer
    · cases hanswer
    · cases hanswer
      obtain ⟨i, hi, hat, -⟩ := take_eq_ok_iff.mp ht
      exact ⟨l, i, rfl, hi, hat⟩
  | replace l k =>
    rw [answer] at hanswer
    rcases hr : s.replace l k with e | s' <;> rw [hr] at hanswer <;> cases hanswer

/-- Only putting a subtree in makes a change that says so. -/
theorem eq_replace_of_change? (hc : s.change? c = some (i, .replaced m)) :
    ∃ l, c = .replace l m := by
  cases c with
  | replace l k =>
    simp only [change?, answer] at hc
    rcases hr : s.replace l k with e | s' <;> rw [hr] at hc
    · cases hc
    · obtain ⟨_, -, ⟨⟩⟩ := Option.map_eq_some_iff.mp hc
      exact ⟨l, rfl⟩
  | take l =>
    simp only [change?, answer] at hc
    rcases ht : s.take l with e | ⟨k, s'⟩ <;> rw [ht] at hc
    · cases hc
    · obtain ⟨_, -, ⟨⟩⟩ := Option.map_eq_some_iff.mp hc
  | _ => cases hc

/-! ### Where placeholders stand -/

/-- At a vacated position stands a placeholder. -/
theorem Recorded.at?_vacated (hr : Recorded s₀ h s) (hi : i < s.binding.length)
    (hv : s.standing i = .vacated) : s.tree.at? (s.location i) = some (.bool false) := by
  have hlast := (History.standing_eq_vacated_iff.mp ((hr.standing i hi).symm.trans hv)).2
  exact hr.at?_location (by simp [hv]) hlast

/-- The scope is what its history says, in a tree that had no truth constants, and nothing
that has one has been put in. -/
structure Clean (s₀ : Scope) (h : History) (s : Scope) : Prop where
  recorded : Recorded s₀ h s
  start : s₀.tree.WithoutBool
  put : ∀ i m, (i, .replaced m) ∈ h → m.WithoutBool

namespace Clean

/-- Truth constants stand at vacated positions only. -/
theorem at_vacated (hc : Clean s₀ h s) {q : Location} (hq : s.tree.at? q = some m)
    (hm : m.kind = .bool) :
    ∃ i, i < s.binding.length ∧ s.standing i = .vacated ∧ s.location i = q := by
  have hr := hc.recorded
  by_cases hinside : ∃ i, s.Swapped h i ∧ s.location i <+: q
  · -- within what the last change of a position has left
    obtain ⟨i, ⟨hd, c, hmem⟩, r, rfl⟩ := hinside
    have hi := hr.bound i c hmem
    obtain ⟨d, hlast⟩ := History.exists_last? hmem
    have hat := hr.at?_location hd hlast
    rw [Node.at?_append, hat, Option.bind_some] at hq
    cases d with
    | replaced k => exact absurd hm (hc.put i k (History.mem_of_last? hlast) r m hq)
    | taken =>
      obtain rfl : r = [] := by
        cases r with
        | nil => rfl
        | cons j r => cases hq
      have hnot : h.detaches s.binding i = false := by
        rw [hr.standing i hi] at hd
        exact Bool.eq_false_iff.mpr fun hdet => hd (History.standing_eq_detached_iff.mpr hdet)
      refine ⟨i, hi, ?_, (List.append_nil _).symm⟩
      rw [hr.standing i hi]
      exact History.standing_eq_vacated_iff.mpr ⟨hnot, hlast⟩
  · -- outside, where each node has the kind that it had at the start
    have hnone : ∀ i, s.Swapped h i → ¬ s.location i <+: q := fun i hi hp =>
      hinside ⟨i, hi, hp⟩
    rw [hr.at?_outside_eq hnone] at hq
    obtain ⟨k, hk, rfl⟩ := Option.map_eq_some_iff.mp hq
    rw [Node.kind_withChildren] at hm
    exact absurd hm (hc.start q k hk)

/-- What a call hands out has a placeholder iff a position strictly below is vacated. -/
theorem withoutBool_iff_whole (hc : Clean s₀ h s) (hm : s.handed? c = some m) :
    m.WithoutBool ↔ s.Whole c := by
  have hr := hc.recorded
  obtain ⟨l, i, hl, hi, hat⟩ := handed?_eq_some hm
  obtain ⟨hindex, hlive⟩ := live_eq_ok_iff.mp hi
  have hi := hr.lt_of_indexOf? hindex
  constructor
  · intro hfree l' i' j hl' hindex' habove hv
    obtain rfl := Option.some.inj (hl.symm.trans hl')
    obtain rfl := Option.some.inj (hindex.symm.trans hindex')
    have hj : j < s.binding.length := hr.valid.lt_of_above habove
    have hbelow : (s.location j).isBelow (s.location i) = true :=
      (hr.valid.isBelow_iff_above (getElem?_binding hj) (getElem?_binding hi)).mpr habove
    obtain ⟨r, -, heq⟩ := Location.isBelow_iff.mp hbelow
    have hplace := hr.at?_vacated hj hv
    rw [heq, Node.at?_append, hat, Option.bind_some] at hplace
    exact hfree r _ hplace rfl
  · intro hwhole r k hk hbool
    have htree : s.tree.at? (s.location i ++ r) = some k := by
      rw [Node.at?_append, hat, Option.bind_some, hk]
    obtain ⟨j, hj, hv, hloc⟩ := hc.at_vacated htree hbool
    rcases Location.prefix_iff_eq_or_isBelow.mp ⟨r, hloc.symm⟩ with heq | hbelow
    · -- the position itself is live
      obtain rfl := hr.eq_of_location hj hi heq
      rw [hlive] at hv
      cases hv
    · have habove :=
        (hr.valid.isBelow_iff_above (getElem?_binding hj) (getElem?_binding hi)).mp hbelow
      exact hwhole l i j hl hindex habove hv

/-- A call that puts in nothing that has a truth constant keeps the scope clean. -/
theorem answer (hc : Clean s₀ h s) (hput : ∀ l m, c = .replace l m → m.WithoutBool) :
    Clean s₀ (h ++ (s.change? c).toList) (s.answer c).2 where
  recorded := hc.recorded.answer c
  start := hc.start
  put i m hm := by
    rcases List.mem_append.mp hm with hm | hm
    · exact hc.put i m hm
    · obtain ⟨l, hl⟩ := eq_replace_of_change? (Option.mem_toList.mp hm)
      exact hput l m hl

/-- Calls that put back what was whole when it was handed out keep the scope clean. -/
theorem after (hc : Clean s₀ h s) {given : Node → Prop}
    (hgiven : ∀ m, given m → m.WithoutBool) {calls : List Call}
    (hcalls : s.PutsBack Whole given calls) :
    Clean s₀ (h ++ s.changes calls) (s.after calls) := by
  induction calls generalizing s h given with
  | nil =>
    rw [changes, List.append_nil]
    exact hc
  | cons call calls ih =>
    obtain ⟨hput, hrest⟩ := hcalls
    have hnext := hc.answer fun l m hl => (hput l m hl).withoutBool hgiven
    rw [changes, ← List.append_assoc]
    refine ih hnext ?_ hrest
    rintro m (hm | ⟨hwhole, hm⟩)
    · exact hgiven m hm
    · exact (hc.withoutBool_iff_whole hm).mpr hwhole

end Clean

/-! ### Complete actions -/

/-- **A complete action leaves no placeholder that it has not put back itself.**  The tree had
no truth constants, and what the calls put in is built, without truth constants, from what
earlier calls have handed out while no position strictly below theirs was vacated.  If then
the action is complete, whether calls have faulted or not, the tree has no truth constants. -/
theorem no_placeholder_left {p : Pattern} {n : Node} {b : Binding} (hb : b ∈ p.bindings n)
    (hn : n.WithoutBool) (rule : String) (calls : List Call)
    (hcalls : (enter rule p b n).PutsBack Whole (fun _ => False) calls)
    (hdone : ((enter rule p b n).after calls).finish = .ok ()) :
    ((enter rule p b n).after calls).tree.WithoutBool := by
  have hstart : Clean (enter rule p b n) [] (enter rule p b n) :=
    ⟨recorded_enter hb rule, hn, by simp⟩
  have hc := hstart.after (fun _ => False.elim) hcalls
  intro q m hq hm
  obtain ⟨i, hi, hv, -⟩ := hc.at_vacated hq hm
  rw [← hc.recorded.length_standings] at hi
  exact finish_eq_ok_iff.mp hdone i hi hv

/-- An operand of a product is taken, refilled with its negation, and the product, copied
after that, put under a negation. -/
theorem no_placeholder_left_product :
    let p := Pattern.ofShape (.group "p" .fixed "a" ["b"])
    let n : Node := .product (.var 0) (.var 1)
    let b : Binding := [[], [0], [1]]
    let m : Node := .product (.negate (.var 0)) (.var 1)
    let calls : List Call :=
      [.take "a", .replace "a" (.negate (.var 0)), .copyOf "p", .replace "p" (.negate m)]
    b ∈ p.bindings n ∧ n.WithoutBool ∧
      (enter "wrap" p b n).PutsBack Whole (fun _ => False) calls ∧
      ((enter "wrap" p b n).after calls).finish = .ok () ∧
      ((enter "wrap" p b n).after calls).tree.WithoutBool := by
  intro p n b m calls
  have hb : b ∈ p.bindings n :=
    mem_bindings_binary.mpr ⟨Nat.le_refl 2, .var 0, rfl, .var 1, rfl, rfl⟩
  have leaf : ∀ i, (Node.var i).WithoutBool := fun i => Node.everywhere_leaf.mpr nofun
  have hn : n.WithoutBool := Node.everywhere_binary.mpr ⟨nofun, leaf 0, leaf 1⟩
  have negated : ∀ {given : Node → Prop} {k : Node}, given k → (Node.negate k).Built given := by
    intro given k hk
    refine .fresh nofun ?_
    intro c hc
    obtain rfl := List.mem_singleton.mp hc
    exact .given hk
  have hcalls : (enter "wrap" p b n).PutsBack Whole (fun _ => False) calls := by
    refine ⟨nofun, ?_, nofun, ?_, trivial⟩
    · -- nothing is vacated yet when the operand is taken
      rintro l k ⟨⟩
      refine negated (.inr ⟨?_, rfl⟩)
      rintro l i (- | - | - | j) - - - <;> nofun
    · -- nor is anything vacated any more when the product is copied
      rintro l k ⟨⟩
      refine negated (.inr ⟨?_, rfl⟩)
      rintro l i (- | - | - | j) - - - <;> nofun
  have hdone : ((enter "wrap" p b n).after calls).finish = .ok () := rfl
  exact ⟨hb, hn, hcalls, hdone, no_placeholder_left hb hn "wrap" calls hcalls hdone⟩

/-- The operand of a negation is taken, and the negation replaced by the copy that it is
without the operand: all calls succeed, the action is complete, and the placeholder is
left. -/
theorem placeholder_put_back :
    let p := Pattern.ofShape (.group "p" .fixed "a" [])
    let n : Node := .negate (.var 0)
    let b : Binding := [[], [0]]
    let s₀ := enter "keep" p b n
    let calls : List Call := [.take "a", .copyOf "p", .replace "p" (.negate (.bool false))]
    Pattern.parse "p(a)" = .ok p ∧ b ∈ p.bindings n ∧ n.WithoutBool ∧ s₀.Succeeds calls ∧
      s₀.PutsBack (fun _ _ => True) (fun _ => False) calls ∧
      (s₀.after calls).finish = .ok () ∧ ¬ (s₀.after calls).tree.WithoutBool := by
  intro p n b s₀ calls
  refine ⟨?parse, ?binding, ?start, ?succeeds, ?putsBack, rfl, ?left⟩
  case parse =>
    have hwords : Pattern.Spaced [['p'], ['('], ['a'], [')']] ['p', '(', 'a', ')'] :=
      .word .nil (.word .nil (.word .nil (.word .nil (.blanks .nil))))
    have hlabels : p.shape.WellLabelled := by
      refine ⟨?_, by decide⟩
      rintro l (- | ⟨-, - | ⟨-, ⟨⟩⟩⟩)
      · exact ⟨'p', [], rfl, by decide, by simp⟩
      · exact ⟨'a', [], rfl, by decide, by simp⟩
    exact Pattern.parse_eq_ok_iff.mpr
      ⟨_, Pattern.shape_parse_eq_ok_iff_spaced.mpr ⟨hlabels, hwords⟩, rfl⟩
  case binding => exact mem_bindings_unary.mpr ⟨Nat.le_refl 1, .var 0, rfl, rfl⟩
  case start => exact Node.everywhere_unary.mpr ⟨nofun, Node.everywhere_leaf.mpr nofun⟩
  case succeeds => exact ⟨⟨_, rfl⟩, ⟨_, rfl⟩, ⟨_, rfl⟩, trivial⟩
  case putsBack =>
    refine ⟨nofun, nofun, ?_, trivial⟩
    rintro l m ⟨⟩
    exact .given (.inr ⟨trivial, rfl⟩)
  case left =>
    intro hfree
    exact hfree [0] (.bool false) rfl rfl

end Scope

end TreeRewriting
