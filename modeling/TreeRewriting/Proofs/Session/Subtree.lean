/-
TreeRewriting/Proofs/Session/Subtree.lean

A subtree may be normalised first.

Design.  The loop that starts over works through a tree from the left.  By the
time a chain of its rounds has left nothing to match, it has cleared the
operands to the left of a location, then the subtree there, and then the rest;
what it did to the subtree is a chain of the subtree alone, and everything else
it did does not depend on how the subtree came to be what it is.  So the rounds
of the subtree can be taken out of the chain and made first.

The proof follows the location down.  `Cleared` says that the operands in front
of one have been cleared, whatever stands behind them; a chain that leaves
nothing to match clears the operands of a node one after the other
(`Chain.operands_cleared`), and so comes to the next operand on the way down
(`Chain.operand_cleared`).  At the location itself nothing is left to show.

Main result: `Session.run_subtree_first`.
-/
import Mathlib.Data.List.Induction
import TreeRewriting.Proofs.Session.Refinement
import TreeRewriting.Table.Logic

namespace TreeRewriting

variable {rules : RuleSet} {here : Location}

/-! ### Rewrites seen from above -/

/-- A rewrite in a subtree, seen from the root of the tree that has the subtree at a
location. -/
def Firing.under (here : Location) (f : Firing) : Firing :=
  { f with location := here ++ f.location }

theorem Redex.under_firing (x : Redex) (here : Location) :
    (x.firing []).under here = x.firing here := rfl

/-- Rounds do not depend on the location at which the tree hangs. -/
theorem Chain.from_root {n m : Node} {fs : List Firing} (h : Chain rules here n fs m) :
    ∃ gs, Chain rules [] n gs m ∧ fs = gs.map (Firing.under here) := by
  induction h with
  | nil n => exact ⟨[], .nil n, rfl⟩
  | @cons n m fs x first done _ ih =>
    obtain ⟨gs, hchain, rfl⟩ := ih
    exact ⟨x.firing [] :: gs, .cons first done hchain, by rw [List.map_cons, x.under_firing]⟩

/-- Seen from above, the rewrites are by the same rules. -/
theorem Firing.countP_under (here : Location) (fs : List Firing) (name : String) :
    (fs.map (Firing.under here)).countP (·.rule == name) = fs.countP (·.rule == name) := by
  rw [List.countP_map]
  rfl

/-! ### Clearing one operand after the other -/

/-- Rounds that leave nothing to match clear an operand first, if nothing matches in those
before it. -/
theorem Chain.operand_cleared {n c r : Node} {pre post : List Node} {fs : List Firing}
    (hn : (pre ++ c :: post).length = n.arity) (hpre : ∀ x ∈ pre, rules.firstRedex? x = none)
    (h : Chain rules here (n.withChildren (pre ++ c :: post)) fs r)
    (hr : rules.firstRedex? r = none) :
    ∃ as bs d, fs = as ++ bs ∧ Chain rules (here.child pre.length) c as d ∧
      rules.firstRedex? d = none ∧ Chain rules here (n.withChildren (pre ++ d :: post)) bs r := by
  generalize hm : n.withChildren (pre ++ c :: post) = m at h
  induction h generalizing c with
  | nil m =>
    rcases hc : rules.firstRedex? c with - | x
    · exact ⟨[], [], c, rfl, .nil c, hc, hm ▸ .nil _⟩
    · -- a redex in the operand would be one of the whole tree
      subst hm
      rw [RuleSet.firstRedex?_of_operand (Node.children_withChildren hn) hpre hc] at hr
      cases hr
  | @cons m r fs x first done hrest ih =>
    subst hm
    rcases hc : rules.firstRedex? c with - | y
    · exact ⟨[], _, c, rfl, .nil c, hc, .cons first done hrest⟩
    · -- the round is one in the operand
      rw [RuleSet.firstRedex?_of_operand (Node.children_withChildren hn) hpre hc] at first
      obtain rfl := Option.some.inj first
      obtain ⟨as, bs, d, rfl, hchain, hd, hrest⟩ :=
        ih (by simpa using hn) hr (y.contract_below hn).symm
      rw [y.firing_below]
      exact ⟨y.firing _ :: as, bs, d, rfl, .cons hc done hchain, hd, hrest⟩

/-- Rounds that clear the operands of a node in front of others, whatever the others are. -/
structure Cleared (rules : RuleSet) (here : Location) (n : Node) (pre : List Node)
    (fs : List Firing) (pre' : List Node) : Prop where
  length : pre'.length = pre.length
  clear : ∀ x ∈ pre', rules.firstRedex? x = none
  chain : ∀ xs : List Node, (pre ++ xs).length = n.arity →
    Chain rules here (n.withChildren (pre ++ xs)) fs (n.withChildren (pre' ++ xs))

namespace Cleared

variable {n : Node} {pre pre' : List Node} {as bs : List Firing}

theorem nil (n : Node) : Cleared rules here n [] [] [] :=
  ⟨rfl, by simp, fun _ _ => .nil _⟩

/-- One more operand. -/
theorem concat {c d : Node} (h : Cleared rules here n pre as pre')
    (hchain : Chain rules (here.child pre.length) c bs d) (hd : rules.firstRedex? d = none) :
    Cleared rules here n (pre ++ [c]) (as ++ bs) (pre' ++ [d]) := by
  refine ⟨by simp [h.length], ?clear, ?chain⟩
  case clear =>
    intro x hx
    rcases List.mem_append.mp hx with hx | hx
    · exact h.clear x hx
    · rw [List.mem_singleton.mp hx]
      exact hd
  case chain =>
    intro xs hn
    simp only [List.append_assoc, List.singleton_append] at hn ⊢
    have hn' : (pre' ++ c :: xs).length = n.arity := by simpa [h.length] using hn
    rw [← h.length] at hchain
    exact (h.chain (c :: xs) hn).append (hchain.inOperand hn' h.clear)

end Cleared

/-- Rounds that leave nothing to match clear the operands of a node from the left. -/
theorem Chain.operands_cleared {n r : Node} (pre : List Node) {xs : List Node} {fs : List Firing}
    (hn : (pre ++ xs).length = n.arity) (h : Chain rules here (n.withChildren (pre ++ xs)) fs r)
    (hr : rules.firstRedex? r = none) :
    ∃ as bs pre', fs = as ++ bs ∧ Cleared rules here n pre as pre' ∧
      Chain rules here (n.withChildren (pre' ++ xs)) bs r := by
  -- by induction from the right: the last operand comes after those before it
  induction pre using List.reverseRecOn generalizing xs with
  | nil => exact ⟨[], fs, [], rfl, .nil n, h⟩
  | append_singleton pre c ih =>
    rw [List.append_assoc] at hn h
    obtain ⟨as, bs, pre', rfl, hcleared, hrest⟩ := ih hn h
    have hn' : (pre' ++ c :: xs).length = n.arity := by simpa [hcleared.length] using hn
    obtain ⟨bs, cs, d, rfl, hchain, hd, hrest⟩ := hrest.operand_cleared hn' hcleared.clear hr
    rw [hcleared.length] at hchain
    refine ⟨as ++ bs, cs, pre' ++ [d], by rw [List.append_assoc], hcleared.concat hchain hd, ?_⟩
    rwa [List.append_assoc]

/-! ### Clearing a subtree first -/

/-- From rounds that leave nothing to match those in a subtree can be taken out: they are
rounds of the subtree alone, and if they are made first, what remains are the others. -/
theorem Chain.subtree_first {t c r : Node} {p : Location} {fs : List Firing}
    (hc : t.at? p = some c) (h : Chain rules here t fs r) (hr : rules.firstRedex? r = none) :
    ∃ as gs bs d, fs = as ++ gs ++ bs ∧ Chain rules (here ++ p) c gs d ∧
      rules.firstRedex? d = none ∧ Chain rules here (t.set p d) (as ++ bs) r := by
  induction p generalizing here t fs r with
  | nil =>
    obtain rfl := Option.some.inj hc
    rw [List.append_nil]
    exact ⟨[], fs, [], r, by simp, h, hr, .nil r⟩
  | cons i p ih =>
    rw [Node.at?_cons] at hc
    obtain ⟨x, hx, hxc⟩ := Option.bind_eq_some_iff.mp hc
    -- the operand on the way down, with those before it and those behind it
    obtain ⟨pre, post, rfl, hn, ht⟩ := Node.exists_withChildren_append hx
    rw [← ht] at h
    obtain ⟨as, fs, pre', rfl, hcleared, h⟩ := Chain.operands_cleared pre hn h hr
    have hn' : (pre' ++ x :: post).length = t.arity := by simpa [hcleared.length] using hn
    obtain ⟨fs, ds, y, rfl, hchain, hy, hrest⟩ := h.operand_cleared hn' hcleared.clear hr
    obtain ⟨bs, gs, cs, d, rfl, hsub, hd, hothers⟩ := ih hxc hchain hy
    rw [hcleared.length, Location.child, List.append_assoc, List.singleton_append] at hsub
    refine ⟨as ++ bs, gs, cs ++ ds, d, by simp, hsub, hd, ?_⟩
    -- the same rounds around the subtree that is cleared already
    have hset : t.set (pre.length :: p) d = t.withChildren (pre ++ x.set p d :: post) := by
      have h := Node.set_withChildren_append hn p d
      rwa [ht] at h
    have hbefore := hcleared.chain (x.set p d :: post) (by simpa using hn)
    have hothers := hothers.inOperand (by simpa using hn') hcleared.clear
    rw [hset, List.append_assoc, ← List.append_assoc bs]
    exact hbefore.append (hothers.append hrest)

/-! ### Sessions -/

namespace Session

/-- **Any subtree may be normalised first.**  When a session under the fixpoint strategy
saturates, one on any subtree alone saturates within the same limit, and so does one on the
tree with that subtree replaced by its result, which comes to the same tree.  The rewrites of
the two are those of the one: at some point it makes those of the subtree, under its
location, and before and after it makes the others, so the counts of all rewrites and of
those of each rule add up. -/
theorem run_subtree_first (rules : RuleSet) (limit : Nat) {t c : Node} {p : Location}
    (hc : t.at? p = some c) (h : (run ⟨limit, .fixpoint⟩ rules t).ending = .stopped .saturated) :
    let whole := run ⟨limit, .fixpoint⟩ rules t
    let part := run ⟨limit, .fixpoint⟩ rules c
    let rest := run ⟨limit, .fixpoint⟩ rules (t.set p part.after)
    part.ending = .stopped .saturated ∧ rest.ending = .stopped .saturated ∧
      rest.after = whole.after ∧
      (∃ as bs, whole.firings = as ++ part.firings.map (Firing.under p) ++ bs ∧
        rest.firings = as ++ bs) ∧
      whole.rewrites = part.rewrites + rest.rewrites ∧
      ∀ name, whole.fired name = part.fired name + rest.fired name := by
  intro whole part rest
  obtain ⟨hchain, hwithin, hclear⟩ := run_saturated_iff.mp ⟨rfl, rfl, h⟩
  obtain ⟨as, _, bs, d, hfirings, hbelow, hd, hothers⟩ := hchain.subtree_first hc hclear
  obtain ⟨gs, hsub, rfl⟩ := hbelow.from_root
  have hlength : whole.rewrites = gs.length + (as ++ bs).length := by
    rw [rewrites, hfirings]
    simp
    omega
  have hwithin : whole.rewrites ≤ limit := hwithin
  obtain ⟨hpart, hpartFirings, hpartEnding⟩ :
      part.after = d ∧ part.firings = gs ∧ part.ending = .stopped .saturated :=
    run_saturated_iff.mpr ⟨hsub, by omega, hd⟩
  rw [← hpart] at hothers
  obtain ⟨hrest, hrestFirings, hrestEnding⟩ :
      rest.after = whole.after ∧ rest.firings = as ++ bs ∧ rest.ending = .stopped .saturated :=
    run_saturated_iff.mpr ⟨hothers, by omega, hclear⟩
  refine ⟨hpartEnding, hrestEnding, hrest, ⟨as, bs, ?_, hrestFirings⟩, ?_, ?_⟩
  · rw [hpartFirings]
    exact hfirings
  · rw [hlength, ← hpartFirings, ← hrestFirings]
    rfl
  · intro name
    rw [fired, fired, fired, hfirings, hpartFirings, hrestFirings]
    simp only [List.countP_append, Firing.countP_under]
    omega

/-- Of four negations the inner pair cancels first; below the outermost negation it is the
only one, and the outer pair remains. -/
theorem run_subtree_first_negations :
    let rules := RuleSet.ofList [Logic.notNot]
    let whole := run ⟨2, .fixpoint⟩ rules (.not (.not (.not (.not (.bool true)))))
    let part := run ⟨2, .fixpoint⟩ rules (.not (.not (.not (.bool true))))
    let rest := run ⟨2, .fixpoint⟩ rules (.not part.after)
    whole.ending = .stopped .saturated ∧ part.ending = .stopped .saturated ∧
      rest.after = whole.after ∧ whole.rewrites = part.rewrites + rest.rewrites := by
  intro rules whole part rest
  have hend : whole.ending = .stopped .saturated := (passesFrom_fixpoint _ 2 _).2.2
  obtain ⟨hpart, -, hafter, -, hrewrites, -⟩ :=
    run_subtree_first rules 2 (p := [0]) (c := .not (.not (.not (.bool true)))) rfl hend
  exact ⟨hend, hpart, hafter, hrewrites⟩

end Session

end TreeRewriting
