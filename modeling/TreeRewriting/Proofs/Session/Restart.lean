/-
TreeRewriting/Proofs/Session/Restart.lean

Rewriting by starting over.

Design.  The plainest way to rewrite a tree looks for the first location, in
the order of `Node.locations`, at which some rule matches, applies the first
matching rule there, and starts over with the whole tree.  Such a place is a
`Redex`; `restart` is the loop, with a budget.

A chain (`Chain`) is a number of rounds of this loop in a row.  What the later
proofs use of it is that the loop works on one operand at a time: as long as
nothing matches in the operands before it, a chain in an operand is a chain of
the whole tree (`Chain.inOperand`), and once nothing matches in any operand it
is the node itself that counts (`firstRedex?_of_operands_clear`).
-/
import TreeRewriting.Session

namespace TreeRewriting

/-! ### Redexes -/

/-- A place where a rule applies: a location, the subtree there, and the first rule that
matches it with the binding it is found at. -/
structure Redex where
  location : Location
  subtree : Node
  rule : Rule
  binding : Binding

namespace Redex

/-- What the action of the rule leaves behind. -/
def outcome (x : Redex) : Outcome := x.rule.rewrite x.subtree x.binding

/-- The rewrite as it is recorded when the tree hangs at a location. -/
def firing (x : Redex) (here : Location) : Firing :=
  ⟨x.rule.name, here ++ x.location, x.subtree, x.outcome.journal⟩

/-- The tree with the subtree rewritten. -/
def contract (x : Redex) (n : Node) : Node := n.set x.location x.outcome.tree

/-- The redex that is the whole tree. -/
def whole (n : Node) (e : Rule × Binding) : Redex := ⟨[], n, e.1, e.2⟩

/-- The redex of an operand, seen from the node above. -/
def below (x : Redex) (i : Nat) : Redex := { x with location := i :: x.location }

theorem firing_below (x : Redex) (here : Location) (i : Nat) :
    (x.below i).firing here = x.firing (here.child i) := by
  simp [firing, below, Location.child, outcome]

theorem firing_whole (here : Location) (n : Node) (e : Rule × Binding) :
    (whole n e).firing here = ⟨e.1.name, here, n, (e.1.rewrite n e.2).journal⟩ := by
  simp [firing, whole, outcome]

theorem contract_whole (n : Node) (e : Rule × Binding) :
    (whole n e).contract n = (e.1.rewrite n e.2).tree := rfl

end Redex

namespace RuleSet

variable (rules : RuleSet)

/-- The redex at a location, if some rule matches there. -/
def redexAt? (n : Node) (p : Location) : Option Redex :=
  (n.at? p).bind fun m => (rules.firstMatch? m).map fun e => ⟨p, m, e.1, e.2⟩

/-- The redex at the first location at which some rule matches. -/
def firstRedex? (n : Node) : Option Redex := n.locations.findSome? (rules.redexAt? n)

end RuleSet

/-! ### The loop -/

/-- What the loop leaves behind: the tree, the rewrites in their order, and how it ended. -/
structure Restart where
  after : Node
  firings : List Firing
  ending : Ending

namespace Restart

/-- How often the rules of a name fired. -/
def fired (r : Restart) (name : String) : Nat := r.firings.countP (·.rule == name)

/-- The same with earlier rewrites in front. -/
def prepend (fs : List Firing) (r : Restart) : Restart := { r with firings := fs ++ r.firings }

end Restart

/-- Rewrites the first redex of the tree and starts over, until nothing matches, an action
ends in a fault, or a rule still matches after so many rewrites. -/
def restart (rules : RuleSet) (budget : Nat) (n : Node) : Restart :=
  match rules.firstRedex? n with
  | none => ⟨n, [], .stopped .saturated⟩
  | some x =>
    match budget with
    | 0 => ⟨n, [], .stopped .iterationLimit⟩
    | budget + 1 =>
      match x.outcome.fault with
      | some e => ⟨x.contract n, [], .faulted (x.firing []) e⟩
      | none => (restart rules budget (x.contract n)).prepend [x.firing []]

/-- A tree in which nothing matches is left as it is. -/
theorem restart_of_clear {rules : RuleSet} {n : Node} (h : rules.firstRedex? n = none)
    (budget : Nat) : restart rules budget n = ⟨n, [], .stopped .saturated⟩ := by
  rw [restart, h]

theorem restart_of_fault {rules : RuleSet} {n : Node} {x : Redex} {e : Fault}
    (first : rules.firstRedex? n = some x) (fault : x.outcome.fault = some e) (budget : Nat) :
    restart rules (budget + 1) n = ⟨x.contract n, [], .faulted (x.firing []) e⟩ := by
  rw [restart]
  simp only [first, fault]

/-- One round of the loop, and the loop on the tree that it leaves. -/
theorem restart_of_done {rules : RuleSet} {n : Node} {x : Redex}
    (first : rules.firstRedex? n = some x) (done : x.outcome.fault = none) (budget : Nat) :
    restart rules (budget + 1) n
      = (restart rules budget (x.contract n)).prepend [x.firing []] := by
  rw [restart]
  simp only [first, done]

namespace RuleSet

variable {rules : RuleSet}

/-! ### Redexes of a node and of its operands -/

theorem redexAt?_nil (n : Node) :
    rules.redexAt? n [] = (rules.firstMatch? n).map (Redex.whole n) := rfl

theorem redexAt?_cons {n c : Node} {i : Nat} (hc : n.children[i]? = some c) (p : Location) :
    rules.redexAt? n (i :: p) = (rules.redexAt? c p).map (·.below i) := by
  rw [redexAt?, redexAt?, Node.at?_cons, hc, Option.bind_some]
  rcases c.at? p with - | m
  · rfl
  · rcases h : rules.firstMatch? m with - | e <;> simp [h, Redex.below]

/-- The locations in an operand lead to the first redex of the operand. -/
theorem findSome?_operand {n c : Node} {i : Nat} (hc : n.children[i]? = some c) :
    (c.locations.map (i :: ·)).findSome? (rules.redexAt? n)
      = (rules.firstRedex? c).map (·.below i) := by
  rw [List.findSome?_map, firstRedex?, List.map_findSome?]
  congr 1
  funext p
  exact redexAt?_cons hc p

/-- Operands in which nothing matches lead to no redex. -/
theorem findSome?_operands_clear {n : Node} (pre xs post : List Node)
    (hn : n.children = pre ++ xs ++ post) (h : ∀ x ∈ xs, rules.firstRedex? x = none) :
    (Node.locationsFrom pre.length xs).findSome? (rules.redexAt? n) = none := by
  induction xs generalizing pre with
  | nil => rfl
  | cons x xs ih =>
    have hx : n.children[pre.length]? = some x := by simp [hn]
    have hrest := ih (pre ++ [x]) (by simp [hn]) fun y hy => h y (List.mem_cons_of_mem _ hy)
    rw [Node.locationsFrom, List.findSome?_append, findSome?_operand hx,
      h x List.mem_cons_self]
    simpa using hrest

/-- Where nothing matches in the operands, it is the node itself that counts. -/
theorem firstRedex?_of_operands_clear {n : Node}
    (h : ∀ c ∈ n.children, rules.firstRedex? c = none) :
    rules.firstRedex? n = (rules.firstMatch? n).map (Redex.whole n) := by
  have hclear := findSome?_operands_clear (n := n) [] n.children [] (by simp) h
  rw [firstRedex?, Node.locations_eq, List.findSome?_append]
  rw [List.length_nil] at hclear
  simp [hclear, redexAt?_nil]

/-- The first redex is in the first operand that has one. -/
theorem firstRedex?_of_operand {n c : Node} {x : Redex} {pre post : List Node}
    (hn : n.children = pre ++ c :: post) (hpre : ∀ d ∈ pre, rules.firstRedex? d = none)
    (hx : rules.firstRedex? c = some x) :
    rules.firstRedex? n = some (x.below pre.length) := by
  have hc : n.children[pre.length]? = some c := by simp [hn]
  -- the operands before this one lead to nothing, those behind it come too late
  have hclear := findSome?_operands_clear (n := n) [] pre (c :: post) (by simp [hn]) hpre
  rw [List.length_nil] at hclear
  rw [firstRedex?, Node.locations_eq, hn, Node.locationsFrom_append, Node.locationsFrom]
  simp [List.findSome?_append, hclear, findSome?_operand hc, hx]

end RuleSet

/-! ### Chains -/

/-- Rewriting in an operand changes that operand. -/
theorem Redex.contract_below (x : Redex) {n c : Node} {pre post : List Node}
    (hn : (pre ++ c :: post).length = n.arity) :
    (x.below pre.length).contract (n.withChildren (pre ++ c :: post))
      = n.withChildren (pre ++ x.contract c :: post) :=
  Node.set_withChildren_append hn x.location x.outcome.tree

/-- Rounds of the loop on a tree that hangs at a location, with the rewrites they make. -/
inductive Chain (rules : RuleSet) (here : Location) : Node → List Firing → Node → Prop
  | nil (n : Node) : Chain rules here n [] n
  | cons {n m : Node} {fs : List Firing} {x : Redex} (first : rules.firstRedex? n = some x)
      (done : x.outcome.fault = none) (rest : Chain rules here (x.contract n) fs m) :
      Chain rules here n (x.firing here :: fs) m

namespace Chain

variable {rules : RuleSet} {here : Location}

theorem append {n m o : Node} {fs gs : List Firing} (h : Chain rules here n fs m)
    (h' : Chain rules here m gs o) : Chain rules here n (fs ++ gs) o := by
  induction h with
  | nil => exact h'
  | cons first done _ ih => exact .cons first done (ih h')

/-- Rounds on an operand are rounds on the whole tree, as long as nothing matches in the
operands before it. -/
theorem inOperand {n c d : Node} {pre post : List Node} {fs : List Firing}
    (hn : (pre ++ c :: post).length = n.arity) (hpre : ∀ x ∈ pre, rules.firstRedex? x = none)
    (h : Chain rules (here.child pre.length) c fs d) :
    Chain rules here (n.withChildren (pre ++ c :: post)) fs
      (n.withChildren (pre ++ d :: post)) := by
  induction h with
  | nil => exact .nil _
  | @cons c d fs x first done _ ih =>
    have hfirst := RuleSet.firstRedex?_of_operand (Node.children_withChildren hn) hpre first
    have hrest := ih (by simpa using hn)
    rw [← x.contract_below hn] at hrest
    rw [← x.firing_below]
    exact .cons hfirst done hrest

/-- The loop makes the rounds of a chain first. -/
theorem restart_eq {n m : Node} {fs : List Firing} (h : Chain rules [] n fs m) {budget : Nat}
    (hb : fs.length ≤ budget) :
    restart rules budget n = (restart rules (budget - fs.length) m).prepend fs := by
  induction h generalizing budget with
  | nil => rfl
  | @cons n m fs x first done _ ih =>
    cases budget with
    | zero => simp at hb
    | succ budget =>
      -- one round of the loop, then those of the rest of the chain
      have hb' : fs.length ≤ budget := by simpa using hb
      rw [restart_of_done first done, ih hb']
      simp [Restart.prepend]

end Chain

/-- The loop saturates exactly by a chain, within the budget, to a tree without a redex. -/
theorem restart_saturated_iff {rules : RuleSet} {budget : Nat} {n m : Node} {fs : List Firing} :
    restart rules budget n = ⟨m, fs, .stopped .saturated⟩ ↔
      Chain rules [] n fs m ∧ fs.length ≤ budget ∧ rules.firstRedex? m = none := by
  constructor
  · intro h
    fun_induction restart rules budget n generalizing fs with
    | case1 n budget clear =>
      cases h
      exact ⟨.nil _, Nat.zero_le _, clear⟩
    | case2 => cases h
    | case3 => cases h
    | case4 n x first budget done ih =>
      -- one round, and the loop on the tree it has left
      rcases hrest : restart rules budget (x.contract n) with ⟨o, gs, ending⟩
      rw [hrest] at h
      cases h
      obtain ⟨hchain, hwithin, hclear⟩ := ih hrest
      exact ⟨.cons first done hchain, Nat.succ_le_succ hwithin, hclear⟩
  · rintro ⟨hchain, hwithin, hclear⟩
    rw [hchain.restart_eq hwithin, restart_of_clear hclear]
    simp [Restart.prepend]

end TreeRewriting
