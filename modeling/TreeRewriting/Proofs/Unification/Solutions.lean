/-
TreeRewriting/Proofs/Unification/Solutions.lean

Unification keeps the set of solutions.

Design.  A solution is an assignment of infinite trees to variables under which
both terms of every pair denote the same tree.  One direction is an invariant of
a move: a solution of the pending pairs and the bindings of a state is one of
the next state (`State.Move.solved`), because a tree tells the arguments below
its root.

The other direction cannot go backwards along the run: a pair that was met
before is dropped, and without the occurs check it may have been met above
itself.  Instead every pair that has been met is explained by the bindings and by
pairs that are pending or were met (`State.Explained`).  When nothing is pending
any more the pairs that were met are a bisimulation, up to following bindings,
and so equal trees in every solution of the bindings
(`State.Settled.denote_eq`).

Main result: `equalizes_iff_satisfies`.
-/
import TreeRewriting.Proofs.Term.InfiniteTree
import TreeRewriting.Proofs.Unification.Run

namespace TreeRewriting.Unification

open Relation

/-! ### Solutions -/

/-- Both terms of every pair denote the same tree. -/
def Equalizes (ρ : Nat → InfiniteTree) (pairs : List (Term × Term)) : Prop :=
  ∀ p ∈ pairs, p.1.denote ρ = p.2.denote ρ

/-- Every bound variable stands for what its term denotes. -/
def Satisfies (ρ : Nat → InfiniteTree) (b : Substitution) : Prop :=
  ∀ v t, b.get? v = some t → ρ v = t.denote ρ

variable {ρ : Nat → InfiniteTree}

/-- Following bindings does not change what a term denotes. -/
theorem Satisfies.denote_follow {b : Substitution} (hb : Satisfies ρ b) {t u : Term}
    (h : ReflTransGen b.Follow t u) : t.denote ρ = u.denote ρ := by
  induction h with
  | refl => rfl
  | tail _ h ih =>
    obtain ⟨v, rfl, hv⟩ := h
    rw [ih]
    exact hb v _ hv

theorem Satisfies.denote_chase {b : Substitution} (hb : Satisfies ρ b) (t : Term) :
    (b.chase t).denote ρ = t.denote ρ :=
  (hb.denote_follow (b.follow_chase t)).symm

/-- Where a variable is assigned a term, both denote the same exactly when the variable
stands for what the term denotes. -/
theorem Assigns.denote_eq_iff {a b t : Term} {v : Nat} (h : Assigns a b v t) :
    a.denote ρ = b.denote ρ ↔ ρ v = t.denote ρ := by
  cases h with
  | left => rfl
  | right => exact eq_comm

/-- Lists with equal images in turn have equal images pair by pair. -/
theorem forall_zip_of_map_eq {α : Type} {f : Term → α} {ss ts : List Term}
    (h : ss.map f = ts.map f) : ∀ p ∈ ss.zip ts, f p.1 = f p.2 := by
  rintro ⟨a, b⟩ hp
  obtain ⟨i, hi⟩ := List.mem_iff_getElem?.mp hp
  obtain ⟨ha, hb⟩ := List.getElem?_zip_eq_some.mp hi
  have hmap := congrArg (·[i]?) h
  simpa [ha, hb] using hmap

namespace State

/-- An assignment solves what is bound and what is pending. -/
structure Solved (ρ : Nat → InfiniteTree) (s : State) : Prop where
  bound : Satisfies ρ s.bindings
  pending : Equalizes ρ s.pending

variable {check : Bool} {s s' : State}

/-- The chased terms of the first pair denote the same tree, and the other pairs are
solved. -/
theorem Solved.front {a b a' b' : Term} {rest : List (Term × Term)} (hs : s.Solved ρ)
    (h : s.Front a b a' b' rest) : a'.denote ρ = b'.denote ρ ∧ Equalizes ρ rest := by
  obtain ⟨hp, rfl, rfl⟩ := h
  obtain ⟨hbound, hpending⟩ := hs
  rw [hp] at hpending
  have hab : a.denote ρ = b.denote ρ := hpending (a, b) List.mem_cons_self
  refine ⟨?_, fun p hmem => hpending p (List.mem_cons_of_mem _ hmem)⟩
  rw [hbound.denote_chase, hbound.denote_chase, hab]

/-- A move keeps all solutions. -/
theorem Move.solved (h : Move check s s') (hs : s.Solved ρ) : s'.Solved ρ := by
  cases h with
  | drop front known => exact ⟨hs.bound, (hs.front front).2⟩
  | @bind _ _ _ _ t v _ front new assigns free =>
    obtain ⟨hab, hrest⟩ := hs.front front
    refine ⟨?_, hrest⟩
    intro w u hw
    -- the new binding says what the pair says
    rcases Substitution.get?_insert_cases hw with ⟨rfl, rfl⟩ | hw
    · exact assigns.denote_eq_iff.mp hab
    · exact hs.bound w u hw
  | split front new arity =>
    obtain ⟨hab, hrest⟩ := hs.front front
    rw [Term.denote_app, Term.denote_app] at hab
    -- equal trees have equal arguments
    have hargs := forall_zip_of_map_eq (InfiniteTree.node_inj hab).2
    refine ⟨hs.bound, ?_⟩
    intro p hp
    rcases List.mem_append.mp hp with hp | hp
    · exact hargs p hp
    · exact hrest p hp

/-- Where two applications differ there is no solution. -/
theorem Stuck.not_solved {f g : String} (h : Stuck check s (.symbols f g)) : ¬ s.Solved ρ := by
  cases h with
  | symbols front new differ =>
    intro hs
    obtain ⟨hab, -⟩ := hs.front front
    rw [Term.denote_app, Term.denote_app] at hab
    obtain ⟨hfg, hargs⟩ := InfiniteTree.node_inj hab
    refine differ ⟨hfg, ?_⟩
    simpa using congrArg List.length hargs

end State

/-- A solution of the pairs of two lists is one of all states to which moves lead. -/
theorem solved_of_moves {check : Bool} {left right : List Term} {s : State}
    (h : Moves check (start left right) s) (hρ : Equalizes ρ (left.zip right)) : s.Solved ρ := by
  induction h with
  | refl =>
    refine ⟨?_, hρ⟩
    intro v t hv
    cases hv
  | tail _ hmove ih => exact hmove.solved ih

/-! ### Pairs that have been met -/

namespace State

/-- The pair is pending, or bindings lead from it to a known pair. -/
def Settled (s : State) (a b : Term) : Prop :=
  (a, b) ∈ s.pending ∨ ∃ a' b', ReflTransGen s.bindings.Follow a a' ∧
    ReflTransGen s.bindings.Follow b b' ∧ s.Known a' b'

/-- Why both terms of a pair are equal: one has been bound to the other, or they are
applications of one symbol to settled arguments. -/
inductive Explained (s : State) : Term → Term → Prop
  | bound {a b t : Term} {v : Nat} (assigns : Assigns a b v t)
      (bound : s.bindings.get? v = some t) : Explained s a b
  | split {f : String} {ss ts : List Term} (arity : ss.length = ts.length)
      (args : ∀ p ∈ ss.zip ts, s.Settled p.1 p.2) : Explained s (.app f ss) (.app f ts)

variable {check : Bool} {s s' : State}

theorem Move.met_subset (h : Move check s s') : s.met ⊆ s'.met := by
  cases h with
  | drop => exact fun _ hp => hp
  | bind => exact List.subset_cons_self _ _
  | split => exact List.subset_cons_self _ _

theorem Move.known_mono (h : Move check s s') {a b : Term} (hk : s.Known a b) : s'.Known a b :=
  hk.imp id fun hm => h.met_subset hm

/-- A move leaves a pair pending, or makes its chased terms a known pair. -/
theorem Move.pending (h : Move check s s') {a b : Term} (hp : (a, b) ∈ s.pending) :
    (a, b) ∈ s'.pending ∨ s'.Known (s.bindings.chase a) (s.bindings.chase b) := by
  cases h with
  | drop front known =>
    obtain ⟨hpending, rfl, rfl⟩ := front
    rw [hpending] at hp
    rcases List.mem_cons.mp hp with e | hp
    · obtain ⟨rfl, rfl⟩ := Prod.mk.inj e
      exact .inr known
    · exact .inl hp
  | bind front new assigns free =>
    obtain ⟨hpending, rfl, rfl⟩ := front
    rw [hpending] at hp
    rcases List.mem_cons.mp hp with e | hp
    · obtain ⟨rfl, rfl⟩ := Prod.mk.inj e
      exact .inr (.inr List.mem_cons_self)
    · exact .inl hp
  | split front new arity =>
    obtain ⟨hpending, ha, hb⟩ := front
    rw [hpending] at hp
    rcases List.mem_cons.mp hp with e | hp
    · obtain ⟨rfl, rfl⟩ := Prod.mk.inj e
      rw [ha, hb]
      exact .inr (.inr List.mem_cons_self)
    · exact .inl (List.mem_append_right _ hp)

/-- What is settled stays so. -/
theorem Move.settled (h : Move check s s') (hs : s.bindings.NoAliasCycle) {a b : Term}
    (hab : s.Settled a b) : s'.Settled a b := by
  have hfollow : ∀ t u, ReflTransGen s.bindings.Follow t u → ReflTransGen s'.bindings.Follow t u :=
    ReflTransGen.mono fun _ _ hf => hf.mono (h.le hs)
  rcases hab with hp | ⟨a', b', ha, hb, hk⟩
  · rcases h.pending hp with hp | hk
    · exact .inl hp
    · exact .inr ⟨_, _, hfollow _ _ (s.bindings.follow_chase a),
        hfollow _ _ (s.bindings.follow_chase b), hk⟩
  · exact .inr ⟨a', b', hfollow _ _ ha, hfollow _ _ hb, h.known_mono hk⟩

theorem Move.explained_mono (h : Move check s s') (hs : s.bindings.NoAliasCycle) {a b : Term}
    (hab : s.Explained a b) : s'.Explained a b := by
  cases hab with
  | bound assigns bound => exact .bound assigns (h.le hs _ _ bound)
  | split arity args => exact .split arity fun p hp => h.settled hs (args p hp)

/-- A move explains the pair it meets. -/
theorem Move.explained (h : Move check s s') (hs : s.bindings.NoAliasCycle)
    (hmet : ∀ p ∈ s.met, s.Explained p.1 p.2) : ∀ p ∈ s'.met, s'.Explained p.1 p.2 := by
  have hold : ∀ p ∈ s.met, s'.Explained p.1 p.2 := by
    intro p hp
    exact h.explained_mono hs (hmet p hp)
  cases h with
  | drop => exact hold
  | bind front new assigns free =>
    intro p hp
    rcases List.mem_cons.mp hp with rfl | hp
    · exact .bound assigns (by simp)
    · exact hold p hp
  | split front new arity =>
    intro p hp
    rcases List.mem_cons.mp hp with rfl | hp
    · exact .split arity fun q hq => .inl (List.mem_append_left _ hq)
    · exact hold p hp

/-- When nothing is pending any more, settled pairs denote the same tree in every solution
of the bindings. -/
theorem Settled.denote_eq (hp : s.pending = []) (hmet : ∀ p ∈ s.met, s.Explained p.1 p.2)
    (hb : Satisfies ρ s.bindings) {a b : Term} (hab : s.Settled a b) :
    a.denote ρ = b.denote ρ := by
  refine InfiniteTree.eq_of_bisimulation
    (fun x y => ∃ a b, s.Settled a b ∧ x = a.denote ρ ∧ y = b.denote ρ) ?_ ⟨a, b, hab, rfl, rfl⟩
  rintro _ _ ⟨a, b, hab, rfl, rfl⟩
  -- nothing is pending, so bindings lead to a pair that is equal or was met
  obtain ⟨a', b', ha, hb', hk⟩ := hab.resolve_left (by simp [hp])
  rw [hb.denote_follow ha, hb.denote_follow hb']
  rcases hk with rfl | hk
  · exact .inl rfl
  · cases hmet _ hk with
    | bound assigns bound => exact .inl (assigns.denote_eq_iff.mpr (hb _ _ bound))
    | @split f ss ts arity args =>
      refine .inr ⟨f, _, _, Term.denote_app _ _ _, Term.denote_app _ _ _, by simpa using arity, ?_⟩
      rintro _ hmem
      rw [List.zip_map, List.mem_map] at hmem
      obtain ⟨q, hq, rfl⟩ := hmem
      exact ⟨q.1, q.2, args q hq, rfl, rfl⟩

end State

/-- Along a run the pairs that have been met are explained, and the pairs of the start are
settled. -/
theorem explained_and_settled_of_moves {check : Bool} {left right : List Term} {s : State}
    (h : Moves check (start left right) s) :
    (∀ p ∈ s.met, s.Explained p.1 p.2) ∧ ∀ p ∈ left.zip right, s.Settled p.1 p.2 := by
  have hstart : (start left right).bindings.NoAliasCycle :=
    Substitution.acyclic_empty.noAliasCycle
  induction h with
  | refl =>
    refine ⟨?_, fun p hp => .inl hp⟩
    intro p hp
    cases hp
  | @tail t u hm hmove ih =>
    have ht := noAliasCycle_of_moves hm hstart
    exact ⟨hmove.explained ht ih.1, fun p hp => hmove.settled ht (ih.2 p hp)⟩

/-! ### The solutions of the bindings -/

/-- **Unification keeps the set of solutions**: the assignments under which two lists denote
the same trees are those that satisfy the bindings in which a run ends. -/
theorem equalizes_iff_satisfies {check : Bool} {left right : List Term} {s : State}
    (h : Moves check (start left right) s) (hp : s.pending = []) :
    Equalizes ρ (left.zip right) ↔ Satisfies ρ s.bindings := by
  obtain ⟨hmet, hsettled⟩ := explained_and_settled_of_moves h
  constructor
  · intro hρ
    exact (solved_of_moves h hρ).bound
  · intro hb p hmem
    exact (hsettled p hmem).denote_eq hp hmet hb

end TreeRewriting.Unification
