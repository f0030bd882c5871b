/-
TreeRewriting/Proofs/Node/AlphaEquivalence.lean

Equality of trees up to renaming.

Design.  Under the loose reading the tables of the walk hold exactly the pairs
of variables it has met, each table from its own side (`Renaming.Records`).  A
table gives one answer, so pairs that can be exchanged are one to one; and if
they are, no table ever has another answer, so they can be exchanged
(`Renaming.exchange_loose_iff`).

The table from left to right is then the renaming, and a renaming that tells the
variables of the tree apart leaves pairs that are one to one.  Two descriptions
of the same trees come out of this.  The pairs read backwards are one to one as
well, so the trees may change places; and renamings can be made one after the
other.

Main result: `Node.structurallyEqual_exact`.
-/
import Mathlib.Data.List.Zip
import Mathlib.Data.Set.Function
import Mathlib.Logic.Relator
import TreeRewriting.Proofs.Node.Identity

namespace TreeRewriting

namespace Renaming

/-! ### Tables -/

/-- A table that answers as a relation says. -/
def Tabulates (table : List (Nat × Nat)) (R : Nat → Nat → Prop) : Prop :=
  ∀ v w, table.lookup v = some w ↔ R v w

namespace Tabulates

variable {table : List (Nat × Nat)} {R : Nat → Nat → Prop} {v w : Nat}

/-- A table gives one answer. -/
theorem rightUnique (h : Tabulates table R) : Relator.RightUnique R := by
  intro v w w' hw hw'
  exact Option.some.inj (((h v w).mpr hw).symm.trans ((h v w').mpr hw'))

/-- A new entry is one more answer. -/
theorem cons (h : Tabulates table R) (hnew : table.lookup v = none) :
    Tabulates ((v, w) :: table) fun a b => R a b ∨ (a, b) = (v, w) := by
  intro a b
  by_cases ha : a = v
  · subst ha
    have hold : ¬R a b := by
      rw [← h a b, hnew]
      simp
    simp [hold, eq_comm]
  · simp [List.lookup_cons, beq_eq_false_iff_ne.mpr ha, ha, h a b]

end Tabulates

/-! ### Pairs that have been exchanged, and pairs that can be -/

/-- The tables hold exactly these pairs. -/
structure Records (r : Renaming) (ps : List (Nat × Nat)) : Prop where
  forward : Tabulates r.forward fun v w => (v, w) ∈ ps
  backward : Tabulates r.backward fun w v => (v, w) ∈ ps

/-- Under the loose reading two variables are exchanged that are both new, or that have been
exchanged for each other before. -/
theorem matchVars_loose_eq_some {r r' : Renaming} {v w : Nat} :
    r.matchVars false v w = some r' ↔
      r.forward.lookup v = none ∧ r.backward.lookup w = none ∧
          r' = ⟨(v, w) :: r.forward, (w, v) :: r.backward⟩ ∨
        r.forward.lookup v = some w ∧ r.backward.lookup w = some v ∧ r' = r := by
  rcases hv : r.forward.lookup v with - | w' <;> rcases hw : r.backward.lookup w with - | v'
  · simp [matchVars, hv, hw, eq_comm]
  · simp [matchVars, hv, hw]
  · simp [matchVars, hv, hw]
  · simp [matchVars, hv, hw, and_assoc, eq_comm]

namespace Records

variable {r r' : Renaming} {ps qs : List (Nat × Nat)} {v w : Nat}

theorem empty : Records empty [] :=
  ⟨fun _ _ => by simp [Renaming.empty], fun _ _ => by simp [Renaming.empty]⟩

/-- Pairs in tables are one to one. -/
theorem biUnique (h : Records r ps) : Relator.BiUnique fun v w => (v, w) ∈ ps :=
  ⟨fun _ _ _ hv hv' => h.backward.rightUnique hv hv', h.forward.rightUnique⟩

/-- Once two variables have been exchanged, their pair is in the tables. -/
theorem matchVars (h : Records r ps) (hr : r.matchVars false v w = some r') :
    Records r' (ps ++ [(v, w)]) := by
  rcases matchVars_loose_eq_some.mp hr with ⟨hv, hw, rfl⟩ | ⟨hv, -, rfl⟩
  · constructor
    · intro a b
      rw [h.forward.cons hv a b]
      simp
    · intro a b
      rw [h.backward.cons hw a b]
      simp [and_comm]
  · -- their pair was there before
    have hmem : (v, w) ∈ ps := (h.forward v w).mp hv
    have hsame : ∀ p, p ∈ ps ++ [(v, w)] ↔ p ∈ ps := by
      intro p
      rw [List.mem_append, List.mem_singleton, or_iff_left_of_imp]
      rintro rfl
      exact hmem
    exact ⟨fun a b => (h.forward a b).trans (hsame _).symm,
      fun b a => (h.backward b a).trans (hsame _).symm⟩

/-- Two variables can be exchanged whose pair is one to one with those in the tables. -/
theorem exists_matchVars (h : Records r ps)
    (hps : Relator.BiUnique fun a b => (a, b) ∈ ps ++ (v, w) :: qs) :
    ∃ r', r.matchVars false v w = some r' := by
  by_cases hmem : (v, w) ∈ ps
  · have hv := (h.forward v w).mpr hmem
    have hw := (h.backward w v).mpr hmem
    exact ⟨r, matchVars_loose_eq_some.mpr (.inr ⟨hv, hw, rfl⟩)⟩
  · have hnew : (v, w) ∈ ps ++ (v, w) :: qs := by simp
    have hv : r.forward.lookup v = none := by
      rcases hv : r.forward.lookup v with - | w'
      · rfl
      · have hmem' : (v, w') ∈ ps := (h.forward v w').mp hv
        obtain rfl := hps.2 (List.mem_append_left _ hmem') hnew
        exact absurd hmem' hmem
    have hw : r.backward.lookup w = none := by
      rcases hw : r.backward.lookup w with - | v'
      · rfl
      · have hmem' : (v', w) ∈ ps := (h.backward w v').mp hw
        obtain rfl := hps.1 (List.mem_append_left _ hmem') hnew
        exact absurd hmem' hmem
    exact ⟨_, matchVars_loose_eq_some.mpr (.inl ⟨hv, hw, rfl⟩)⟩

/-- Once pairs have been exchanged, they are in the tables. -/
theorem exchange (h : Records r ps) (hr : r.exchange false qs = some r') :
    Records r' (ps ++ qs) := by
  induction qs generalizing r ps with
  | nil =>
    obtain rfl := Option.some.inj hr
    rwa [List.append_nil]
  | cons q qs ih =>
    rw [exchange_cons] at hr
    obtain ⟨r₁, hq, hqs⟩ := Option.bind_eq_some_iff.mp hr
    rw [List.append_cons]
    exact ih (h.matchVars hq) hqs

/-- Pairs can be exchanged that are one to one together with those in the tables. -/
theorem exists_exchange (h : Records r ps)
    (hps : Relator.BiUnique fun v w => (v, w) ∈ ps ++ qs) :
    ∃ r', r.exchange false qs = some r' := by
  induction qs generalizing r ps with
  | nil => exact ⟨r, rfl⟩
  | cons q qs ih =>
    obtain ⟨v, w⟩ := q
    obtain ⟨r₁, hq⟩ := h.exists_matchVars hps
    rw [List.append_cons] at hps
    obtain ⟨r', hqs⟩ := ih (h.matchVars hq) hps
    refine ⟨r', ?_⟩
    rw [exchange_cons, hq]
    exact hqs

end Records

/-- Under the loose reading pairs of variables can be exchanged when they are one to one. -/
theorem exchange_loose_iff {ps : List (Nat × Nat)} :
    (∃ r, empty.exchange false ps = some r) ↔ Relator.BiUnique fun v w => (v, w) ∈ ps := by
  constructor
  · rintro ⟨r, hr⟩
    exact (Records.empty.exchange hr).biUnique
  · intro h
    exact Records.empty.exists_exchange h

end Renaming

/-! ### Trees up to renaming -/

namespace Node

variable {a b c : Node}

/-- Trees are equal up to renaming when they have the same skeleton and their variables are
one to one. -/
theorem structurallyEqual_loose_iff :
    structurallyEqual false a b = true ↔
      a.skeleton = b.skeleton ∧ Relator.BiUnique fun v w => (v, w) ∈ a.vars.zip b.vars := by
  rw [structurallyEqual_iff, Renaming.exchange_loose_iff]

/-- Trees are equal up to renaming when the one is the other renamed by a map that tells the
variables of the other apart. -/
theorem structurallyEqual_loose_iff_rename :
    structurallyEqual false a b = true ↔
      ∃ f : Nat → Nat, Set.InjOn f {v | v ∈ a.vars} ∧ a.rename f = b := by
  rw [structurallyEqual_iff]
  constructor
  · rintro ⟨hskeleton, r, hr⟩
    have hrecords : Renaming.Records r (a.vars.zip b.vars) := Renaming.Records.empty.exchange hr
    -- the renaming is the table from left to right
    have hlookup : ∀ p ∈ a.vars.zip b.vars, (r.forward.lookup p.1).getD 0 = p.2 := by
      intro p hp
      rw [(hrecords.forward p.1 p.2).mpr hp, Option.getD_some]
    refine ⟨fun v => (r.forward.lookup v).getD 0, ?_, rename_eq_iff.mpr ⟨hskeleton, hlookup⟩⟩
    have hfst : (a.vars.zip b.vars).map Prod.fst = a.vars :=
      List.map_fst_zip (Nat.le_of_eq (length_vars_eq hskeleton))
    intro v hv v' hv' heq
    rw [Set.mem_ofPred_eq, ← hfst] at hv hv'
    obtain ⟨p, hp, rfl⟩ := List.mem_map.mp hv
    obtain ⟨q, hq, rfl⟩ := List.mem_map.mp hv'
    have hsnd : p.2 = q.2 := (hlookup p hp).symm.trans (heq.trans (hlookup q hq))
    exact hrecords.biUnique.1 hp (hsnd ▸ hq)
  · rintro ⟨f, hf, hrename⟩
    obtain ⟨hskeleton, hpairs⟩ := rename_eq_iff.mp hrename
    refine ⟨hskeleton, Renaming.exchange_loose_iff.mpr ⟨?_, ?_⟩⟩
    · intro v v' w hv hv'
      have heq : f v = f v' := (hpairs _ hv).trans (hpairs _ hv').symm
      exact hf (List.of_mem_zip hv).1 (List.of_mem_zip hv').1 heq
    · intro v w w' hw hw'
      exact (hpairs _ hw).symm.trans (hpairs _ hw')

theorem structurallyEqual_loose_refl (a : Node) : structurallyEqual false a a = true :=
  structurallyEqual_loose_iff_rename.mpr ⟨id, Set.injOn_id _, a.rename_id⟩

theorem structurallyEqual_loose_symm (h : structurallyEqual false a b = true) :
    structurallyEqual false b a = true := by
  obtain ⟨hskeleton, hleft, hright⟩ := structurallyEqual_loose_iff.mp h
  have hswap : ∀ {v w}, (w, v) ∈ b.vars.zip a.vars → (v, w) ∈ a.vars.zip b.vars := by
    intro v w hmem
    rw [← List.zip_swap] at hmem
    obtain ⟨p, hp, heq⟩ := List.mem_map.mp hmem
    rwa [Prod.swap_eq_iff_eq_swap.mp heq] at hp
  refine structurallyEqual_loose_iff.mpr ⟨hskeleton.symm, ?_, ?_⟩
  · intro w w' v hw hw'
    exact hright (hswap hw) (hswap hw')
  · intro w v v' hv hv'
    exact hleft (hswap hv) (hswap hv')

theorem structurallyEqual_loose_trans (h : structurallyEqual false a b = true)
    (h' : structurallyEqual false b c = true) : structurallyEqual false a c = true := by
  obtain ⟨f, hf, rfl⟩ := structurallyEqual_loose_iff_rename.mp h
  obtain ⟨g, hg, rfl⟩ := structurallyEqual_loose_iff_rename.mp h'
  have hmaps : Set.MapsTo f {v | v ∈ a.vars} {v | v ∈ (a.rename f).vars} := by
    intro v hv
    rw [Set.mem_ofPred_eq, vars_rename]
    exact List.mem_map_of_mem hv
  exact structurallyEqual_loose_iff_rename.mpr
    ⟨g ∘ f, hg.comp hf hmaps, (rename_rename f g a).symm⟩

/-- **Equality of trees is identity, or identity up to renaming.**  Under the strict reading
two trees are equal exactly if they are one tree, and under the loose reading exactly if one
map, which tells the variables of the first tree apart, takes the variables of its expressions
and of its terms to those of the second.  Under either reading equality is an equivalence.
A number is its word here, so a not-a-number is no exception: it is equal to the one with the
same sign and payload, and to no other. -/
theorem structurallyEqual_exact :
    (∀ a b : Node, structurallyEqual true a b = true ↔ b = a) ∧
      (∀ a b : Node, structurallyEqual false a b = true ↔
        ∃ f : Nat → Nat, Set.InjOn f {v | v ∈ a.vars} ∧ a.rename f = b) ∧
      ∀ strict, Equivalence fun a b : Node => structurallyEqual strict a b = true := by
  refine ⟨fun a b => structurallyEqual_strict_iff.trans eq_comm,
    fun a b => structurallyEqual_loose_iff_rename, ?_⟩
  intro strict
  cases strict with
  | false =>
    exact ⟨structurallyEqual_loose_refl, structurallyEqual_loose_symm,
      structurallyEqual_loose_trans⟩
  | true =>
    simp only [structurallyEqual_strict_iff]
    exact eq_equivalence

-- not-a-number against itself, and against the one with the other sign
example :
    structurallyEqual true (.number ⟨0x7ff8000000000000⟩) (.number ⟨0x7ff8000000000000⟩) ∧
      ¬structurallyEqual true (.number ⟨0x7ff8000000000000⟩) (.number ⟨0xfff8000000000000⟩) := by
  decide

end Node

end TreeRewriting
