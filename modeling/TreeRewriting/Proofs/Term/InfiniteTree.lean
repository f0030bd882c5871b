/-
TreeRewriting/Proofs/Term/InfiniteTree.lean

What a term denotes.

Design.  An infinite tree is a partial labelling of positions, a position being
the list of argument indices on the way down.  At a position stands a free
variable or a symbol with the number of its arguments, and the arguments are
exactly as many as that number says; both are part of the type.  So a tree need
not end, and two trees are equal when they are labelled alike.

Under an assignment of trees to variables a term denotes a tree (`denote`).
Under an assignment of terms it becomes another term (`subst`).  The second is
a case of the first: a term is the tree it writes down (`tree`), no two terms
write down the same one (`tree_injective`), and putting terms for variables
means putting their trees (`tree_subst`).
-/
import TreeRewriting.Term

namespace TreeRewriting

/-! ### Infinite trees -/

/-- What stands at a position of a tree. -/
inductive Mark where
  | var (v : Nat)
  | symbol (f : String) (arity : Nat)

/-- A possibly infinite tree: a labelling of positions in which the root is labelled, and a
further position exactly when it is an argument of a symbol. -/
@[ext]
structure InfiniteTree where
  label : List Nat → Option Mark
  rooted : (label []).isSome
  branching : ∀ p i, (label (p ++ [i])).isSome ↔ ∃ f n, label p = some (.symbol f n) ∧ i < n

namespace InfiniteTree

/-- The tree that is a free variable. -/
def var (v : Nat) : InfiniteTree where
  label p := if p = [] then some (.var v) else none
  rooted := by simp
  branching p i := by by_cases h : p = [] <;> simp [h]

/-- The labels of a symbol over arguments. -/
def nodeLabel (f : String) (ts : List InfiniteTree) : List Nat → Option Mark
  | [] => some (.symbol f ts.length)
  | i :: p => ts[i]?.bind (·.label p)

/-- Below a symbol there is an argument at every index up to their number, when all of them
have a root. -/
theorem branching_symbol {α : Type} {root : α → Option Mark} (hroot : ∀ a, (root a).isSome)
    (f : String) (as : List α) (i : Nat) :
    (as[i]?.bind root).isSome
      ↔ ∃ g n, some (Mark.symbol f as.length) = some (.symbol g n) ∧ i < n := by
  constructor
  · intro h
    obtain ⟨m, hm⟩ := Option.isSome_iff_exists.mp h
    obtain ⟨a, ha, -⟩ := Option.bind_eq_some_iff.mp hm
    exact ⟨f, as.length, rfl, (List.getElem?_eq_some_iff.mp ha).1⟩
  · rintro ⟨g, n, e, hi⟩
    obtain ⟨rfl, rfl⟩ := Mark.symbol.inj (Option.some.inj e)
    rw [List.getElem?_eq_getElem hi]
    exact hroot _

theorem branching_nodeLabel (f : String) (ts : List InfiniteTree) (p : List Nat) (i : Nat) :
    (nodeLabel f ts (p ++ [i])).isSome
      ↔ ∃ g n, nodeLabel f ts p = some (.symbol g n) ∧ i < n := by
  cases p with
  | nil => exact branching_symbol InfiniteTree.rooted f ts i
  | cons j p =>
    rcases h : ts[j]? with - | t
    · simp [nodeLabel, h]
    · simpa [nodeLabel, h] using t.branching p i

/-- The tree with a symbol at the root, over arguments. -/
def node (f : String) (ts : List InfiniteTree) : InfiniteTree where
  label := nodeLabel f ts
  rooted := by simp [nodeLabel]
  branching := branching_nodeLabel f ts

@[simp] theorem label_node_nil (f : String) (ts : List InfiniteTree) :
    (node f ts).label [] = some (.symbol f ts.length) := rfl

@[simp] theorem label_node_cons (f : String) (ts : List InfiniteTree) (i : Nat) (p : List Nat) :
    (node f ts).label (i :: p) = ts[i]?.bind (·.label p) := rfl

/-- A tree tells the symbol at its root and the arguments below it. -/
theorem node_inj {f g : String} {ss ts : List InfiniteTree} (h : node f ss = node g ts) :
    f = g ∧ ss = ts := by
  have hlabel : ∀ p, (node f ss).label p = (node g ts).label p := by
    intro p
    rw [h]
  have hroot := hlabel []
  simp only [label_node_nil, Option.some.injEq, Mark.symbol.injEq] at hroot
  refine ⟨hroot.1, List.ext_getElem hroot.2 ?_⟩
  intro i hi hi'
  ext p m
  have hp := hlabel (i :: p)
  simp only [label_node_cons, List.getElem?_eq_getElem hi, List.getElem?_eq_getElem hi',
    Option.bind_some] at hp
  rw [hp]

/-- **Coinduction**: trees are equal when they are related by a relation that only relates
equal trees, or one symbol over arguments that are related one by one. -/
theorem eq_of_bisimulation (R : InfiniteTree → InfiniteTree → Prop)
    (hR : ∀ x y, R x y → x = y ∨ ∃ f ss ts, x = node f ss ∧ y = node f ts ∧
      ss.length = ts.length ∧ ∀ p ∈ ss.zip ts, R p.1 p.2)
    {x y : InfiniteTree} (h : R x y) : x = y := by
  apply InfiniteTree.ext
  funext p
  -- the relation goes along from a position to the argument below it
  induction p generalizing x y with
  | nil =>
    rcases hR x y h with rfl | ⟨f, ss, ts, rfl, rfl, hlen, -⟩
    · rfl
    · rw [label_node_nil, label_node_nil, hlen]
  | cons i p ih =>
    rcases hR x y h with rfl | ⟨f, ss, ts, rfl, rfl, hlen, hargs⟩
    · rfl
    · rw [label_node_cons, label_node_cons]
      by_cases hi : i < ss.length
      · have hi' : i < ts.length := hlen ▸ hi
        have hs := List.getElem?_eq_getElem hi
        have ht := List.getElem?_eq_getElem hi'
        have hmem : (ss[i], ts[i]) ∈ ss.zip ts :=
          List.mem_of_getElem? (List.getElem?_zip_eq_some.mpr ⟨hs, ht⟩)
        rw [hs, ht]
        exact ih (hargs _ hmem)
      · rw [List.getElem?_eq_none (by omega), List.getElem?_eq_none (by omega)]

end InfiniteTree

namespace Term

/-! ### Terms under an assignment -/

mutual

/-- The tree that a term denotes when its variables stand for trees. -/
def denote (ρ : Nat → InfiniteTree) : Term → InfiniteTree
  | .var v => ρ v
  | .app f ts => .node f (denoteList ρ ts)

/-- The trees that a list of terms denotes. -/
def denoteList (ρ : Nat → InfiniteTree) : List Term → List InfiniteTree
  | [] => []
  | t :: ts => denote ρ t :: denoteList ρ ts

end

mutual

/-- The term with terms put for its variables. -/
def subst (θ : Nat → Term) : Term → Term
  | .var v => θ v
  | .app f ts => .app f (substList θ ts)

/-- The terms of a list with terms put for their variables. -/
def substList (θ : Nat → Term) : List Term → List Term
  | [] => []
  | t :: ts => subst θ t :: substList θ ts

end

@[simp] theorem denote_var (ρ : Nat → InfiniteTree) (v : Nat) : (var v).denote ρ = ρ v := rfl

theorem denote_app (ρ : Nat → InfiniteTree) (f : String) (ts : List Term) :
    (app f ts).denote ρ = .node f (ts.map (denote ρ)) := by
  have hlist : denoteList ρ ts = ts.map (denote ρ) := by
    induction ts with
    | nil => rfl
    | cons t ts ih => simp [denoteList, ih]
  rw [denote, hlist]

theorem subst_app (θ : Nat → Term) (f : String) (ts : List Term) :
    (app f ts).subst θ = .app f (ts.map (subst θ)) := by
  have hlist : substList θ ts = ts.map (subst θ) := by
    induction ts with
    | nil => rfl
    | cons t ts ih => simp [substList, ih]
  rw [subst, hlist]

theorem denote_subst (ρ : Nat → InfiniteTree) (θ : Nat → Term) (t : Term) :
    (t.subst θ).denote ρ = t.denote fun v => (θ v).denote ρ := by
  induction t with
  | var v => rfl
  | app f ts ih =>
    rw [subst_app, denote_app, denote_app, List.map_map]
    congr 1
    exact List.map_congr_left ih

section

variable (θ : Nat → Term) {v : Nat} {f : String} {t : Term} {ts : List Term}

/-- What an argument becomes is smaller than what the application becomes. -/
theorem size_subst_lt (h : t ∈ ts) : (t.subst θ).size < ((app f ts).subst θ).size := by
  have hle : (t.subst θ).size ≤ sizeList (ts.map (subst θ)) :=
    size_le_sizeList (List.mem_map_of_mem h)
  rw [subst_app, size]
  omega

/-- What is put for a variable is no larger than what a term with the variable becomes. -/
theorem size_le_size_subst (h : v ∈ t.vars) : (θ v).size ≤ (t.subst θ).size := by
  induction t with
  | var w =>
    obtain rfl := mem_vars_var.mp h
    exact Nat.le_refl _
  | app f ts ih =>
    obtain ⟨t, ht, hv⟩ := mem_vars_app.mp h
    exact Nat.le_trans (ih t ht hv) (Nat.le_of_lt (size_subst_lt θ ht))

/-- It is smaller than what an application with the variable becomes. -/
theorem size_lt_size_subst (h : v ∈ (app f ts).vars) :
    (θ v).size < ((app f ts).subst θ).size := by
  obtain ⟨t, ht, hv⟩ := mem_vars_app.mp h
  exact Nat.lt_of_le_of_lt (size_le_size_subst θ hv) (size_subst_lt θ ht)

end

/-! ### Terms as trees -/

/-- The tree that a term writes down. -/
def tree (t : Term) : InfiniteTree := t.denote InfiniteTree.var

theorem tree_subst (θ : Nat → Term) (t : Term) :
    (t.subst θ).tree = t.denote fun v => (θ v).tree :=
  denote_subst _ θ t

/-- Lists are equal whose images are, under a function that tells their members apart. -/
theorem eq_of_map_eq {α β : Type} {f : α → β} {as bs : List α}
    (hf : ∀ a ∈ as, ∀ b, f a = f b → a = b) (h : as.map f = bs.map f) : as = bs := by
  induction as generalizing bs with
  | nil => simpa using h.symm
  | cons a as ih =>
    cases bs with
    | nil => simp at h
    | cons b bs =>
      rw [List.map_cons, List.map_cons] at h
      obtain ⟨hab, hrest⟩ := List.cons.inj h
      rw [hf a List.mem_cons_self b hab,
        ih (fun x hx => hf x (List.mem_cons_of_mem _ hx)) hrest]

/-- No two terms write down the same tree. -/
theorem tree_injective {a b : Term} (h : a.tree = b.tree) : a = b := by
  induction a generalizing b with
  | var v =>
    have hroot : ((var v).tree).label [] = b.tree.label [] := by rw [h]
    cases b with
    | var w =>
      simp only [tree, denote_var, InfiniteTree.var] at hroot
      simpa using hroot
    | app g ts =>
      rw [tree, tree, denote_app] at hroot
      simp [InfiniteTree.var] at hroot
  | app f ss ih =>
    cases b with
    | var w =>
      have hroot : ((app f ss).tree).label [] = (var w).tree.label [] := by rw [h]
      rw [tree, tree, denote_app] at hroot
      simp [InfiniteTree.var] at hroot
    | app g ts =>
      rw [tree, tree, denote_app, denote_app] at h
      obtain ⟨rfl, hargs⟩ := InfiniteTree.node_inj h
      rw [eq_of_map_eq (fun s hs _ => ih s hs) hargs]

end Term

end TreeRewriting
