/-
TreeRewriting/Proofs/Pattern/Grammar.lean

The texts that are read as patterns.

Design.  A shape is written with the words of `Shape.words`: labels, and around
and between the shapes of a group marks.  A text stands for a shape if it
consists of these words with any blanks around them, every label can be one, and
no two labels are the same.

The reader takes a token in four situations (`Reads`), and what has been read
can be told from it: the groups that are open and the shape at hand are made of
just the words that were taken (`ReadsAll.words`), with just their labels.  So a
text that is read to its end stands for the shape that comes out.  That a text
standing for a shape is read is by induction on the shape (`readsAll_words`),
from any state that expects a position.

Main result: `parse_exact`.
-/
import Mathlib.Data.List.Nodup
import TreeRewriting.Proofs.Pattern.Flattening
import TreeRewriting.Proofs.Pattern.Lexing

namespace TreeRewriting

namespace Shape

/-! ### How a shape is written -/

mutual

/-- The labels of a shape, in the order in which they are written. -/
def labels : Shape → List String
  | leaf l => [l]
  | group l _ s ss => l :: (labels s ++ labelsList ss)

/-- The labels of a list of shapes. -/
def labelsList : List Shape → List String
  | [] => []
  | s :: ss => labels s ++ labelsList ss

end

mutual

/-- The words of a shape: its label and, if it has a group, the words of the shapes listed,
with commas between and marks around them. -/
def words : Shape → List (List Char)
  | leaf l => [l.toList]
  | group l o s ss => l.toList :: [o.opening] :: (words s ++ (wordsRest ss ++ [[o.closing]]))

/-- The words of further shapes of a group. -/
def wordsRest : List Shape → List (List Char)
  | [] => []
  | s :: ss => [','] :: (words s ++ wordsRest ss)

end

/-- Every label can be one, and no two are the same. -/
structure WellLabelled (t : Shape) : Prop where
  valid : ∀ l ∈ t.labels, Pattern.IsLabel l.toList
  nodup : t.labels.Nodup

end Shape

namespace Pattern

open Shape (words wordsRest labels labelsList)

/-! ### What the reader takes -/

/-- The shape that has been read, if there is one at hand. -/
def Expecting.shape? : Expecting → Option Shape
  | .position => none
  | .afterLabel l => some (.leaf l)
  | .afterShape s => some s

@[simp] theorem Expecting.shape?_position : Expecting.position.shape? = none := rfl

@[simp] theorem Expecting.shape?_afterLabel (l : String) :
    (Expecting.afterLabel l).shape? = some (.leaf l) := rfl

@[simp] theorem Expecting.shape?_afterShape (s : Shape) :
    (Expecting.afterShape s).shape? = some s := rfl

/-- The label of a token. -/
def Token.label? : Token → Option String
  | .label c w => some (String.ofList (c :: w))
  | _ => none

/-- The reader takes a token: a new label where a position is expected, the opening mark of
a group behind a label, and behind a shape in a group a comma or the group's closing mark. -/
inductive Reads : Reader → Token → Reader → Prop where
  | label {L : List String} {G : List OpenGroup} {c : Char} {w : List Char}
      (hnew : String.ofList (c :: w) ∉ L) :
      Reads ⟨L, G, .position⟩ (.label c w)
        ⟨String.ofList (c :: w) :: L, G, .afterLabel (String.ofList (c :: w))⟩
  | opening {L : List String} {G : List OpenGroup} {l : String} {o : Order} :
      Reads ⟨L, G, .afterLabel l⟩ (.opening o) ⟨L, ⟨l, o, []⟩ :: G, .position⟩
  | comma {L : List String} {G : List OpenGroup} {g : OpenGroup} {e : Expecting} {s : Shape}
      (hs : e.shape? = some s) :
      Reads ⟨L, g :: G, e⟩ .comma ⟨L, { g with read := s :: g.read } :: G, .position⟩
  | closing {L : List String} {G : List OpenGroup} {g : OpenGroup} {e : Expecting} {s : Shape}
      (hs : e.shape? = some s) :
      Reads ⟨L, g :: G, e⟩ (.closing g.order) ⟨L, G, .afterShape (g.close s)⟩

/-- The reader takes tokens one after the other. -/
inductive ReadsAll : Reader → List Token → Reader → Prop where
  | nil {r : Reader} : ReadsAll r [] r
  | cons {r r₁ r' : Reader} {t : Token} {ts : List Token} (h : Reads r t r₁)
      (hs : ReadsAll r₁ ts r') : ReadsAll r (t :: ts) r'

theorem afterShape_eq_ok_iff {r r' : Reader} {s : Shape} {t : Lexeme} :
    r.afterShape s t = .ok r' ↔ ∃ g G, r.groups = g :: G ∧
      (t.token = .comma ∧ r' = ⟨r.labels, { g with read := s :: g.read } :: G, .position⟩ ∨
        t.token = .closing g.order ∧ r' = ⟨r.labels, G, .afterShape (g.close s)⟩) := by
  obtain ⟨t, offset⟩ := t
  obtain ⟨L, G, e⟩ := r
  rcases G with - | ⟨g, G⟩
  · simp [Reader.afterShape]
  cases t with
  | comma => simp [Reader.afterShape, eq_comm]
  | closing o =>
    by_cases ho : o = g.order
    · simp [Reader.afterShape, ho, eq_comm]
    · simp [Reader.afterShape, ho]
  | label c w => simp [Reader.afterShape]
  | opening o => simp [Reader.afterShape]
  | stray c => simp [Reader.afterShape]

theorem reads_of_step {r r' : Reader} {t : Lexeme} (h : r.step t = .ok r') :
    Reads r t.token r' := by
  obtain ⟨t, offset⟩ := t
  obtain ⟨L, G, e⟩ := r
  have behind : ∀ s, e.shape? = some s →
      Reader.afterShape ⟨L, G, e⟩ s ⟨t, offset⟩ = .ok r' → Reads ⟨L, G, e⟩ t r' := by
    intro s hs hafter
    obtain ⟨g, G, rfl, ⟨rfl, rfl⟩ | ⟨rfl, rfl⟩⟩ := afterShape_eq_ok_iff.mp hafter
    · exact .comma hs
    · exact .closing hs
  cases e with
  | position =>
    cases t with
    | label c w =>
      simp only [Reader.step] at h
      split_ifs at h with hl
      obtain rfl := Except.ok.inj h
      exact .label hl
    | closing o =>
      simp only [Reader.step] at h
      rcases G with - | ⟨g, G⟩
      · simp at h
      · dsimp only at h
        split_ifs at h
    | _ => simp [Reader.step] at h
  | afterLabel l =>
    cases t with
    | opening o =>
      obtain rfl := Except.ok.inj h
      exact .opening
    | _ => exact behind (.leaf l) rfl h
  | afterShape s => exact behind s rfl h

theorem step_of_reads {r r' : Reader} {t : Token} (h : Reads r t r') (offset : Nat) :
    r.step ⟨t, offset⟩ = .ok r' := by
  cases h with
  | label hnew => exact if_neg hnew
  | opening => rfl
  | @comma L G g e s hs =>
    have hafter : Reader.afterShape ⟨L, g :: G, e⟩ s ⟨.comma, offset⟩ = .ok _ :=
      afterShape_eq_ok_iff.mpr ⟨g, G, rfl, .inl ⟨rfl, rfl⟩⟩
    cases e with
    | position => simp [Expecting.shape?] at hs
    | _ =>
      obtain rfl := Option.some.inj hs
      exact hafter
  | @closing L G g e s hs =>
    have hafter : Reader.afterShape ⟨L, g :: G, e⟩ s ⟨.closing g.order, offset⟩ = .ok _ :=
      afterShape_eq_ok_iff.mpr ⟨g, G, rfl, .inr ⟨rfl, rfl⟩⟩
    cases e with
    | position => simp [Expecting.shape?] at hs
    | _ =>
      obtain rfl := Option.some.inj hs
      exact hafter

theorem step_eq_ok_iff {r r' : Reader} {t : Lexeme} : r.step t = .ok r' ↔ Reads r t.token r' :=
  ⟨reads_of_step, fun h => step_of_reads h t.offset⟩

/-- The text may end where no group is open and a shape is at hand. -/
theorem finish_eq_ok_iff {r : Reader} {length : Nat} {s : Shape} :
    r.finish length = .ok s ↔ r.groups = [] ∧ r.expecting.shape? = some s := by
  obtain ⟨L, G, e⟩ := r
  rcases G with - | ⟨g, G⟩
  · cases e <;> simp [Reader.finish, Expecting.shape?]
  · simp [Reader.finish]

theorem readAll_eq_ok_iff {r : Reader} {length : Nat} {ls : List Lexeme} {s : Shape} :
    r.readAll length ls = .ok s ↔
      ∃ r', ReadsAll r (ls.map Lexeme.token) r' ∧ r'.groups = [] ∧ r'.expecting.shape? = some s := by
  induction ls generalizing r with
  | nil =>
    rw [Reader.readAll, finish_eq_ok_iff]
    constructor
    · intro h
      exact ⟨r, .nil, h⟩
    · rintro ⟨r', hr, h⟩
      cases hr
      exact h
  | cons t ts ih =>
    rw [Reader.readAll, List.map_cons]
    constructor
    · intro h
      rcases hstep : r.step t with e | r₁
      · simp [hstep] at h
      · rw [hstep] at h
        obtain ⟨r', hr, hdone⟩ := ih.mp h
        exact ⟨r', .cons (step_eq_ok_iff.mp hstep) hr, hdone⟩
    · rintro ⟨r', hr, hdone⟩
      cases hr with
      | cons h hs =>
        rw [step_eq_ok_iff.mpr h]
        exact ih.mpr ⟨r', hs, hdone⟩

/-- A text is read as a shape if the reader takes all its tokens and may end there. -/
theorem shape_parse_eq_ok_iff {cs : List Char} {s : Shape} :
    Shape.parse cs = .ok s ↔
      ∃ r, ReadsAll .start (tokens cs) r ∧ r.groups = [] ∧ r.expecting.shape? = some s := by
  rw [Shape.parse, tokens]
  rcases lexemes 0 cs with - | ⟨t, ts⟩
  · -- a reader that has taken nothing has no shape at hand
    constructor
    · intro h
      cases h
    · rintro ⟨r, hr, -, hs⟩
      cases hr
      cases hs
  · exact readAll_eq_ok_iff

/-! ### What has been read -/

/-- The words of an open group: what comes before the next shape. -/
def OpenGroup.words (g : OpenGroup) : List (List Char) :=
  g.label.toList :: [g.order.opening] :: g.read.reverse.flatMap fun s => s.words ++ [[',']]

/-- The labels of an open group. -/
def OpenGroup.labels (g : OpenGroup) : List String :=
  g.label :: g.read.reverse.flatMap Shape.labels

/-- The words that have been read. -/
def Reader.words (r : Reader) : List (List Char) :=
  r.groups.reverse.flatMap OpenGroup.words ++ (r.expecting.shape?.map Shape.words).getD []

/-- The labels of what has been read. -/
def Reader.declared (r : Reader) : List String :=
  r.groups.reverse.flatMap OpenGroup.labels ++ (r.expecting.shape?.map Shape.labels).getD []

/-- Commas behind all shapes but the last one are commas before all but the first one. -/
theorem flatMap_words_eq (first s : Shape) (rest : List Shape) :
    (first :: rest).flatMap (fun s => s.words ++ [[',']]) ++ s.words
      = first.words ++ wordsRest (rest ++ [s]) := by
  induction rest generalizing first with
  | nil => simp [wordsRest]
  | cons u rest ih =>
    rw [List.flatMap_cons, List.append_assoc, ih]
    simp [wordsRest]

theorem labelsList_eq_flatMap (ss : List Shape) : labelsList ss = ss.flatMap Shape.labels := by
  induction ss with
  | nil => rfl
  | cons s ss ih => rw [labelsList, List.flatMap_cons, ih]

/-- Closing a group adds the mark to its words. -/
theorem words_close (g : OpenGroup) (s : Shape) :
    (g.close s).words = g.words ++ s.words ++ [[g.order.closing]] := by
  rcases h : g.read.reverse with - | ⟨first, rest⟩
  · simp [OpenGroup.close, OpenGroup.words, words, wordsRest, h]
  · have := flatMap_words_eq first s rest
    simp only [OpenGroup.close, OpenGroup.words, words, h, List.cons_append, List.append_assoc]
    rw [← List.append_assoc (List.flatMap _ _), this, List.append_assoc]

theorem labels_close (g : OpenGroup) (s : Shape) :
    (g.close s).labels = g.labels ++ s.labels := by
  rcases h : g.read.reverse with - | ⟨first, rest⟩
  · simp [OpenGroup.close, OpenGroup.labels, labels, labelsList, h]
  · simp [OpenGroup.close, OpenGroup.labels, labels, labelsList_eq_flatMap, h]

variable {r r' : Reader} {t : Token} {ts : List Token}

/-- A token that is taken adds its word. -/
theorem Reads.words (h : Reads r t r') : r'.words = r.words ++ [t.word] := by
  cases h with
  | label hnew => simp [Reader.words, Shape.words, Token.word]
  | opening =>
    simp [Reader.words, Shape.words, OpenGroup.words, Token.word, Token.head]
  | comma hs => simp [Reader.words, hs, OpenGroup.words, Token.word, Token.head]
  | closing hs =>
    simp [Reader.words, hs, words_close, Token.word, Token.head]

/-- A token that is taken adds its label. -/
theorem Reads.declared (h : Reads r t r') : r'.declared = r.declared ++ t.label?.toList := by
  cases h with
  | label hnew => simp [Reader.declared, Shape.labels, Token.label?]
  | opening => simp [Reader.declared, Shape.labels, OpenGroup.labels, Token.label?]
  | comma hs => simp [Reader.declared, hs, OpenGroup.labels, Token.label?]
  | closing hs => simp [Reader.declared, hs, labels_close, Token.label?]

/-- The reader remembers the labels it takes, last one first, and takes none twice. -/
theorem Reads.labels (h : Reads r t r') : r'.labels = t.label?.toList ++ r.labels := by
  cases h <;> rfl

theorem Reads.nodup (h : Reads r t r') (hr : r.labels.Nodup) : r'.labels.Nodup := by
  cases h with
  | label hnew => exact List.nodup_cons.mpr ⟨hnew, hr⟩
  | _ => exact hr

theorem ReadsAll.words (h : ReadsAll r ts r') : r'.words = r.words ++ ts.map Token.word := by
  induction h with
  | nil => simp
  | cons h _ ih => rw [ih, h.words, List.map_cons, List.append_assoc, List.singleton_append]

theorem ReadsAll.declared (h : ReadsAll r ts r') :
    r'.declared = r.declared ++ ts.filterMap Token.label? := by
  induction h with
  | nil => simp
  | @cons _ _ _ t _ h _ ih =>
    rw [ih, h.declared]
    rcases ht : t.label? with - | l <;> simp [ht]

theorem ReadsAll.labels (h : ReadsAll r ts r') :
    r'.labels = (ts.filterMap Token.label?).reverse ++ r.labels := by
  induction h with
  | nil => simp
  | @cons _ _ _ t _ h _ ih =>
    rw [ih, h.labels]
    rcases ht : t.label? with - | l <;> simp [ht]

theorem ReadsAll.nodup (h : ReadsAll r ts r') (hr : r.labels.Nodup) : r'.labels.Nodup := by
  induction h with
  | nil => exact hr
  | cons h _ ih => exact ih (h.nodup hr)

/-! ### Reading what stands for a shape -/

theorem IsMark.not_isLabel {w : List Char} (h : IsMark w) : ¬ IsLabel w := by
  rintro ⟨c, cs, rfl, hc, -⟩
  obtain ⟨d, hd, heq⟩ := h
  obtain ⟨rfl, -⟩ := List.cons.inj heq
  rw [(separate_of_mem_marks c hd).2.1] at hc
  exact absurd hc (by simp)

theorem isMark_opening (o : Order) : IsMark [o.opening] := ⟨_, by cases o <;> decide, rfl⟩

theorem isMark_closing (o : Order) : IsMark [o.closing] := ⟨_, by cases o <;> decide, rfl⟩

theorem isMark_comma : IsMark [','] := ⟨_, by decide, rfl⟩

theorem mem_wordsRest {ss : List Shape} {w : List Char} (h : w ∈ wordsRest ss) :
    w = [','] ∨ ∃ s ∈ ss, w ∈ s.words := by
  induction ss with
  | nil => simp [wordsRest] at h
  | cons s ss ih =>
    rw [wordsRest, List.mem_cons, List.mem_append] at h
    rcases h with rfl | h | h
    · exact .inl rfl
    · exact .inr ⟨s, List.mem_cons_self, h⟩
    · rcases ih h with rfl | ⟨u, hu, hw⟩
      · exact .inl rfl
      · exact .inr ⟨u, List.mem_cons_of_mem _ hu, hw⟩

/-- The words of a shape are labels and marks. -/
theorem isLabel_or_isMark {s : Shape} (hvalid : ∀ l ∈ s.labels, IsLabel l.toList) :
    ∀ w ∈ s.words, IsLabel w ∨ IsMark w := by
  induction s using Shape.induct with
  | shape s ih =>
    intro w hw
    cases s with
    | leaf l =>
      obtain rfl := List.mem_singleton.mp hw
      exact .inl (hvalid l List.mem_cons_self)
    | group l o first rest =>
      have below : ∀ s ∈ first :: rest, w ∈ s.words → IsLabel w ∨ IsMark w := by
        refine fun s hs hw => ih s hs (fun l hl => hvalid l (List.mem_cons_of_mem _ ?_)) w hw
        have : l ∈ labelsList (first :: rest) := by
          rw [labelsList_eq_flatMap]
          exact List.mem_flatMap.mpr ⟨s, hs, hl⟩
        exact this
      simp only [words, List.mem_cons, List.mem_append, List.not_mem_nil, or_false] at hw
      rcases hw with rfl | rfl | hw | hw | rfl
      · exact .inl (hvalid l List.mem_cons_self)
      · exact .inr (isMark_opening o)
      · exact below first List.mem_cons_self hw
      · rcases mem_wordsRest hw with rfl | ⟨s, hs, hw⟩
        · exact .inr isMark_comma
        · exact below s (List.mem_cons_of_mem _ hs) hw
      · exact .inr (isMark_closing o)

/-- Behind a label there is a mark. -/
theorem isChain_words (s : Shape) {rest : List (List Char)}
    (hrest : rest.IsChain fun w w' => IsLabel w → IsMark w') (hhead : ∀ w ∈ rest.head?, IsMark w) :
    (s.words ++ rest).IsChain fun w w' => IsLabel w → IsMark w' := by
  induction s using Shape.induct generalizing rest with
  | shape s ih =>
    cases s with
    | leaf l => exact List.isChain_cons.mpr ⟨fun w hw _ => hhead w hw, hrest⟩
    | group l o first others =>
      -- behind each of the shapes listed there is a comma or the closing mark
      have further : ∀ ss : List Shape, (∀ s ∈ ss, s ∈ others) →
          (wordsRest ss ++ [o.closing] :: rest).IsChain (fun w w' => IsLabel w → IsMark w') ∧
            ∀ w ∈ (wordsRest ss ++ [o.closing] :: rest).head?, IsMark w := by
        intro ss
        induction ss with
        | nil =>
          intro _
          refine ⟨List.isChain_cons.mpr
            ⟨fun w _ hw => absurd hw (isMark_closing o).not_isLabel, hrest⟩, fun w hw => ?_⟩
          obtain rfl := Option.some.inj hw
          exact isMark_closing o
        | cons u ss ihs =>
          intro hss
          obtain ⟨hchain, hmark⟩ := ihs fun s hs => hss s (List.mem_cons_of_mem _ hs)
          have hu := ih u (List.mem_cons_of_mem _ (hss u List.mem_cons_self)) hchain hmark
          rw [wordsRest, List.cons_append, List.append_assoc]
          refine ⟨List.isChain_cons.mpr
            ⟨fun w _ hw => absurd hw isMark_comma.not_isLabel, hu⟩, fun w hw => ?_⟩
          obtain rfl := Option.some.inj hw
          exact isMark_comma
      obtain ⟨hchain, hmark⟩ := further others fun s hs => hs
      have hfirst := ih first List.mem_cons_self hchain hmark
      have hwords : (Shape.group l o first others).words ++ rest = l.toList :: [o.opening] ::
          (first.words ++ (wordsRest others ++ [o.closing] :: rest)) := by
        simp [words]
      rw [hwords]
      refine List.isChain_cons.mpr ⟨fun w hw _ => ?_, List.isChain_cons.mpr
        ⟨fun w _ hw => absurd hw (isMark_opening o).not_isLabel, hfirst⟩⟩
      obtain rfl := Option.some.inj hw
      exact isMark_opening o

theorem ReadsAll.append {r r₁ r' : Reader} {ts us : List Token} (h : ReadsAll r ts r₁)
    (h' : ReadsAll r₁ us r') : ReadsAll r (ts ++ us) r' := by
  induction h with
  | nil => exact h'
  | cons h _ ih => exact .cons h (ih h')

/-- What the reader expects behind a shape. -/
def Expecting.behind : Shape → Expecting
  | .leaf l => .afterLabel l
  | s => .afterShape s

@[simp] theorem Expecting.shape?_behind (s : Shape) : (behind s).shape? = some s := by
  cases s <;> rfl

theorem Token.ofWord_of_isLabel {l : String} (h : IsLabel l.toList) :
    ∃ c w, Token.ofWord l.toList = .label c w ∧ String.ofList (c :: w) = l := by
  obtain ⟨c, w, hl, hc, -⟩ := h
  refine ⟨c, w, ?_, ?_⟩
  · rw [hl, Token.ofWord, if_pos hc]
  · rw [← hl, String.ofList_toList]

theorem Token.ofWord_mark {c : Char} (hc : c ∈ marks) : Token.ofWord [c] = .ofChar c := by
  rw [Token.ofWord, (separate_of_mem_marks c hc).2.1, if_neg Bool.false_ne_true]

@[simp] theorem Token.ofWord_opening (o : Order) : Token.ofWord [o.opening] = .opening o := by
  rw [Token.ofWord_mark (by cases o <;> decide)]
  cases o <;> rfl

@[simp] theorem Token.ofWord_closing (o : Order) : Token.ofWord [o.closing] = .closing o := by
  rw [Token.ofWord_mark (by cases o <;> decide)]
  cases o <;> rfl

@[simp] theorem Token.ofWord_comma : Token.ofWord [','] = .comma := by
  rw [Token.ofWord_mark (by decide)]
  rfl

theorem close_eq {g : OpenGroup} {s first : Shape} {rest : List Shape}
    (h : g.read.reverse ++ [s] = first :: rest) :
    g.close s = .group g.label g.order first rest := by
  rw [OpenGroup.close]
  rcases hread : g.read.reverse with - | ⟨u, us⟩
  · obtain ⟨rfl, rfl⟩ := List.cons.inj (by simpa [hread] using h)
    rfl
  · obtain ⟨rfl, rfl⟩ := List.cons.inj (by simpa [hread] using h)
    rfl

/-- What has been said of one shape, for the further shapes of a group up to its end. -/
theorem readsAll_wordsRest {l : String} {o : Order} {G : List OpenGroup} {first : Shape}
    {others : List Shape} (ss : List Shape)
    (ih : ∀ s ∈ ss, ∀ (L : List String) (G : List OpenGroup),
      (∀ l ∈ s.labels, IsLabel l.toList) → (s.labels.reverse ++ L).Nodup →
      ReadsAll ⟨L, G, .position⟩ (s.words.map .ofWord) ⟨s.labels.reverse ++ L, G, .behind s⟩)
    (L : List String) (read : List Shape) (s : Shape)
    (hgroup : read.reverse ++ s :: ss = first :: others)
    (hvalid : ∀ l ∈ labelsList ss, IsLabel l.toList)
    (hnodup : ((labelsList ss).reverse ++ L).Nodup) :
    ReadsAll ⟨L, ⟨l, o, read⟩ :: G, .behind s⟩ ((wordsRest ss ++ [[o.closing]]).map .ofWord)
      ⟨(labelsList ss).reverse ++ L, G, .afterShape (.group l o first others)⟩ := by
  induction ss generalizing L read s with
  | nil =>
    have hclose := close_eq (g := ⟨l, o, read⟩) hgroup
    have hread : Reads ⟨L, ⟨l, o, read⟩ :: G, .behind s⟩ (.closing o)
        ⟨L, G, .afterShape (OpenGroup.close ⟨l, o, read⟩ s)⟩ := .closing (Expecting.shape?_behind s)
    rw [hclose] at hread
    simpa [wordsRest, labelsList] using ReadsAll.cons hread .nil
  | cons u ss ihs =>
    rw [labelsList, List.reverse_append, List.append_assoc] at hnodup
    have hcomma : Reads ⟨L, ⟨l, o, read⟩ :: G, .behind s⟩ .comma
        ⟨L, ⟨l, o, s :: read⟩ :: G, .position⟩ := .comma (Expecting.shape?_behind s)
    have hu := ih u List.mem_cons_self L (⟨l, o, s :: read⟩ :: G)
      (fun l hl => hvalid l (List.mem_append_left _ hl)) (List.nodup_append.mp hnodup).2.1
    have hrest := ihs (fun s hs => ih s (List.mem_cons_of_mem _ hs)) (u.labels.reverse ++ L)
      (s :: read) u (by simpa using hgroup) (fun l hl => hvalid l (List.mem_append_right _ hl))
      hnodup
    simpa [wordsRest, labelsList] using (ReadsAll.cons hcomma hu).append hrest

/-- Where a position is expected, the words of a shape with new labels are read as that
shape. -/
theorem readsAll_words (s : Shape) (L : List String) (G : List OpenGroup)
    (hvalid : ∀ l ∈ s.labels, IsLabel l.toList) (hnodup : (s.labels.reverse ++ L).Nodup) :
    ReadsAll ⟨L, G, .position⟩ (s.words.map .ofWord) ⟨s.labels.reverse ++ L, G, .behind s⟩ := by
  induction s using Shape.induct generalizing L G with
  | shape s ih =>
    have hlabel : s.label ∈ s.labels := by cases s <;> exact List.mem_cons_self
    obtain ⟨c, w, hword, hl⟩ := Token.ofWord_of_isLabel (hvalid _ hlabel)
    have hnew : s.label ∉ L := fun hmem =>
      (List.nodup_append.mp hnodup).2.2 _ (List.mem_reverse.mpr hlabel) _ hmem rfl
    have hread : Reads ⟨L, G, .position⟩ (.label c w) ⟨s.label :: L, G, .afterLabel s.label⟩ := by
      have := Reads.label (L := L) (G := G) (c := c) (w := w) (hl ▸ hnew)
      rwa [hl] at this
    rw [← hword] at hread
    cases s with
    | leaf l => exact .cons hread .nil
    | group l o first others =>
      simp only [labels, List.reverse_cons, List.reverse_append, List.append_assoc,
        List.singleton_append] at hnodup
      have hopening : Reads ⟨l :: L, G, .afterLabel l⟩ (.ofWord [o.opening])
          ⟨l :: L, ⟨l, o, []⟩ :: G, .position⟩ := by
        rw [Token.ofWord_opening]
        exact .opening
      have hfirst := ih first List.mem_cons_self (l :: L) (⟨l, o, []⟩ :: G)
        (fun l hl => hvalid l (List.mem_cons_of_mem _ (List.mem_append_left _ hl)))
        (List.nodup_append.mp hnodup).2.1
      have hothers := readsAll_wordsRest (l := l) (o := o) (G := G) others
        (fun s hs => ih s (List.mem_cons_of_mem _ hs)) (first.labels.reverse ++ l :: L) [] first rfl
        (fun l hl => hvalid l (List.mem_cons_of_mem _ (List.mem_append_right _ hl))) hnodup
      simpa [words, labels, Shape.label, Expecting.behind] using
        ReadsAll.cons hread (.cons hopening (hfirst.append hothers))

/-! ### Texts that stand for a shape -/

/-- A text is read as a shape iff it stands for it. -/
theorem shape_parse_eq_ok_iff_spaced {cs : List Char} {t : Shape} :
    Shape.parse cs = .ok t ↔ t.WellLabelled ∧ Spaced t.words cs := by
  rw [shape_parse_eq_ok_iff]
  constructor
  · rintro ⟨r, hreads, hgroups, hshape⟩
    have hwords : t.words = (tokens cs).map Token.word := by
      simpa [Reader.words, Reader.start, hgroups, hshape] using hreads.words
    have hlabels : t.labels = (tokens cs).filterMap Token.label? := by
      simpa [Reader.declared, Reader.start, hgroups, hshape] using hreads.declared
    refine ⟨⟨fun l hl => ?_, ?_⟩, hwords ▸ spaced_tokens cs⟩
    · obtain ⟨u, hu, hlabel⟩ := List.mem_filterMap.mp (hlabels ▸ hl)
      cases u with
      | label c w =>
        obtain rfl := Option.some.inj hlabel
        rw [String.toList_ofList]
        exact isLabel_of_mem_tokens hu
      | _ => simp [Token.label?] at hlabel
    · have hnodup := hreads.nodup .nil
      rwa [hreads.labels, ← hlabels, Reader.start, List.append_nil, List.nodup_reverse] at hnodup
  · rintro ⟨⟨hvalid, hnodup⟩, hspaced⟩
    have htokens : tokens cs = t.words.map Token.ofWord :=
      tokens_of_spaced hspaced (isLabel_or_isMark hvalid) (by
        simpa using isChain_words t .nil (by simp))
    refine ⟨_, htokens ▸ readsAll_words t [] [] hvalid ?_, rfl, Expecting.shape?_behind t⟩
    rwa [List.append_nil, List.nodup_reverse]

/-- Blanks around a text do not change what it is read as. -/
theorem shape_parse_trimBlanks {cs : List Char} {t : Shape} :
    Shape.parse (trimBlanks cs) = .ok t ↔ Shape.parse cs = .ok t := by
  rw [shape_parse_eq_ok_iff, shape_parse_eq_ok_iff, tokens_trimBlanks]

/-- A pattern consists of the shape that its text is read as, and of the text without the
blanks around it. -/
theorem parse_eq_ok_iff {s : String} {p : Pattern} :
    parse s = .ok p ↔ ∃ t, Shape.parse s.toList = .ok t ∧
      p = { text := String.ofList (trimBlanks s.toList), shape := t } := by
  rw [parse]
  rcases Shape.parse s.toList with e | t
  · simp [Except.map]
  · simp [Except.map, eq_comm]

/-- **Exactly the documented grammar is read, and flattened in pre-order.**  A text is a
pattern iff it consists of the words of a shape, with any blanks around them, where every
label can be one and no two are the same.  The positions of the pattern then describe the
nodes of that shape in pre-order, and the pattern's own text is read as the same pattern. -/
theorem parse_exact (s : String) :
    ((∃ p, parse s = .ok p) ↔ ∃ t : Shape, t.WellLabelled ∧ Spaced t.words s.toList) ∧
      ∀ t : Shape, t.WellLabelled → Spaced t.words s.toList →
        ∃ p, parse s = .ok p ∧ t.Flattening p.positions ∧ parse p.text = .ok p := by
  have hread : ∀ t : Shape, t.WellLabelled → Spaced t.words s.toList →
      ∃ p, parse s = .ok p ∧ t.Flattening p.positions ∧ parse p.text = .ok p := by
    intro t hlabels hspaced
    have ht := shape_parse_eq_ok_iff_spaced.mpr ⟨hlabels, hspaced⟩
    refine ⟨_, parse_eq_ok_iff.mpr ⟨t, ht, rfl⟩, t.flattening_positions, ?_⟩
    refine parse_eq_ok_iff.mpr ⟨t, ?_, ?_⟩
    · rwa [String.toList_ofList, shape_parse_trimBlanks]
    · rw [String.toList_ofList, trimBlanks_trimBlanks]
  refine ⟨⟨?_, ?_⟩, hread⟩
  · rintro ⟨p, hp⟩
    obtain ⟨t, ht, -⟩ := parse_eq_ok_iff.mp hp
    exact ⟨t, shape_parse_eq_ok_iff_spaced.mp ht⟩
  · rintro ⟨t, hlabels, hspaced⟩
    obtain ⟨p, hp, -⟩ := hread t hlabels hspaced
    exact ⟨p, hp⟩

end Pattern

end TreeRewriting
