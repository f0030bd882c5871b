/-
TreeRewriting/Proofs/Pattern/ParseError.lean

Where the text of a pattern goes wrong.

Design.  A text is viable if something can be written behind it so that the
whole is a pattern.  What the reader has taken is viable whatever its state:
where a position is expected a new label is one, behind it the open groups are
closed (`exists_completion`), and a blank keeps the last word of the text apart
from what is added.

The character that an error names is the first one of a token, so the text is
cut in front of that token (`exists_cutBefore`).  If the text went on in another
way behind this character, a label could be longer or shorter, and any other
token would be the same.  That does not help: the reader complains of a label
because no position is expected, whatever the label is (`Token.Alike.not_reads`).

Main result: `parse_error_exact`.
-/
import Mathlib.Data.Set.Finite.Basic
import TreeRewriting.Proofs.Pattern.Grammar

namespace TreeRewriting.Pattern

/-- The text is the beginning of a pattern. -/
def Viable (s : String) : Prop := ∃ (more : String) (p : Pattern), parse (s ++ more) = .ok p

theorem viable_iff {s : String} :
    Viable s ↔ ∃ (more : List Char) (t : Shape), Shape.parse (s.toList ++ more) = .ok t := by
  constructor
  · rintro ⟨more, p, hp⟩
    obtain ⟨t, ht, -⟩ := parse_eq_ok_iff.mp hp
    exact ⟨more.toList, t, by rwa [String.toList_append] at ht⟩
  · rintro ⟨more, t, ht⟩
    refine ⟨String.ofList more, _, parse_eq_ok_iff.mpr ⟨t, ?_, rfl⟩⟩
    rwa [String.toList_append, String.toList_ofList]

/-! ### Bytes -/

theorem byteLength_eq (cs : List Char) : byteLength cs = (String.ofList cs).utf8ByteSize := by
  induction cs with
  | nil => rfl
  | cons c cs ih =>
    have hsplit : String.ofList (c :: cs) = String.singleton c ++ String.ofList cs := by
      rw [String.singleton_eq_ofList, ← String.ofList_append, List.singleton_append]
    rw [byteLength, ih, hsplit, String.utf8ByteSize_append, String.utf8ByteSize_singleton]

theorem byteLength_append (cs ds : List Char) :
    byteLength (cs ++ ds) = byteLength cs + byteLength ds := by
  induction cs with
  | nil => rw [List.nil_append, byteLength, Nat.zero_add]
  | cons c cs ih => rw [List.cons_append, byteLength, ih, byteLength, Nat.add_assoc]

/-! ### Tokens with one beginning -/

/-- Two tokens are the same, or labels with the same first character. -/
inductive Token.Alike : Token → Token → Prop where
  | same (t : Token) : Alike t t
  | label (c : Char) (w w' : List Char) : Alike (.label c w) (.label c w')

@[simp] theorem Token.head_ofChar (c : Char) : (Token.ofChar c).head = c := by
  rw [Token.ofChar]
  split_ifs <;> simp_all [Token.head]

/-- Behind a label no label goes on, whatever comes later. -/
theorem takeWhile_continuesLabel_of_dropWhile {c : Char} {cs pre post : List Char}
    (h : cs.dropWhile continuesLabel = pre ++ c :: post) (more : List Char) :
    pre.takeWhile continuesLabel = [] ∧ (pre ++ c :: more).takeWhile continuesLabel = [] := by
  have hhead : ∀ d ds, cs.dropWhile continuesLabel = d :: ds → continuesLabel d = false := by
    intro d ds hd
    have := List.dropWhile_get_zero_not continuesLabel cs (by simp [hd])
    simpa [hd] using this
  cases pre with
  | nil => simp [hhead c post h]
  | cons d pre => simp [hhead d _ h]

/-- A text that starts at the given offset is cut in front of one of its tokens: the tokens
before it stay, and whatever comes behind its first character, a token alike comes next. -/
structure CutBefore (offset : Nat) (cs : List Char) (before : List Lexeme) (l : Lexeme)
    (pre post : List Char) : Prop where
  text_eq : cs = pre ++ l.token.head :: post
  offset_eq : offset + byteLength pre = l.offset
  tokens_eq : tokens pre = before.map Lexeme.token
  next : ∀ more, ∃ t ts, tokens (pre ++ l.token.head :: more) = tokens pre ++ t :: ts ∧
    l.token.Alike t

/-- The cut stays when characters come in front that are tokens of their own. -/
theorem CutBefore.behind {offset offset' : Nat} {cs pre post : List Char} {before : List Lexeme}
    {l : Lexeme} (h : CutBefore offset' cs before l pre post) (w : List Char) (seen : List Lexeme)
    (hoffset : offset' = offset + byteLength w)
    (hpre : tokens (w ++ pre) = seen.map Lexeme.token ++ tokens pre)
    (hmore : ∀ more, tokens (w ++ (pre ++ l.token.head :: more))
      = seen.map Lexeme.token ++ tokens (pre ++ l.token.head :: more)) :
    CutBefore offset (w ++ cs) (seen ++ before) l (w ++ pre) post where
  text_eq := by rw [h.text_eq, List.append_assoc]
  offset_eq := by rw [byteLength_append, ← h.offset_eq, hoffset, Nat.add_assoc]
  tokens_eq := by rw [hpre, h.tokens_eq, List.map_append]
  next more := by
    obtain ⟨t, ts, htokens, halike⟩ := h.next more
    refine ⟨t, ts, ?_, halike⟩
    rw [List.append_assoc, hmore, hpre, htokens, List.append_assoc]

/-- Every text is cut in front of each of its tokens. -/
theorem exists_cutBefore {offset : Nat} {cs : List Char} (before : List Lexeme) {l : Lexeme}
    {after : List Lexeme} (h : lexemes offset cs = before ++ l :: after) :
    ∃ pre post, CutBefore offset cs before l pre post := by
  revert before
  fun_induction lexemes offset cs with
  | case1 offset => simp
  | case2 offset c cs hc ih =>
    intro before h
    obtain ⟨pre, post, hcut⟩ := ih before h
    exact ⟨_, _, hcut.behind [c] [] rfl (tokens_blank hc _) fun _ => tokens_blank hc _⟩
  | case3 offset c cs hc hs rest ih =>
    rintro (- | ⟨b, before⟩) h
    · obtain ⟨rfl, -⟩ := List.cons.inj h
      refine ⟨[], cs, rfl, rfl, tokens_nil, fun more => ?_⟩
      rw [List.nil_append, tokens_nil]
      exact ⟨_, _, tokens_label hs more, .label c rest _⟩
    · obtain ⟨rfl, hafter⟩ := List.cons.inj h
      obtain ⟨pre, post, hcut⟩ := ih before hafter
      have hlabel : ∀ d ∈ rest, continuesLabel d = true := fun d hd => List.mem_takeWhile_imp hd
      have hstop := takeWhile_continuesLabel_of_dropWhile hcut.text_eq
      have hbehind := hcut.behind (c :: rest) [⟨.label c rest, offset⟩] (Nat.add_assoc _ _ _)
        (tokens_label_append hs hlabel (hstop []).1)
        fun more => tokens_label_append hs hlabel (hstop more).2
      rw [List.cons_append, List.takeWhile_append_dropWhile] at hbehind
      exact ⟨_, _, hbehind⟩
  | case4 offset c cs hc hs ih =>
    have hother : ∀ ds, tokens (c :: ds) = .ofChar c :: tokens ds :=
      tokens_other (by simpa using hc) (by simpa using hs)
    rintro (- | ⟨b, before⟩) h
    · obtain ⟨rfl, -⟩ := List.cons.inj h
      refine ⟨[], cs, ?_, rfl, tokens_nil, fun more => ?_⟩
      · rw [Token.head_ofChar, List.nil_append]
      · rw [Token.head_ofChar, List.nil_append, tokens_nil]
        exact ⟨_, _, hother more, .same _⟩
    · obtain ⟨rfl, hafter⟩ := List.cons.inj h
      obtain ⟨pre, post, hcut⟩ := ih before hafter
      exact ⟨_, _, hcut.behind [c] [⟨.ofChar c, offset⟩] rfl (hother _) fun _ => hother _⟩

theorem tokens_eq_nil_iff {cs : List Char} : tokens cs = [] ↔ Blanks cs := by
  induction cs using tokens_induct with
  | nil => simp [Blanks]
  | blank c cs hc ih => simp [tokens_blank hc, ih, Blanks, hc]
  | label c cs hc ih => simp [tokens_label hc, Blanks, isBlank_of_startsLabel hc]
  | other c cs hb hs ih => simp [tokens_other hb hs, Blanks, hb]

/-! ### What can be added -/

/-- The marks that close the groups. -/
def closings (G : List OpenGroup) : List Char := G.map (·.order.closing)

theorem separate_closing (o : Order) : isBlank o.closing = false ∧
    startsLabel o.closing = false ∧ continuesLabel o.closing = false :=
  separate_of_mem_marks _ (by cases o <;> decide)

theorem takeWhile_closings (G : List OpenGroup) : (closings G).takeWhile continuesLabel = [] := by
  rcases G with - | ⟨g, G⟩
  · rfl
  · simp [closings, (separate_closing g.order).2.2]

theorem tokens_closings (G : List OpenGroup) :
    tokens (closings G) = G.map fun g => .closing g.order := by
  induction G with
  | nil => exact tokens_nil
  | cons g G ih =>
    obtain ⟨hb, hs, -⟩ := separate_closing g.order
    have hclosing : Token.ofChar g.order.closing = .closing g.order := by
      cases g.order <;> rfl
    rw [closings, List.map_cons, tokens_other hb hs, hclosing, List.map_cons, ← ih, closings]

/-- The state in which a text may end. -/
def Reader.Done (r : Reader) : Prop := r.groups = [] ∧ ∃ s, r.expecting.shape? = some s

/-- Behind a shape the open groups can be closed. -/
theorem readsAll_closings (L : List String) (G : List OpenGroup) {e : Expecting} {s : Shape}
    (hs : e.shape? = some s) :
    ∃ r, ReadsAll ⟨L, G, e⟩ (tokens (closings G)) r ∧ r.Done := by
  rw [tokens_closings]
  induction G generalizing e s with
  | nil => exact ⟨⟨L, [], e⟩, .nil, rfl, s, hs⟩
  | cons g G ih =>
    obtain ⟨r, hr, hdone⟩ := ih (Expecting.shape?_afterShape (g.close s))
    exact ⟨r, .cons (.closing hs) hr, hdone⟩

/-- Finitely many labels are not all there are: one of underscores is new. -/
theorem exists_new_label (L : List String) :
    ∃ n, String.ofList ('_' :: List.replicate n '_') ∉ L := by
  have hinjective : Function.Injective fun n => String.ofList ('_' :: List.replicate n '_') := by
    intro n m h
    simpa using congrArg String.length h
  obtain ⟨-, ⟨n, rfl⟩, hn⟩ :=
    (Set.infinite_range_of_injective hinjective).exists_notMem_finset L.toFinset
  exact ⟨n, fun h => hn (List.mem_toFinset.mpr h)⟩

/-- Whatever the reader has taken, there is a text behind which it may end. -/
theorem exists_completion (r : Reader) : ∃ ds r', ReadsAll r (tokens ds) r' ∧ r'.Done := by
  obtain ⟨L, G, e⟩ := r
  rcases hs : e.shape? with - | s
  · cases e with
    | position =>
      obtain ⟨n, hn⟩ := exists_new_label L
      obtain ⟨r', hr, hdone⟩ := readsAll_closings
        (String.ofList ('_' :: List.replicate n '_') :: L) G (Expecting.shape?_afterLabel _)
      refine ⟨'_' :: (List.replicate n '_' ++ closings G), r', ?_, hdone⟩
      rw [tokens_label_append (by decide) ?_ (takeWhile_closings G)]
      · exact .cons (.label hn) hr
      · intro d hd
        obtain rfl := List.eq_of_mem_replicate hd
        decide
    | afterLabel l => cases hs
    | afterShape s => cases hs
  · exact ⟨closings G, readsAll_closings L G hs⟩

/-- What the reader has taken is the beginning of a pattern. -/
theorem viable_of_readsAll {cs : List Char} {r : Reader} (h : ReadsAll .start (tokens cs) r) :
    Viable (String.ofList cs) := by
  obtain ⟨ds, r', hds, hgroups, s, hs⟩ := exists_completion r
  -- the blank keeps a label at the end apart from a new one
  have hblank : isBlank ' ' = true := by decide
  have htokens : tokens (cs ++ ' ' :: ds) = tokens cs ++ tokens ds := by
    rw [tokens_append, tokens_blank hblank]
    simp [continuesLabel_of_isBlank hblank]
  rw [viable_iff]
  refine ⟨' ' :: ds, s, shape_parse_eq_ok_iff.mpr ⟨r', ?_, hgroups, hs⟩⟩
  rw [String.toList_ofList, htokens]
  exact h.append hds

/-! ### What is unexpected -/

theorem afterShape_eq_error {r : Reader} {s : Shape} {l : Lexeme} {e : Error}
    (h : r.afterShape s l = .error e) : e = .unexpected (some l.token.head) l.offset := by
  obtain ⟨t, offset⟩ := l
  obtain ⟨L, G, expecting⟩ := r
  rcases G with - | ⟨g, G⟩
  · exact (Except.error.inj h).symm
  · cases t with
    | comma => cases h
    | closing o =>
      simp only [Reader.afterShape] at h
      split_ifs at h
      exact (Except.error.inj h).symm
    | _ => exact (Except.error.inj h).symm

/-- A token that is not taken is unexpected, or it ends an empty group or repeats a label. -/
theorem step_eq_error {r : Reader} {l : Lexeme} {e : Error} (h : r.step l = .error e) :
    e = .unexpected (some l.token.head) l.offset ∨ (∃ g, e = .emptyGroup g) ∨
      ∃ d, e = .duplicateLabel d := by
  obtain ⟨t, offset⟩ := l
  obtain ⟨L, G, expecting⟩ := r
  cases expecting with
  | position =>
    cases t with
    | label c w =>
      simp only [Reader.step] at h
      split_ifs at h
      exact .inr (.inr ⟨_, (Except.error.inj h).symm⟩)
    | closing o =>
      simp only [Reader.step] at h
      rcases G with - | ⟨g, G⟩
      · exact .inl (Except.error.inj h).symm
      · dsimp only at h
        split_ifs at h
        · exact .inr (.inl ⟨_, (Except.error.inj h).symm⟩)
        · exact .inl (Except.error.inj h).symm
    | _ => exact .inl (Except.error.inj h).symm
  | afterLabel d =>
    cases t with
    | opening o => cases h
    | _ => exact .inl (afterShape_eq_error h)
  | afterShape s => exact .inl (afterShape_eq_error h)

theorem finish_eq_error {r : Reader} {length : Nat} {e : Error} (h : r.finish length = .error e) :
    e = .unexpected none length := by
  obtain ⟨L, G, expecting⟩ := r
  rcases G with - | ⟨g, G⟩
  · cases expecting with
    | position => exact (Except.error.inj h).symm
    | _ => cases h
  · exact (Except.error.inj h).symm

/-- Reading stops at a token that is not taken, or where the text may not end. -/
theorem readAll_eq_error {r : Reader} {length : Nat} {ls : List Lexeme} {e : Error}
    (h : r.readAll length ls = .error e) :
    (∃ before l after r', ls = before ++ l :: after ∧
        ReadsAll r (before.map Lexeme.token) r' ∧ r'.step l = .error e) ∨
      ∃ r', ReadsAll r (ls.map Lexeme.token) r' ∧ r'.finish length = .error e := by
  induction ls generalizing r with
  | nil => exact .inr ⟨r, .nil, h⟩
  | cons l ls ih =>
    rw [Reader.readAll] at h
    rcases hstep : r.step l with e' | r₁
    · rw [hstep] at h
      exact .inl ⟨[], l, ls, r, rfl, .nil, by rw [hstep, Except.error.inj h]⟩
    · rw [hstep] at h
      have hreads := step_eq_ok_iff.mp hstep
      obtain ⟨before, k, after, r', rfl, hr, hk⟩ | ⟨r', hr, hend⟩ := ih h
      · exact .inl ⟨l :: before, k, after, r', rfl, .cons hreads hr, hk⟩
      · exact .inr ⟨r', .cons hreads hr, hend⟩

theorem readAll_ne_empty {r : Reader} {length : Nat} {ls : List Lexeme} :
    r.readAll length ls ≠ .error .empty := by
  intro h
  obtain ⟨before, l, after, r', -, -, hstep⟩ | ⟨r', -, hend⟩ := readAll_eq_error h
  · simpa using step_eq_error hstep
  · simpa using finish_eq_error hend

/-- How a text goes on may change the token that is unexpected, but nothing that comes of it
is taken. -/
theorem Token.Alike.not_reads {r r' : Reader} {l : Lexeme} {t : Token} {found : Option Char}
    {offset : Nat} (h : l.token.Alike t) (hstep : r.step l = .error (.unexpected found offset)) :
    ¬ Reads r t r' := by
  intro hreads
  obtain ⟨u, o⟩ := l
  cases h with
  | same =>
    rw [step_of_reads hreads] at hstep
    cases hstep
  | label c w w' =>
    -- a label is taken where a position is expected, and there no label is unexpected
    cases hreads
    simp only [Reader.step] at hstep
    split_ifs at hstep
    cases hstep

theorem Reads.unique {r r₁ r₂ : Reader} {t : Token} (h₁ : Reads r t r₁) (h₂ : Reads r t r₂) :
    r₁ = r₂ :=
  Except.ok.inj ((step_of_reads h₁ 0).symm.trans (step_of_reads h₂ 0))

/-- What is taken together is taken one part after the other. -/
theorem ReadsAll.of_append {r r₁ r' : Reader} {ts us : List Token} (h : ReadsAll r (ts ++ us) r')
    (h₁ : ReadsAll r ts r₁) : ReadsAll r₁ us r' := by
  induction h₁ with
  | nil => exact h
  | cons hread _ ih =>
    cases h with
    | cons hread' h => exact ih (hread.unique hread' ▸ h)

/-! ### Parse errors -/

theorem parse_eq_error_iff {s : String} {e : Error} :
    parse s = .error e ↔ Shape.parse s.toList = .error e := by
  rw [parse]
  rcases Shape.parse s.toList with e' | t <;> simp [Except.map]

theorem shape_parse_eq_empty_iff {cs : List Char} :
    Shape.parse cs = .error .empty ↔ Blanks cs := by
  rw [← tokens_eq_nil_iff, tokens, List.map_eq_nil_iff, Shape.parse]
  rcases lexemes 0 cs with - | ⟨l, ls⟩
  · simp
  · simp [readAll_ne_empty]

theorem shape_parse_eq_unexpected {cs : List Char} {found : Option Char} {offset : Nat}
    (h : Shape.parse cs = .error (.unexpected found offset)) :
    Reader.start.readAll (byteLength cs) (lexemes 0 cs) = .error (.unexpected found offset) := by
  rw [Shape.parse] at h
  rcases hls : lexemes 0 cs with - | ⟨l, ls⟩ <;> rw [hls] at h
  · cases h
  · exact h

/-- In front of an unexpected token the text is viable, and with its first character it is
not. -/
theorem viable_before {cs : List Char} {before after : List Lexeme} {l : Lexeme} {r : Reader}
    {found : Option Char} {offset : Nat} (hls : lexemes 0 cs = before ++ l :: after)
    (hr : ReadsAll .start (before.map Lexeme.token) r)
    (hstep : r.step l = .error (.unexpected found offset)) :
    ∃ pre post, cs = pre ++ l.token.head :: post ∧ byteLength pre = l.offset ∧
      Viable (String.ofList pre) ∧ ¬ Viable (String.ofList (pre ++ [l.token.head])) := by
  obtain ⟨pre, post, hcut⟩ := exists_cutBefore before hls
  rw [← hcut.tokens_eq] at hr
  refine ⟨pre, post, hcut.text_eq, ?_, viable_of_readsAll hr, ?_⟩
  · rw [← hcut.offset_eq, Nat.zero_add]
  rw [viable_iff]
  rintro ⟨more, u, hu⟩
  rw [String.toList_ofList, List.append_assoc, List.singleton_append] at hu
  obtain ⟨t, ts, htokens, halike⟩ := hcut.next more
  obtain ⟨r', hr', -⟩ := shape_parse_eq_ok_iff.mp hu
  rw [htokens] at hr'
  cases hr'.of_append hr with
  | cons hread _ => exact halike.not_reads hstep hread

/-- **An error points at the first hopeless character.**  Where a text has an unexpected
character or an unexpected end, what comes before it is the beginning of a pattern and is as
many bytes long as the error says.  With the character it is no longer the beginning of one;
the end is unexpected only if there is no character left, and then the text is no pattern.
And a text is reported as empty iff there is nothing but blanks. -/
theorem parse_error_exact (s : String) :
    (∀ found offset, parse s = .error (.unexpected found offset) →
      ∃ pre post : String, s = pre ++ post ∧ pre.utf8ByteSize = offset ∧
        post.toList.head? = found ∧ Viable pre ∧
        (∀ c, found = some c → ¬ Viable (pre ++ String.singleton c)) ∧
        (found = none → offset = s.utf8ByteSize ∧ ∀ p, parse s ≠ .ok p)) ∧
      (parse s = .error .empty ↔ ∀ c ∈ s.toList, isBlank c = true) := by
  refine ⟨fun found offset h => ?_, by rw [parse_eq_error_iff, shape_parse_eq_empty_iff, Blanks]⟩
  have hread := shape_parse_eq_unexpected (parse_eq_error_iff.mp h)
  obtain ⟨before, l, after, r, hls, hr, hstep⟩ | ⟨r, hr, hend⟩ := readAll_eq_error hread
  · obtain ⟨rfl, rfl⟩ : found = some l.token.head ∧ offset = l.offset := by
      simpa using step_eq_error hstep
    obtain ⟨pre, post, hs, hoffset, hviable, hhopeless⟩ := viable_before hls hr hstep
    refine ⟨String.ofList pre, String.ofList (l.token.head :: post), ?_, ?_, ?_, hviable, ?_, ?_⟩
    · rw [← String.ofList_append, ← hs, String.ofList_toList]
    · rw [← byteLength_eq, hoffset]
    · rw [String.toList_ofList, List.head?_cons]
    · rintro c ⟨rfl⟩
      rwa [String.singleton_eq_ofList, ← String.ofList_append]
    · intro hnone
      cases hnone
  · obtain ⟨rfl, rfl⟩ : found = none ∧ offset = byteLength s.toList := by
      simpa using finish_eq_error hend
    refine ⟨s, "", by simp, ?_, rfl, ?_, ?_, ?_⟩
    · rw [byteLength_eq, String.ofList_toList]
    · have := viable_of_readsAll hr
      rwa [String.ofList_toList] at this
    · rintro c ⟨⟩
    · intro _
      rw [byteLength_eq, String.ofList_toList]
      refine ⟨rfl, fun p hp => ?_⟩
      rw [h] at hp
      cases hp

-- the first letter has two bytes
example : parse "ä(b\x7d" = .error (.unexpected (some '\x7d') 4) := by cbv

end TreeRewriting.Pattern
