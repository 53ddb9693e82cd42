import CheshireCat.Base.Replace
import Mathlib.Data.List.Chain

namespace CheshireCat.Base

/-! ### The pieces of a text -/

inductive Punct where
  | openList
  | closeList
  | openDict
  | closeDict
  | comma
  | colon
deriving DecidableEq

def Punct.char : Punct → Char
  | .openList => '['
  | .closeList => ']'
  | .openDict => '\x7b'
  | .closeDict => '\x7d'
  | .comma => ','
  | .colon => ':'

def Punct.ofChar? (c : Char) : Option Punct :=
  [.openList, .closeList, .openDict, .closeDict, .comma, .colon].find? (fun p : Punct => p.char = c)

def isBlankChar (c : Char) : Bool := c ∈ [' ', '\t', '\n', '\r']

def isQuote (c : Char) : Bool := c = '"' || c = '\''

/-- A character of a number or a name. -/
def isWordChar (c : Char) : Bool := !isBlankChar c && (Punct.ofChar? c).isNone && !isQuote c

/-- A piece of the text of a literal. The body of a string keeps its escapes. -/
inductive Piece where
  | blank (c : Char)
  | punct (p : Punct)
  | word (w : List Char)
  | quoted (quote : Char) (body : List Char)
deriving DecidableEq

def Piece.text : Piece → List Char
  | .blank c => [c]
  | .punct p => [p.char]
  | .word w => w
  | .quoted quote body => quote :: (body ++ [quote])

def textOf (pieces : List Piece) : List Char := pieces.flatMap Piece.text

theorem text_of_append (pieces pieces' : List Piece) :
    textOf (pieces ++ pieces') = textOf pieces ++ textOf pieces' := List.flatMap_append

theorem text_of_marks (marks : List Punct) : textOf (marks.map Piece.punct) = marks.map Punct.char := by
  induction marks with
  | nil => rfl
  | cons a marks ih => exact congrArg (List.cons a.char) ih

def Piece.isWord : Piece → Bool
  | .word _ => true
  | _ => false

/-- Every quote in the body is escaped, and so is something after every backslash. -/
inductive Closed (quote : Char) : List Char → Prop where
  | nil : Closed quote []
  | plain {c : Char} {rest : List Char} (hquote : c ≠ quote) (hescape : c ≠ '\\')
      (h : Closed quote rest) : Closed quote (c :: rest)
  | escape (c : Char) {rest : List Char} (h : Closed quote rest) : Closed quote ('\\' :: c :: rest)

def Piece.Valid : Piece → Prop
  | .blank c => isBlankChar c = true
  | .punct _ => True
  | .word w => w ≠ [] ∧ ∀ c ∈ w, isWordChar c = true
  | .quoted quote body => isQuote quote = true ∧ Closed quote body

/-- Pieces that are read from their text again: no word follows on a word. -/
structure Layout (pieces : List Piece) : Prop where
  valid : ∀ p ∈ pieces, p.Valid
  apart : pieces.IsChain (fun p p' => ¬ (p.isWord = true ∧ p'.isWord = true))

/-! ### The lexer -/

inductive LexState where
  | word (done : List Char)
  | quoted (quote : Char) (done : List Char)
  | escaped (quote : Char) (done : List Char)

/-- The word that ends here, if there is one. -/
def endWord (done : List Char) : List Piece := if done = [] then [] else [.word done.reverse]

def lexFrom : LexState → List Char → Option (List Piece)
  | .word done, [] => some (endWord done)
  | .quoted _ _, [] => none
  | .escaped _ _, [] => none
  | .word done, c :: rest =>
    if isBlankChar c then (lexFrom (.word []) rest).map (fun ps => endWord done ++ .blank c :: ps)
    else match Punct.ofChar? c with
      | some p => (lexFrom (.word []) rest).map (fun ps => endWord done ++ .punct p :: ps)
      | none =>
        if isQuote c then (lexFrom (.quoted c []) rest).map (fun ps => endWord done ++ ps)
        else lexFrom (.word (c :: done)) rest
  | .quoted quote done, c :: rest =>
    if c = quote then
      (lexFrom (.word []) rest).map (fun ps => .quoted quote done.reverse :: ps)
    else if c = '\\' then lexFrom (.escaped quote (c :: done)) rest
    else lexFrom (.quoted quote (c :: done)) rest
  | .escaped quote done, c :: rest => lexFrom (.quoted quote (c :: done)) rest

def lex (text : List Char) : Option (List Piece) := lexFrom (.word []) text

theorem punct_of_char (p : Punct) : Punct.ofChar? p.char = some p := by
  cases p <;> decide

theorem char_of_punct {c : Char} {p : Punct} (h : Punct.ofChar? c = some p) : p.char = c := by
  simpa using List.find?_some h

theorem punct_not_blank (p : Punct) : isBlankChar p.char = false := by
  cases p <;> decide

theorem quote_plain {c : Char} (h : isQuote c = true) :
    isBlankChar c = false ∧ Punct.ofChar? c = none := by
  have hc : c = '"' ∨ c = '\'' := by simpa [isQuote] using h
  rcases hc with rfl | rfl <;> decide

theorem word_char_iff (c : Char) : isWordChar c = true ↔
    isBlankChar c = false ∧ Punct.ofChar? c = none ∧ isQuote c = false := by
  simp [isWordChar, and_assoc]

theorem layout_nil : Layout [] := ⟨nofun, List.isChain_nil⟩

theorem layout_cons_iff {p : Piece} {pieces : List Piece} : Layout (p :: pieces) ↔
    p.Valid ∧ Layout pieces ∧ (p.isWord = true → ∀ p' ∈ pieces.head?, p'.isWord = false) := by
  constructor
  · intro h
    refine ⟨h.valid p List.mem_cons_self,
      ⟨fun p' hp' => h.valid p' (List.mem_cons_of_mem p hp'), h.apart.tail⟩, ?_⟩
    intro hword p' hp'
    cases pieces with
    | nil => cases hp'
    | cons next pieces =>
      cases Option.some.inj hp'
      simpa [hword] using (List.isChain_cons_cons.mp h.apart).1
  · rintro ⟨hvalid, hrest, hnext⟩
    refine ⟨?_, ?_⟩
    · intro p' hp'
      rcases List.mem_cons.mp hp' with rfl | hp'
      · exact hvalid
      · exact hrest.valid p' hp'
    · cases pieces with
      | nil => exact List.isChain_singleton p
      | cons next pieces =>
        refine List.isChain_cons_cons.mpr ⟨?_, hrest.apart⟩
        rintro ⟨hword, hword'⟩
        rw [hnext hword next rfl] at hword'
        cases hword'

theorem lex_word (w : List Char) (h : ∀ c ∈ w, isWordChar c = true) (done rest : List Char) :
    lexFrom (.word done) (w ++ rest) = lexFrom (.word (w.reverse ++ done)) rest := by
  induction w generalizing done with
  | nil => rfl
  | cons c w ih =>
    obtain ⟨hblank, hpunct, hquote⟩ := (word_char_iff c).mp (h c List.mem_cons_self)
    rw [List.cons_append, lexFrom, hblank, hpunct, hquote]
    rw [if_neg Bool.false_ne_true]
    simp only [if_neg Bool.false_ne_true]
    rw [ih (fun c' hc' => h c' (List.mem_cons_of_mem c hc')), List.reverse_cons, List.append_assoc]
    rfl

theorem lex_quoted {quote : Char} {body : List Char} (h : Closed quote body) (hq : quote ≠ '\\')
    (done rest : List Char) : lexFrom (.quoted quote done) (body ++ quote :: rest) =
      (lexFrom (.word []) rest).map (fun ps => .quoted quote (done.reverse ++ body) :: ps) := by
  induction h generalizing done with
  | nil => rw [List.nil_append, lexFrom, if_pos rfl, List.append_nil]
  | @plain c body hquote hescape _ ih =>
    rw [List.cons_append, lexFrom, if_neg hquote, if_neg hescape, ih, List.reverse_cons,
      List.append_assoc]
    rfl
  | @escape c body _ ih =>
    rw [List.cons_append, List.cons_append, lexFrom, if_neg (Ne.symm hq), if_pos rfl, lexFrom, ih,
      List.reverse_cons, List.reverse_cons, List.append_assoc, List.append_assoc]
    rfl

/-- A layout is read from its text, also where a word before it has been read. -/
theorem lex_from_text {pieces : List Piece} (h : Layout pieces) (done : List Char)
    (hdone : done ≠ [] → ∀ p ∈ pieces.head?, p.isWord = false) :
    lexFrom (.word done) (textOf pieces) = some (endWord done ++ pieces) := by
  induction pieces generalizing done with
  | nil => rw [textOf, List.flatMap_nil, lexFrom, List.append_nil]
  | cons p pieces ih =>
    obtain ⟨hvalid, hrest, hnext⟩ := layout_cons_iff.mp h
    have hfresh : lexFrom (.word []) (textOf pieces) = some pieces :=
      ih hrest [] (fun hne => absurd rfl hne)
    rw [textOf, List.flatMap_cons]
    cases p with
    | blank c =>
      have hblank : isBlankChar c = true := hvalid
      rw [Piece.text, List.singleton_append, lexFrom, hblank, if_pos rfl]
      exact congrArg _ hfresh
    | punct p =>
      rw [Piece.text, List.singleton_append, lexFrom, punct_not_blank, punct_of_char,
        if_neg Bool.false_ne_true]
      dsimp only
      exact congrArg _ hfresh
    | quoted quote body =>
      obtain ⟨hquote, hclosed⟩ := hvalid
      obtain ⟨hblank, hpunct⟩ := quote_plain hquote
      have hbackslash : quote ≠ '\\' := by
        rintro rfl
        cases hquote
      rw [Piece.text, List.cons_append, List.append_assoc, List.singleton_append, lexFrom, hblank,
        hpunct, if_neg Bool.false_ne_true]
      dsimp only
      rw [if_pos hquote, lex_quoted hclosed hbackslash]
      change Option.map _ (Option.map _ (lexFrom (.word []) (textOf pieces))) = _
      rw [hfresh]
      rfl
    | word w =>
      have hnil : done = [] := by
        by_contra hne
        cases hdone hne (.word w) rfl
      subst hnil
      rw [Piece.text, lex_word w hvalid.2]
      have hword := ih hrest (w.reverse ++ []) (fun _ => hnext rfl)
      change lexFrom (.word (w.reverse ++ [])) (textOf pieces) = _
      rw [hword, List.append_nil, endWord, if_neg (by simpa using hvalid.1), List.reverse_reverse]
      rfl

theorem lex_text {pieces : List Piece} (h : Layout pieces) : lex (textOf pieces) = some pieces :=
  lex_from_text h [] (fun hne => absurd rfl hne)

/-- What the lexer has read of a piece that is not complete. -/
def LexState.text : LexState → List Char
  | .word done => done.reverse
  | .quoted quote done => quote :: done.reverse
  | .escaped quote done => quote :: done.reverse

def LexState.Valid : LexState → Prop
  | .word done => ∀ c ∈ done, isWordChar c = true
  | .quoted quote done => isQuote quote = true ∧
    ∀ rest, Closed quote rest → Closed quote (done.reverse ++ rest)
  | .escaped quote done => isQuote quote = true ∧
    ∀ c rest, Closed quote rest → Closed quote (done.reverse ++ c :: rest)

theorem text_end_word (done : List Char) : textOf (endWord done) = done.reverse := by
  unfold endWord
  split
  · rename_i h
    rw [h]
    rfl
  · exact List.append_nil _

/-- A word that ends in front of something that is no word. -/
theorem layout_end_word {done : List Char} (h : ∀ c ∈ done, isWordChar c = true)
    {pieces : List Piece} (hrest : Layout pieces)
    (hnext : ∀ p ∈ pieces.head?, p.isWord = false) : Layout (endWord done ++ pieces) := by
  unfold endWord
  split
  · exact hrest
  · rename_i hne
    refine layout_cons_iff.mpr ⟨⟨?_, ?_⟩, hrest, fun _ => hnext⟩
    · simpa using hne
    · intro c hc
      exact h c (List.mem_reverse.mp hc)

/-- From the state the pieces are read off the text: they are a layout, and stand for what has been read
and the text. -/
structure LexState.Reads (s : LexState) (text : List Char) (pieces : List Piece) : Prop where
  text_of : textOf pieces = s.text ++ text
  layout : Layout pieces
  next : (∀ done, s ≠ .word done) → ∀ p ∈ pieces.head?, p.isWord = false

section Reads

variable {c : Char} {done rest : List Char} {quote : Char} {pieces : List Piece}

theorem empty_word_valid : (LexState.word []).Valid := fun _ hc => absurd hc List.not_mem_nil

theorem reads_end (hstate : (LexState.word done).Valid) : (LexState.word done).Reads [] (endWord done) where
  text_of := by
    rw [text_end_word, List.append_nil]
    rfl
  layout := List.append_nil (endWord done) ▸ layout_end_word hstate layout_nil nofun
  next := fun hno => absurd rfl (hno done)

/-- A piece that is no word ends the word that is read. -/
theorem reads_piece (hstate : (LexState.word done).Valid) {p : Piece} (hp : p.Valid)
    (hword : p.isWord = false) (htext : p.text = [c]) (h : (LexState.word []).Reads rest pieces) :
    (LexState.word done).Reads (c :: rest) (endWord done ++ p :: pieces) where
  text_of := by
    rw [textOf, List.flatMap_append, List.flatMap_cons, htext]
    change textOf (endWord done) ++ ([c] ++ textOf pieces) = _
    rw [text_end_word, h.text_of]
    rfl
  layout := by
    apply layout_end_word hstate
    · exact layout_cons_iff.mpr ⟨hp, h.layout, fun hw => absurd hw (by simp [hword])⟩
    · intro p' hp'
      rw [← Option.some.inj hp']
      exact hword
  next := fun hno => absurd rfl (hno done)

theorem reads_quote (hstate : (LexState.word done).Valid) (h : (LexState.quoted c []).Reads rest pieces) :
    (LexState.word done).Reads (c :: rest) (endWord done ++ pieces) where
  text_of := by
    rw [textOf, List.flatMap_append]
    change textOf (endWord done) ++ textOf pieces = _
    rw [text_end_word, h.text_of]
    rfl
  layout := layout_end_word hstate h.layout (h.next nofun)
  next := fun hno => absurd rfl (hno done)

theorem reads_word_char (h : (LexState.word (c :: done)).Reads rest pieces) :
    (LexState.word done).Reads (c :: rest) pieces where
  text_of := by
    rw [h.text_of, LexState.text, LexState.text, List.reverse_cons, List.append_assoc]
    rfl
  layout := h.layout
  next := fun hno => absurd rfl (hno done)

/-- The quote ends the string. -/
theorem reads_close (hstate : (LexState.quoted quote done).Valid) (h : (LexState.word []).Reads rest pieces) :
    (LexState.quoted quote done).Reads (quote :: rest) (.quoted quote done.reverse :: pieces) where
  text_of := by
    rw [textOf, List.flatMap_cons]
    change (quote :: (done.reverse ++ [quote])) ++ textOf pieces = _
    rw [h.text_of, LexState.text, List.cons_append, List.append_assoc]
    rfl
  layout := by
    refine layout_cons_iff.mpr ⟨⟨hstate.1, ?_⟩, h.layout, nofun⟩
    exact List.append_nil done.reverse ▸ hstate.2 [] .nil
  next := by
    rintro _ _ ⟨rfl⟩
    rfl

/-- A character of a string is kept. -/
theorem reads_inside {s s' : LexState} (h : s'.Reads rest pieces) (htext : s'.text = s.text ++ [c])
    (hinside : ∀ d, s' ≠ .word d) : s.Reads (c :: rest) pieces where
  text_of := by
    rw [h.text_of, htext, List.append_assoc]
    rfl
  layout := h.layout
  next := fun _ => h.next hinside

end Reads

theorem LexState.Valid.plain {quote c : Char} {done : List Char} (h : (LexState.quoted quote done).Valid)
    (hquote : c ≠ quote) (hescape : c ≠ '\\') : (LexState.quoted quote (c :: done)).Valid := by
  refine ⟨h.1, ?_⟩
  intro rest hrest
  rw [List.reverse_cons, List.append_assoc]
  exact h.2 _ (.plain hquote hescape hrest)

theorem LexState.Valid.backslash {quote : Char} {done : List Char}
    (h : (LexState.quoted quote done).Valid) : (LexState.escaped quote ('\\' :: done)).Valid := by
  refine ⟨h.1, ?_⟩
  intro c rest hrest
  rw [List.reverse_cons, List.append_assoc]
  exact h.2 _ (.escape c hrest)

theorem LexState.Valid.escape {quote : Char} {done : List Char} (h : (LexState.escaped quote done).Valid)
    (c : Char) : (LexState.quoted quote (c :: done)).Valid := by
  refine ⟨h.1, ?_⟩
  intro rest hrest
  rw [List.reverse_cons, List.append_assoc]
  exact h.2 c rest hrest

/-- The lexer reads a layout of the text. -/
theorem lex_from_layout {text : List Char} {s : LexState} {pieces : List Piece} (hstate : s.Valid)
    (h : lexFrom s text = some pieces) : s.Reads text pieces := by
  induction text generalizing s pieces with
  | nil =>
    cases s with
    | word done =>
      cases h
      exact reads_end hstate
    | quoted quote done => cases h
    | escaped quote done => cases h
  | cons c rest ih =>
    cases s with
    | word done =>
      rw [lexFrom] at h
      split at h
      · rename_i hblank
        obtain ⟨ps, hps, rfl⟩ := Option.map_eq_some_iff.mp h
        exact reads_piece hstate (p := .blank c) hblank rfl rfl (ih empty_word_valid hps)
      · rename_i hblank
        split at h
        · rename_i p hpunct
          obtain ⟨ps, hps, rfl⟩ := Option.map_eq_some_iff.mp h
          have htext : (Piece.punct p).text = [c] := congrArg (fun c => [c]) (char_of_punct hpunct)
          exact reads_piece hstate trivial rfl htext (ih empty_word_valid hps)
        · rename_i hpunct
          split at h
          · rename_i hquote
            obtain ⟨ps, hps, rfl⟩ := Option.map_eq_some_iff.mp h
            exact reads_quote hstate (ih ⟨hquote, fun _ => id⟩ hps)
          · rename_i hquote
            have hword : isWordChar c = true :=
              (word_char_iff c).mpr ⟨Bool.not_eq_true _ ▸ hblank, hpunct, Bool.not_eq_true _ ▸ hquote⟩
            have hvalid : (LexState.word (c :: done)).Valid := by
              intro c' hc'
              rcases List.mem_cons.mp hc' with rfl | hc'
              · exact hword
              · exact hstate c' hc'
            exact reads_word_char (ih hvalid h)
    | quoted quote done =>
      have hinside : quote :: (c :: done).reverse = (LexState.quoted quote done).text ++ [c] := by
        rw [List.reverse_cons, LexState.text]
        rfl
      rw [lexFrom] at h
      split at h
      · rename_i hc
        subst hc
        obtain ⟨ps, hps, rfl⟩ := Option.map_eq_some_iff.mp h
        exact reads_close hstate (ih empty_word_valid hps)
      · rename_i hc
        split at h
        · rename_i hescape
          subst hescape
          exact reads_inside (ih hstate.backslash h) hinside nofun
        · rename_i hescape
          exact reads_inside (ih (hstate.plain hc hescape) h) hinside nofun
    | escaped quote done =>
      have hinside : quote :: (c :: done).reverse = (LexState.escaped quote done).text ++ [c] := by
        rw [List.reverse_cons, LexState.text]
        rfl
      rw [lexFrom] at h
      exact reads_inside (ih (hstate.escape c) h) hinside nofun

theorem lex_layout {text : List Char} {pieces : List Piece} (h : lex text = some pieces) :
    textOf pieces = text ∧ Layout pieces := by
  have hreads := lex_from_layout empty_word_valid h
  exact ⟨hreads.text_of, hreads.layout⟩

/-! ### Replacing inside of the pieces -/

/-- A change of the words and of the bodies of the strings. -/
def Piece.map (f : List Char → List Char) : Piece → Piece
  | .blank c => .blank c
  | .punct p => .punct p
  | .word w => .word (f w)
  | .quoted quote body => .quoted quote (f body)

@[simp] theorem is_word_map (f : List Char → List Char) (p : Piece) : (p.map f).isWord = p.isWord := by
  cases p <;> rfl

section Replace

variable {old new : List Char} {quote : Char} {body : List Char} {pieces : List Piece}

theorem punct_not_word (p : Punct) : isWordChar p.char = false := by
  cases p <;> decide

theorem quote_not_word {c : Char} (h : isQuote c = true) : isWordChar c = false := by
  simp [isWordChar, h]

theorem blank_not_word {c : Char} (h : isBlankChar c = true) : isWordChar c = false := by
  simp [isWordChar, h]

/-- A piece that is no word starts with a character of its own. -/
theorem head_not_word {p : Piece} (h : p.Valid) (hword : p.isWord = false) :
    ∀ c ∈ (p.text).head?, isWordChar c = false := by
  intro c hc
  cases p with
  | blank d => exact Option.some.inj hc ▸ blank_not_word h
  | punct p => exact Option.some.inj hc ▸ punct_not_word p
  | word w => cases hword
  | quoted quote body => exact Option.some.inj hc ▸ quote_not_word h.1

theorem text_ne_nil {p : Piece} (h : p.Valid) : p.text ≠ [] := by
  cases p with
  | word w => exact h.1
  | blank c => exact List.cons_ne_nil _ _
  | punct p => exact List.cons_ne_nil _ _
  | quoted quote body => exact List.cons_ne_nil _ _

theorem head_layout (h : Layout pieces) (hnext : ∀ p ∈ pieces.head?, p.isWord = false) :
    ∀ c ∈ (textOf pieces).head?, isWordChar c = false := by
  intro c hc
  cases pieces with
  | nil => cases hc
  | cons p pieces =>
    obtain ⟨hvalid, _⟩ := layout_cons_iff.mp h
    rw [textOf, List.flatMap_cons, List.head?_append_of_ne_nil _ (text_ne_nil hvalid)] at hc
    exact head_not_word hvalid (hnext p rfl) c hc

/-- What consists of characters of words is replaced in each piece for itself. -/
theorem replace_layout (hne : old ≠ []) (hold : ∀ c ∈ old, isWordChar c = true)
    (h : Layout pieces) : replaceAll old new (textOf pieces) =
      textOf (pieces.map (Piece.map (replaceAll old new))) := by
  have hnot {c : Char} (hc : isWordChar c = false) : c ∉ old := by
    intro hmem
    rw [hold c hmem] at hc
    cases hc
  have hone {c : Char} (hc : isWordChar c = false) (rest : List Char) :
      replaceAll old new (c :: rest) = c :: replaceAll old new rest :=
    replace_boundary hne (hnot hc) [] rest
  induction pieces with
  | nil => rfl
  | cons p pieces ih =>
    obtain ⟨hvalid, hrest, hnext⟩ := layout_cons_iff.mp h
    rw [textOf, List.flatMap_cons, List.map_cons, textOf, List.flatMap_cons]
    change replaceAll old new (p.text ++ textOf pieces) = _ ++ textOf (pieces.map _)
    rw [← ih hrest]
    cases p with
    | blank c => exact hone (blank_not_word hvalid) _
    | punct p => exact hone (punct_not_word p) _
    | word w =>
      apply replace_append hne
      intro c hc
      exact hnot (head_layout hrest (hnext rfl) c hc)
    | quoted quote body =>
      have hquote := quote_not_word hvalid.1
      rw [Piece.text, List.cons_append, List.append_assoc, hone hquote, List.singleton_append,
        replace_boundary hne (hnot hquote)]
      simp [Piece.map, Piece.text]

theorem layout_map {f : List Char → List Char}
    (hword : ∀ w, w ≠ [] → (∀ c ∈ w, isWordChar c = true) → f w ≠ [] ∧ ∀ c ∈ f w, isWordChar c = true)
    (hbody : ∀ quote body, isQuote quote = true → Closed quote body → Closed quote (f body))
    (h : Layout pieces) : Layout (pieces.map (Piece.map f)) := by
  induction pieces with
  | nil => exact layout_nil
  | cons p pieces ih =>
    obtain ⟨hvalid, hrest, hnext⟩ := layout_cons_iff.mp h
    refine layout_cons_iff.mpr ⟨?_, ih hrest, ?_⟩
    · cases p with
      | blank c => exact hvalid
      | punct p => trivial
      | word w => exact hword w hvalid.1 hvalid.2
      | quoted quote body => exact ⟨hvalid.1, hbody quote body hvalid.1 hvalid.2⟩
    · intro hw p' hp'
      rw [List.head?_map] at hp'
      obtain ⟨q, hq, rfl⟩ := Option.map_eq_some_iff.mp hp'
      rw [is_word_map] at hw ⊢
      exact hnext hw q hq

theorem closed_append_plain {a b : List Char} (h : ∀ c ∈ a, c ≠ quote ∧ c ≠ '\\') :
    Closed quote (a ++ b) ↔ Closed quote b := by
  induction a with
  | nil => rfl
  | cons c a ih =>
    obtain ⟨hquote, hescape⟩ := h c List.mem_cons_self
    rw [List.cons_append, ← ih (fun c' hc' => h c' (List.mem_cons_of_mem c hc'))]
    constructor
    · intro hc
      generalize a ++ b = rest at hc
      cases hc with
      | plain _ _ hrest => exact hrest
      | escape c' hrest => exact absurd rfl hescape
    · exact .plain hquote hescape

/-- A body stays closed where plain text is replaced by plain text. -/
theorem closed_replace (hne : old ≠ []) (hnew : new ≠ [])
    (hplain : ∀ c ∈ old ++ new, c ≠ quote ∧ c ≠ '\\') (h : Closed quote body) :
    Closed quote (replaceAll old new body) := by
  have hold : ∀ c ∈ old, c ≠ quote ∧ c ≠ '\\' := fun c hc => hplain c (List.mem_append_left _ hc)
  have hnew' : ∀ c ∈ new, c ≠ quote ∧ c ≠ '\\' := fun c hc => hplain c (List.mem_append_right _ hc)
  have hlength (n : Nat) : ∀ body : List Char, body.length ≤ n → Closed quote body →
      Closed quote (replaceAll old new body) := by
    induction n with
    | zero =>
      intro body hn _
      rw [List.length_eq_zero_iff.mp (Nat.le_zero.mp hn)]
      exact .nil
    | succ n ih =>
      intro body hn h
      cases h with
      | nil => exact .nil
      | @plain c rest hquote hescape hrest =>
        by_cases hmatch : old <+: c :: rest
        · obtain ⟨rest', hrest'⟩ := hmatch
          rw [← hrest', replace_match hne, closed_append_plain hnew']
          apply ih
          · have hpos := List.length_pos_iff.mpr hne
            rw [← hrest', List.length_append] at hn
            omega
          · exact (closed_append_plain hold).mp (hrest' ▸ .plain hquote hescape hrest)
        · rw [replace_step hmatch]
          exact .plain hquote hescape (ih rest (Nat.le_of_succ_le_succ hn) hrest)
      | @escape c rest hrest =>
        have hback : '\\' ∉ old := fun hmem => (hold _ hmem).2 rfl
        rw [List.length_cons, List.length_cons] at hn
        have hfirst : replaceAll old new ('\\' :: c :: rest) = '\\' :: replaceAll old new (c :: rest) :=
          replace_boundary hne hback [] (c :: rest)
        rw [hfirst]
        by_cases hmatch : old <+: c :: rest
        · obtain ⟨rest', hrest'⟩ := hmatch
          obtain ⟨o, old', rfl⟩ := List.exists_cons_of_ne_nil hne
          obtain ⟨n', new', rfl⟩ := List.exists_cons_of_ne_nil hnew
          obtain ⟨rfl, htail⟩ := List.cons.inj hrest'
          rw [← hrest', replace_match hne, List.cons_append]
          apply Closed.escape
          rw [closed_append_plain (fun d hd => hnew' d (List.mem_cons_of_mem n' hd))]
          change old' ++ rest' = rest at htail
          subst htail
          apply ih
          · rw [List.length_append] at hn
            omega
          · exact (closed_append_plain (fun d hd => hold d (List.mem_cons_of_mem o hd))).mp hrest
        · rw [replace_step hmatch]
          exact .escape c (ih rest (by omega) hrest)
  exact hlength body.length body (Nat.le_refl _) h

/-- A body stays closed where a backslash in front of a plain character is dropped. -/
theorem closed_unescape {x : Char} (hquote : x ≠ quote) (hescape : x ≠ '\\')
    (h : Closed quote body) : Closed quote (replaceAll ['\\', x] [x] body) := by
  have hne : ['\\', x] ≠ [] := List.cons_ne_nil _ _
  have hstep {c : Char} (hc : c ≠ '\\') (rest : List Char) :
      replaceAll ['\\', x] [x] (c :: rest) = c :: replaceAll ['\\', x] [x] rest :=
    replace_step (fun hp => hc (List.cons_prefix_cons.mp hp).1.symm)
  have hback {c : Char} (hc : c ≠ x) (rest : List Char) :
      replaceAll ['\\', x] [x] ('\\' :: c :: rest) = '\\' :: replaceAll ['\\', x] [x] (c :: rest) :=
    replace_step (fun hp => hc (List.cons_prefix_cons.mp (List.cons_prefix_cons.mp hp).2).1.symm)
  have hfound (rest : List Char) :
      replaceAll ['\\', x] [x] ('\\' :: x :: rest) = x :: replaceAll ['\\', x] [x] rest :=
    replace_match hne rest
  have hlength (n : Nat) : ∀ body : List Char, body.length ≤ n → Closed quote body →
      Closed quote (replaceAll ['\\', x] [x] body) := by
    induction n with
    | zero =>
      intro body hn _
      rw [List.length_eq_zero_iff.mp (Nat.le_zero.mp hn)]
      exact .nil
    | succ n ih =>
      intro body hn h
      cases h with
      | nil => exact .nil
      | @plain c rest hq he hrest =>
        rw [hstep he]
        exact .plain hq he (ih rest (Nat.le_of_succ_le_succ hn) hrest)
      | @escape c rest hrest =>
        rw [List.length_cons, List.length_cons] at hn
        by_cases hc : c = x
        · subst hc
          rw [hfound]
          exact .plain hquote hescape (ih rest (by omega) hrest)
        · rw [hback hc]
          by_cases hslash : c = '\\'
          · subst hslash
            -- the second backslash may be the one that is dropped
            by_cases hmatch : ['\\', x] <+: '\\' :: rest
            · obtain ⟨rest', hrest'⟩ := hmatch
              have htail : x :: rest' = rest := (List.cons.inj hrest').2
              subst htail
              rw [hfound]
              apply Closed.escape
              apply ih
              · rw [List.length_cons] at hn
                omega
              · exact (closed_append_plain (a := [x]) (by simp [hquote, hescape])).mp hrest
            · rw [replace_step hmatch]
              exact .escape _ (ih rest (by omega) hrest)
          · rw [hstep hslash]
            exact .escape c (ih rest (by omega) hrest)
  exact hlength body.length body (Nat.le_refl _) h

end Replace

/-! ### Doubled punctuation -/

/-- One of two equal marks in a row is taken away. -/
def halve (a : Punct) (pieces : List Piece) : List Piece :=
  replaceAll [.punct a, .punct a] [.punct a] pieces

/-- A mark that is doubled in a text, in strings and outside of them. -/
def halveText (a : Punct) (text : List Char) : List Char :=
  replaceAll [a.char, a.char] [a.char] text

theorem halve_pair (a : Punct) (rest : List Piece) :
    halve a (.punct a :: .punct a :: rest) = .punct a :: halve a rest :=
  replace_match (List.cons_ne_nil _ _) rest

theorem pair_prefix_iff (a : Punct) (p : Piece) (rest : List Piece) :
    [.punct a, .punct a] <+: p :: rest ↔ p = .punct a ∧ rest.head? = some (.punct a) := by
  rw [List.cons_prefix_cons]
  constructor
  · rintro ⟨rfl, h⟩
    obtain ⟨after, rfl⟩ := h
    exact ⟨rfl, rfl⟩
  · rintro ⟨rfl, h⟩
    obtain ⟨after, rfl⟩ := List.head?_eq_some_iff.mp h
    exact ⟨rfl, ⟨after, rfl⟩⟩

theorem halve_step {a : Punct} {p : Piece} {rest : List Piece}
    (h : ¬ (p = .punct a ∧ rest.head? = some (.punct a))) : halve a (p :: rest) = p :: halve a rest :=
  replace_step (fun hp => h ((pair_prefix_iff a p rest).mp hp))

/-- A piece that starts with a mark is that mark. -/
theorem punct_of_head {a : Punct} {p : Piece} (h : p.Valid) (hhead : p.text.head? = some a.char) :
    p = .punct a := by
  have hne {c : Char} (hc : Punct.ofChar? c = none) : c ≠ a.char := by
    rintro rfl
    rw [punct_of_char] at hc
    cases hc
  cases p with
  | blank c =>
    have hc := punct_not_blank a
    rw [← Option.some.inj hhead, h] at hc
    cases hc
  | punct b =>
    have hb := punct_of_char b
    rw [Option.some.inj hhead, punct_of_char] at hb
    rw [Option.some.inj hb]
  | word w =>
    obtain ⟨c, w', rfl⟩ := List.exists_cons_of_ne_nil h.1
    obtain ⟨_, hc, _⟩ := (word_char_iff c).mp (h.2 c List.mem_cons_self)
    exact absurd (Option.some.inj hhead) (hne hc)
  | quoted quote body => exact absurd (Option.some.inj hhead) (hne (quote_plain h.1).2)

/-- Halving goes on after a pair or after one piece. -/
theorem halve_induction (a : Punct) {motive : List Piece → Prop} (nil : motive [])
    (pair : ∀ rest, motive rest → motive (.punct a :: .punct a :: rest))
    (step : ∀ p rest, ¬ (p = .punct a ∧ rest.head? = some (.punct a)) → motive rest →
      motive (p :: rest)) (pieces : List Piece) : motive pieces := by
  apply replace_induction (List.cons_ne_nil (Piece.punct a) [.punct a]) nil pair
  intro p rest hno hrest
  exact step p rest (fun h => hno ((pair_prefix_iff a p rest).mpr h)) hrest

/-- A piece is halved for itself, but for the mark. -/
theorem halve_piece {a : Punct} {p : Piece} (h : p.Valid) (hp : p ≠ .punct a) (rest : List Char) :
    halveText a (p.text ++ rest) = (p.map (halveText a)).text ++ halveText a rest := by
  have hone {c : Char} (hc : c ≠ a.char) (before after : List Char) :
      halveText a (before ++ c :: after) = halveText a before ++ c :: halveText a after :=
    replace_boundary (List.cons_ne_nil _ _) (by simp [hc]) before after
  cases p with
  | blank c =>
    refine hone ?_ [] _
    rintro rfl
    have hno := punct_not_blank a
    rw [h] at hno
    cases hno
  | punct b =>
    refine hone ?_ [] _
    intro heq
    have hchar := punct_of_char b
    rw [heq, punct_of_char] at hchar
    exact hp (congrArg Piece.punct (Option.some.inj hchar).symm)
  | word w =>
    have hw : a.char ∉ w := by
      intro hmem
      have hno := punct_not_word a
      rw [h.2 _ hmem] at hno
      cases hno
    have hskip (rest : List Char) : halveText a (w ++ rest) = w ++ halveText a rest :=
      replace_skip hw rest
    have hword := hskip []
    rw [List.append_nil] at hword
    rw [Piece.text, hskip, Piece.map, Piece.text, hword]
    exact congrArg (· ++ _) (List.append_nil w).symm
  | quoted quote body =>
    have hquote : quote ≠ a.char := by
      rintro rfl
      have hno := (quote_plain h.1).2
      rw [punct_of_char] at hno
      cases hno
    have hfirst (rest : List Char) : halveText a (quote :: rest) = quote :: halveText a rest :=
      hone hquote [] rest
    rw [Piece.text, List.cons_append, List.append_assoc, List.singleton_append, hfirst, hone hquote]
    simp [Piece.map, Piece.text]

/-- A mark on which none follows stays. -/
theorem halve_mark {a : Punct} {pieces : List Piece} (h : ∀ p ∈ pieces, p.Valid)
    (hnext : pieces.head? ≠ some (.punct a)) :
    halveText a (a.char :: textOf pieces) = a.char :: halveText a (textOf pieces) := by
  apply replace_step
  intro hpair
  obtain ⟨after, hafter⟩ := (List.cons_prefix_cons.mp hpair).2
  cases pieces with
  | nil => cases hafter
  | cons q pieces =>
    have hq := h q List.mem_cons_self
    rw [textOf, List.flatMap_cons] at hafter
    have hhead := congrArg List.head? hafter
    rw [List.head?_append_of_ne_nil _ (text_ne_nil hq)] at hhead
    exact hnext (congrArg some (punct_of_head hq hhead.symm))

theorem map_punct_iff (f : List Char → List Char) (p : Piece) (a : Punct) :
    p.map f = .punct a ↔ p = .punct a := by
  cases p with
  | punct b => exact Iff.rfl
  | _ => exact iff_of_false nofun nofun

/-- In a text a doubled mark is halved in each string for itself, and between the strings. -/
theorem halve_text {a : Punct} {pieces : List Piece} (h : ∀ p ∈ pieces, p.Valid) :
    halveText a (textOf pieces) = textOf (halve a (pieces.map (Piece.map (halveText a)))) := by
  induction pieces using halve_induction a with
  | nil => rfl
  | pair rest ih =>
    have hrest := ih (fun p hp => h p (List.mem_cons_of_mem _ (List.mem_cons_of_mem _ hp)))
    have hmatch : halveText a (a.char :: a.char :: textOf rest) = a.char :: halveText a (textOf rest) :=
      replace_match (List.cons_ne_nil _ _) (textOf rest)
    change halveText a (a.char :: a.char :: textOf rest) = _
    rw [hmatch, hrest, List.map_cons, List.map_cons]
    change _ = textOf (halve a (.punct a :: .punct a :: _))
    rw [halve_pair]
    rfl
  | step p rest hno ih =>
    rw [List.forall_mem_cons] at h
    have hmapped : ¬ (p.map (halveText a) = .punct a ∧
        (rest.map (Piece.map (halveText a))).head? = some (.punct a)) := by
      rintro ⟨hp, hhead⟩
      rw [List.head?_map] at hhead
      obtain ⟨q, hq, hqa⟩ := Option.map_eq_some_iff.mp hhead
      exact hno ⟨(map_punct_iff _ p a).mp hp, (map_punct_iff _ q a).mp hqa ▸ hq⟩
    have htext : halveText a (p.text ++ textOf rest) =
        (p.map (halveText a)).text ++ halveText a (textOf rest) := by
      by_cases hp : p = .punct a
      · subst hp
        exact halve_mark h.2 (fun hhead => hno ⟨rfl, hhead⟩)
      · exact halve_piece h.1 hp _
    rw [List.map_cons, halve_step hmapped, textOf, List.flatMap_cons, textOf, List.flatMap_cons]
    change halveText a (p.text ++ textOf rest) = _ ++ textOf (halve a _)
    rw [htext, ih h.2]

theorem halve_head (a : Punct) (pieces : List Piece) : (halve a pieces).head? = pieces.head? := by
  induction pieces using halve_induction a with
  | nil => rfl
  | pair rest _ => rw [halve_pair]; rfl
  | step p rest hno _ => rw [halve_step hno]; rfl

theorem halve_last (a : Punct) (pieces : List Piece) : (halve a pieces).getLast? = pieces.getLast? := by
  have hcons (p : Piece) (rest : List Piece) : (p :: rest).getLast? = some (rest.getLast?.getD p) := by
    rw [List.getLast?_cons]
  induction pieces using halve_induction a with
  | nil => rfl
  | pair rest ih => rw [halve_pair, hcons, hcons, hcons, ih]; rfl
  | step p rest hno ih => rw [halve_step hno, hcons, hcons, ih]

theorem halve_chain {a : Punct} {R : Piece → Piece → Prop} {pieces : List Piece} (h : pieces.IsChain R) :
    (halve a pieces).IsChain R := by
  induction pieces using halve_induction a with
  | nil => exact h
  | pair rest ih =>
    rw [halve_pair]
    apply (ih h.tail.tail).cons
    intro q hq
    rw [halve_head] at hq
    exact h.tail.rel_head? hq
  | step p rest hno ih =>
    rw [halve_step hno]
    apply (ih h.tail).cons
    intro q hq
    rw [halve_head] at hq
    exact h.rel_head? hq

theorem mem_halve {a : Punct} {pieces : List Piece} {p : Piece} (h : p ∈ halve a pieces) :
    p = .punct a ∨ p ∈ pieces :=
  (mem_replace (List.cons_ne_nil _ _) h).imp_left List.mem_singleton.mp

theorem halve_countP (a : Punct) {f : Piece → Bool} (hf : f (.punct a) = false) (pieces : List Piece) :
    (halve a pieces).countP f = pieces.countP f := by
  have hmark (rest : List Piece) : (Piece.punct a :: rest).countP f = rest.countP f :=
    List.countP_cons_of_neg (by rw [hf]; exact Bool.false_ne_true)
  induction pieces using halve_induction a with
  | nil => rfl
  | pair rest ih => rw [halve_pair, hmark, hmark, hmark, ih]
  | step p rest hno ih => rw [halve_step hno, List.countP_cons, List.countP_cons, ih]

/-- Where no mark is doubled nothing is halved. -/
theorem halve_single {a : Punct} {pieces : List Piece}
    (h : pieces.IsChain (fun p q => ¬ (p = .punct a ∧ q = .punct a))) : halve a pieces = pieces := by
  induction pieces with
  | nil => rfl
  | cons p pieces ih =>
    rw [halve_step, ih h.tail]
    rintro ⟨hp, hhead⟩
    exact h.rel_head? hhead ⟨hp, rfl⟩

theorem layout_closed {pieces : List Piece} (h : Layout pieces) (marks : List Punct) :
    Layout (pieces ++ marks.map Piece.punct) := by
  induction pieces with
  | nil =>
    induction marks with
    | nil => exact layout_nil
    | cons a marks ih => exact layout_cons_iff.mpr ⟨trivial, ih, fun hword => by cases hword⟩
  | cons p pieces ih =>
    obtain ⟨hvalid, hrest, hnext⟩ := layout_cons_iff.mp h
    refine layout_cons_iff.mpr ⟨hvalid, ih hrest, ?_⟩
    intro hword q hq
    cases pieces with
    | nil =>
      cases marks with
      | nil => cases hq
      | cons a marks =>
        cases hq
        rfl
    | cons p' pieces => exact hnext hword q hq

end CheshireCat.Base
