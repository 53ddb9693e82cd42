import CheshireCat.Base.Closing
import CheshireCat.Base.JsonText
import CheshireCat.Base.Numeral
import Mathlib.Data.List.DropRight

namespace CheshireCat.Utils
open Base

/-! ### The parser -/

/-- What is stripped from the end of a text: blanks and a code fence. -/
def isFenceChar (c : Char) : Bool := c ∈ [' ', '\n', '\r', '\t', '\x60']

def Stripped (text : List Char) : Prop := ∀ c ∈ text.getLast?, isFenceChar c = false

/-- `JsonOutputParser`, which returns the value of a text that is valid JSON or that is once its
open strings, lists and objects are closed. -/
structure JsonOutputParser (numbers : NumberTexts) where
  parse : List Char → Except String Json
  valid : ∀ text fence v, Stripped text → (∀ c ∈ fence, isFenceChar c = true) →
    numbers.loads text = some v → parse (text ++ fence) = .ok v
  truncated : ∀ text fence closers v, Stripped text → (∀ c ∈ fence, isFenceChar c = true) →
    numbers.loads text = none → closing text = some closers →
      numbers.loads (text ++ closers) = some v → parse (text ++ fence) = .ok v

/-- The value of a text that is valid or truncated, and an error for any other text. -/
def strictParse (numbers : NumberTexts) (text : List Char) : Except String Json :=
  let text := text.rdropWhile isFenceChar
  match numbers.loads text with
  | some v => .ok v
  | none =>
    match (closing text).bind (fun closers => numbers.loads (text ++ closers)) with
    | some v => .ok v
    | none => .error "OutputParserException"

theorem strip_fence {text fence : List Char} (htext : Stripped text)
    (hfence : ∀ c ∈ fence, isFenceChar c = true) : (text ++ fence).rdropWhile isFenceChar = text := by
  induction fence using List.reverseRecOn with
  | nil =>
    rw [List.append_nil]
    cases hlast : text.getLast? with
    | none => rw [List.getLast?_eq_none_iff.mp hlast, List.rdropWhile_nil]
    | some c =>
      obtain ⟨before, rfl⟩ := List.getLast?_eq_some_iff.mp hlast
      exact List.rdropWhile_concat_neg _ _ _ (by rw [htext c hlast]; exact Bool.false_ne_true)
  | append_singleton fence c ih =>
    rw [← List.append_assoc, List.rdropWhile_concat_pos _ _ _
      (hfence c (List.mem_append_right _ (List.mem_singleton_self c)))]
    exact ih (fun d hd => hfence d (List.mem_append_left _ hd))

/-- What is parsed has the value as it is or once it is closed. -/
theorem strict_closed {numbers : NumberTexts} {text fence : List Char} {v : Json} (htext : Stripped text)
    (hfence : ∀ c ∈ fence, isFenceChar c = true) (h : strictParse numbers (text ++ fence) = .ok v) :
    ∃ closers, (closers = [] ∨ closing text = some closers) ∧ numbers.loads (text ++ closers) = some v := by
  rw [strictParse, strip_fence htext hfence] at h
  cases hvalid : numbers.loads text with
  | some v' =>
    rw [hvalid] at h
    cases h
    refine ⟨[], Or.inl rfl, ?_⟩
    rw [List.append_nil]
    exact hvalid
  | none =>
    rw [hvalid] at h
    dsimp only at h
    split at h
    · rename_i hclosed
      cases h
      obtain ⟨closers, hclosers, hvalue⟩ := Option.bind_eq_some_iff.mp hclosed
      exact ⟨closers, Or.inr hclosers, hvalue⟩
    · cases h

def JsonOutputParser.strict (numbers : NumberTexts) : JsonOutputParser numbers where
  parse := strictParse numbers
  valid text fence v htext hfence h := by
    rw [strictParse, strip_fence htext hfence, h]
  truncated text fence closers v htext hfence hinvalid hclosing h := by
    rw [strictParse, strip_fence htext hfence, hinvalid, hclosing, Option.bind_some, h]

theorem strict_parse (numbers : NumberTexts) (text : List Char) :
    (JsonOutputParser.strict numbers).parse text = strictParse numbers text := rfl

/-! ### parse_json -/

def replaces : List (List Char × List Char) :=
  [(['\\', '_'], ['_']), (['\\', '-'], ['-']), (['N', 'o', 'n', 'e'], ['n', 'u', 'l', 'l']),
    (['\x7b', '\x7b'], ['\x7b']), (['\x7d', '\x7d'], ['\x7d'])]

/-- One replacement after the other. -/
def replaceEach (rs : List (List Char × List Char)) (text : List Char) : List Char :=
  rs.foldl (fun text r => replaceAll r.1 r.2 text) text

theorem replace_each_cons (r : List Char × List Char) (rs : List (List Char × List Char))
    (text : List Char) : replaceEach (r :: rs) text = replaceEach rs (replaceAll r.1 r.2 text) := rfl

def cleaned (text : List Char) : List Char := replaceEach replaces text

/-- The text from its first brace on is parsed, and made to a model if there is one. -/
def parseJson {numbers : NumberTexts} (parser : JsonOutputParser numbers)
    (pydanticModel : Option (Json → Except String Json)) (text : List Char) : Except String Json :=
  match (cleaned text).dropWhile (fun c => c ≠ '\x7b') with
  | [] => .error "ValueError"
  | text =>
    match parser.parse text, pydanticModel with
    | .ok v, some model => model v
    | result, _ => result

/-! ### What the replacements make of a value -/

/-- None of the texts has something that is replaced. -/
def Clean (v : Json) : Prop := ∀ s ∈ v.texts, ∀ r ∈ replaces, ¬ r.1 <:+: s.toList

/-- Two braces that close objects one after the other are followed by such braces only. -/
def ClosesLast (pieces : List Piece) : Prop :=
  ∀ before after, pieces = before ++ .punct .closeDict :: .punct .closeDict :: after →
    ∀ p ∈ after, p = .punct .closeDict

def closesLast : List Piece → Bool
  | [] => true
  | p :: rest =>
    if p = .punct .closeDict ∧ rest.head? = some (.punct .closeDict) then
      rest.all (fun p => p = .punct .closeDict)
    else closesLast rest

theorem closes_last_iff (pieces : List Piece) : closesLast pieces = true ↔ ClosesLast pieces := by
  induction pieces with
  | nil =>
    apply iff_of_true rfl
    intro before after heq
    cases before <;> cases heq
  | cons p rest ih =>
    rw [closesLast]
    split
    · rename_i hdouble
      obtain ⟨rfl, hnext⟩ := hdouble
      obtain ⟨after, rfl⟩ := List.head?_eq_some_iff.mp hnext
      rw [List.all_cons, decide_eq_true rfl, Bool.true_and, List.all_eq_true]
      constructor
      · intro hall before after' heq q hq
        have hmem : q ∈ Piece.punct .closeDict :: .punct .closeDict :: after := by
          rw [heq]
          exact List.mem_append_right _ (List.mem_cons_of_mem _ (List.mem_cons_of_mem _ hq))
        simp only [List.mem_cons] at hmem
        rcases hmem with rfl | rfl | hmem
        · rfl
        · rfl
        · exact of_decide_eq_true (hall q hmem)
      · intro hcloses q hq
        exact decide_eq_true (hcloses [] after rfl q hq)
    · rename_i hdouble
      rw [ih]
      constructor
      · intro hcloses before after heq
        cases before with
        | nil =>
          cases heq
          exact absurd ⟨rfl, rfl⟩ hdouble
        | cons q before => exact hcloses before after (List.cons.inj heq).2
      · intro hcloses before after heq
        exact hcloses (p :: before) after (congrArg (List.cons p) heq)

instance (pieces : List Piece) : Decidable (ClosesLast pieces) :=
  decidable_of_iff _ (closes_last_iff pieces)

/-- What surrounds an object is replaced for itself. -/
theorem replace_surrounded {r : List Char × List Char} (hr : r ∈ replaces) {before fence : List Char}
    (text : List Char) (hbefore : '\x7b' ∉ before) (hfence : ∀ c ∈ fence, isFenceChar c = true) :
    ∃ before' text', '\x7b' ∉ before' ∧ replaceAll r.1 r.2 ('\x7b' :: text) = '\x7b' :: text' ∧
      replaceAll r.1 r.2 (before ++ '\x7b' :: text ++ fence) = before' ++ '\x7b' :: text' ++ fence := by
  have hreplaces : ∀ r ∈ replaces, r.1 ≠ [] ∧ (∀ c ∈ r.1, isFenceChar c = false) ∧
      (r = (['\x7b', '\x7b'], ['\x7b']) ∨ '\x7b' ∉ r.1 ++ r.2) := by
    decide +kernel
  obtain ⟨hne, hchars, hbrace⟩ := hreplaces r hr
  have hnot {c : Char} (hc : isFenceChar c = true) : c ∉ r.1 := by
    intro hmem
    rw [hchars c hmem] at hc
    cases hc
  have hend (text : List Char) : replaceAll r.1 r.2 (text ++ fence) = replaceAll r.1 r.2 text ++ fence := by
    have habsent : replaceAll r.1 r.2 fence = fence := by
      apply replace_absent
      intro hoccurs
      obtain ⟨c, hc⟩ := List.exists_mem_of_ne_nil _ hne
      exact hnot (hfence c (hoccurs.subset hc)) hc
    rw [replace_append hne, habsent]
    intro c hc
    exact hnot (hfence c (List.mem_of_mem_head? hc))
  rw [hend]
  rcases hbrace with rfl | hbrace
  · have hstart : ∃ text', replaceAll ['\x7b', '\x7b'] ['\x7b'] ('\x7b' :: text) = '\x7b' :: text' := by
      by_cases hp : ['\x7b', '\x7b'] <+: '\x7b' :: text
      · obtain ⟨rest, hrest⟩ := hp
        rw [← hrest, replace_match hne]
        exact ⟨_, rfl⟩
      · rw [replace_step hp]
        exact ⟨_, rfl⟩
    obtain ⟨text', htext⟩ := hstart
    refine ⟨before, text', hbefore, htext, ?_⟩
    rw [replace_skip hbefore, htext]
  · rw [List.mem_append, not_or] at hbrace
    have hstart : replaceAll r.1 r.2 ('\x7b' :: text) = '\x7b' :: replaceAll r.1 r.2 text :=
      replace_boundary hne hbrace.1 [] text
    refine ⟨replaceAll r.1 r.2 before, replaceAll r.1 r.2 text, ?_, hstart, ?_⟩
    · intro hmem
      rcases mem_replace hne hmem with hmem | hmem
      · exact hbrace.2 hmem
      · exact hbefore hmem
    · rw [replace_boundary hne hbrace.1]

theorem cleaned_surrounded {before fence : List Char} (text : List Char) (hbefore : '\x7b' ∉ before)
    (hfence : ∀ c ∈ fence, isFenceChar c = true) :
    ∃ before' text', '\x7b' ∉ before' ∧ cleaned ('\x7b' :: text) = '\x7b' :: text' ∧
      cleaned (before ++ '\x7b' :: text ++ fence) = before' ++ '\x7b' :: text' ++ fence := by
  have hall (rs : List (List Char × List Char)) (hrs : ∀ r ∈ rs, r ∈ replaces) :
      ∀ before text, '\x7b' ∉ before → ∃ before' text', '\x7b' ∉ before' ∧
        replaceEach rs ('\x7b' :: text) = '\x7b' :: text' ∧
        replaceEach rs (before ++ '\x7b' :: text ++ fence) = before' ++ '\x7b' :: text' ++ fence := by
    induction rs with
    | nil => exact fun before text hbefore => ⟨before, text, hbefore, rfl, rfl⟩
    | cons r rs ih =>
      intro before text hbefore
      rw [List.forall_mem_cons] at hrs
      obtain ⟨before', text', hbefore', htext, hwhole⟩ := replace_surrounded hrs.1 text hbefore hfence
      rw [replace_each_cons, htext, replace_each_cons, hwhole]
      exact ih hrs.2 before' text' hbefore'
  exact hall replaces (fun _ => id) before text hbefore

section Pieces

variable {numbers : NumberTexts} {f g : List Char → List Char} {v : Json}

/-- A change of texts that leaves the words of a value and the ends of its strings. -/
structure Gentle (numbers : NumberTexts) (f : List Char → List Char) : Prop where
  constant : ∀ w, IsConstant numbers w → f w = w
  closed : ∀ body, Closed '"' body → Closed '"' (f body)

theorem gentle_id : Gentle numbers id := ⟨fun _ _ => rfl, fun _ => id⟩

theorem Gentle.comp (hf : Gentle numbers f) (hg : Gentle numbers g) : Gentle numbers (f ∘ g) where
  constant w hw := by rw [Function.comp, hg.constant w hw, hf.constant w hw]
  closed body hbody := hf.closed _ (hg.closed body hbody)

theorem gentle_replace {r : List Char × List Char} (hr : r ∈ replaces) :
    Gentle numbers (replaceAll r.1 r.2) where
  constant w hw := by
    obtain ⟨_, hchars⟩ := constant_word hw
    have hstart : ∀ r ∈ replaces, ∃ c ∈ r.1, c = '\\' ∨ c = 'N' ∨ isWordChar c = false := by decide +kernel
    obtain ⟨c, hc, hno⟩ := hstart r hr
    apply replace_absent
    intro hoccurs
    obtain ⟨hword, hback, hN⟩ := hchars c (hoccurs.subset hc)
    rcases hno with rfl | rfl | hno
    · exact hback rfl
    · exact hN rfl
    · rw [hword] at hno
      cases hno
  closed body hbody := by
    have hforms : ∀ r ∈ replaces, (∃ x ∈ ['_', '-'], r = (['\\', x], [x])) ∨
        (r.1 ≠ [] ∧ r.2 ≠ [] ∧ ∀ c ∈ r.1 ++ r.2, c ≠ '"' ∧ c ≠ '\\') := by
      decide +kernel
    rcases hforms r hr with ⟨x, hx, rfl⟩ | ⟨hold, hnew, hplain⟩
    · have hmarks : ∀ x ∈ ['_', '-'], x ≠ '"' ∧ x ≠ '\\' := by decide +kernel
      exact closed_unescape (hmarks x hx).1 (hmarks x hx).2 hbody
    · exact closed_replace hold hnew hplain hbody

theorem piece_mapped_valid (hf : Gentle numbers f) {texts : List String} {p : Piece}
    (h : PieceOf numbers texts p) : (p.map f).Valid := by
  cases h with
  | punct a => trivial
  | word hw =>
    change (Piece.word (f _)).Valid
    rw [hf.constant _ hw]
    exact (PieceOf.word hw : PieceOf numbers texts _).valid
  | text _ => exact ⟨rfl, hf.closed _ (encode_closed _)⟩

theorem mapped_chain (f : List Char → List Char) (v : Json) :
    ((numbers.tree v).pieces.map (Piece.map f)).IsChain Beside := by
  apply (List.isChain_map _).mpr
  apply (tree_chain _ (tree_leaves numbers v)).imp
  intro p q hpq
  rw [Beside, punct_map_iff, punct_map_iff]
  simp only [punct_map_iff]
  exact hpq

theorem mapped_layout (hf : Gentle numbers f) (v : Json) :
    Layout (spaced ((numbers.tree v).pieces.map (Piece.map f))) := by
  apply layout_spaced _ (mapped_chain f v)
  intro p hp
  obtain ⟨q, hq, rfl⟩ := List.mem_map.mp hp
  exact piece_mapped_valid hf (tree_pieces numbers v q hq)

theorem piece_map_comp (f g : List Char → List Char) (p : Piece) :
    (p.map g).map f = p.map (f ∘ g) := by
  cases p <;> rfl

theorem replace_mapped {r : List Char × List Char} (hne : r.1 ≠ [])
    (hword : ∀ c ∈ r.1, isWordChar c = true) (hg : Gentle numbers g) (v : Json) :
    replaceAll r.1 r.2 (textOf (spaced ((numbers.tree v).pieces.map (Piece.map g)))) =
      textOf (spaced ((numbers.tree v).pieces.map (Piece.map (replaceAll r.1 r.2 ∘ g)))) := by
  rw [replace_layout hne hword (mapped_layout hg v), spaced_map, List.map_map]
  simp only [Function.comp_def, piece_map_comp]

theorem halve_mapped {a : Punct} (hcomma : a ≠ .comma) (hcolon : a ≠ .colon) (hg : Gentle numbers g)
    (v : Json) : halveText a (textOf (spaced ((numbers.tree v).pieces.map (Piece.map g)))) =
      textOf (spaced (halve a ((numbers.tree v).pieces.map (Piece.map (halveText a ∘ g))))) := by
  rw [halve_text (mapped_layout hg v).valid, spaced_map, List.map_map, spaced_halve hcomma hcolon]
  simp only [Function.comp_def, piece_map_comp]

/-- The replacements reach the strings one by one, and take one of two closing braces away. -/
theorem cleaned_dumps (v : Json) : cleaned (numbers.dumps v) =
    textOf (spaced (halve .closeDict ((numbers.tree v).pieces.map (Piece.map cleaned)))) := by
  have hstart : numbers.dumps v = textOf (spaced ((numbers.tree v).pieces.map (Piece.map id))) := by
    have hid : Piece.map id = id := by
      funext p
      cases p <;> rfl
    rw [hid, List.map_id]
    rfl
  have hopen (f : List Char → List Char) : halve .openDict ((numbers.tree v).pieces.map (Piece.map f)) =
      (numbers.tree v).pieces.map (Piece.map f) :=
    halve_single ((mapped_chain f v).imp (fun p q hpq => hpq.2))
  let unscored : List Char → List Char := replaceAll ['\\', '_'] ['_']
  let undashed : List Char → List Char := replaceAll ['\\', '-'] ['-']
  let nulled : List Char → List Char := replaceAll ['N', 'o', 'n', 'e'] ['n', 'u', 'l', 'l']
  have hscore : Gentle numbers (unscored ∘ id) :=
    (gentle_replace (r := (['\\', '_'], ['_'])) (by decide)).comp gentle_id
  have hdash : Gentle numbers (undashed ∘ unscored ∘ id) :=
    (gentle_replace (r := (['\\', '-'], ['-'])) (by decide)).comp hscore
  have hnull : Gentle numbers (nulled ∘ undashed ∘ unscored ∘ id) :=
    (gentle_replace (r := (['N', 'o', 'n', 'e'], ['n', 'u', 'l', 'l'])) (by decide)).comp hdash
  have hbrace : Gentle numbers (halveText .openDict ∘ nulled ∘ undashed ∘ unscored ∘ id) :=
    (gentle_replace (r := (['\x7b', '\x7b'], ['\x7b'])) (by decide)).comp hnull
  calc cleaned (numbers.dumps v)
      = halveText .closeDict (halveText .openDict (nulled (undashed (unscored
          (textOf (spaced ((numbers.tree v).pieces.map (Piece.map id)))))))) := by rw [hstart]; rfl
    _ = halveText .closeDict (halveText .openDict (nulled (undashed
          (textOf (spaced ((numbers.tree v).pieces.map (Piece.map (unscored ∘ id)))))))) :=
        congrArg (fun text => halveText .closeDict (halveText .openDict (nulled (undashed text))))
          (replace_mapped (r := (['\\', '_'], ['_'])) (by decide +kernel) (by decide +kernel) gentle_id v)
    _ = halveText .closeDict (halveText .openDict (nulled
          (textOf (spaced ((numbers.tree v).pieces.map (Piece.map (undashed ∘ unscored ∘ id))))))) :=
        congrArg (fun text => halveText .closeDict (halveText .openDict (nulled text)))
          (replace_mapped (r := (['\\', '-'], ['-'])) (by decide +kernel) (by decide +kernel) hscore v)
    _ = halveText .closeDict (halveText .openDict (textOf (spaced ((numbers.tree v).pieces.map
          (Piece.map (nulled ∘ undashed ∘ unscored ∘ id)))))) :=
        congrArg (fun text => halveText .closeDict (halveText .openDict text))
          (replace_mapped (r := (['N', 'o', 'n', 'e'], ['n', 'u', 'l', 'l'])) (by decide +kernel) (by decide +kernel) hdash v)
    _ = halveText .closeDict (textOf (spaced ((numbers.tree v).pieces.map
          (Piece.map (halveText .openDict ∘ nulled ∘ undashed ∘ unscored ∘ id))))) := by
        rw [halve_mapped (by decide) (by decide) hnull, hopen]
    _ = textOf (spaced (halve .closeDict ((numbers.tree v).pieces.map (Piece.map cleaned)))) :=
        halve_mapped (by decide) (by decide) hbrace v

end Pieces

/-! ### Strings that are kept -/

theorem cleaned_printable {text : List Char} (h : ∀ c ∈ text, isPrintable c = true) :
    ∀ c ∈ cleaned text, isPrintable c = true := by
  have hnew : ∀ r ∈ replaces, r.1 ≠ [] ∧ ∀ c ∈ r.2, isPrintable c = true := by decide +kernel
  have hall (rs : List (List Char × List Char)) (hrs : ∀ r ∈ rs, r ∈ replaces) :
      ∀ text : List Char, (∀ c ∈ text, isPrintable c = true) →
        ∀ c ∈ replaceEach rs text, isPrintable c = true := by
    induction rs with
    | nil => exact fun _ htext => htext
    | cons r rs ih =>
      intro text htext
      rw [List.forall_mem_cons] at hrs
      apply ih hrs.2
      intro c hc
      rcases mem_replace (hnew r hrs.1).1 hc with hc | hc
      · exact (hnew r hrs.1).2 c hc
      · exact htext c hc
  exact hall replaces (fun _ => id) text h

/-- What stands in a text stands in its encoding too. -/
theorem infix_replaced {r : List Char × List Char} (hr : r ∈ replaces) {s : List Char} :
    r.1 <:+: encode s ↔ r.1 <:+: s := by
  have hforms : ∀ r ∈ replaces, (∃ x ∈ ['_', '-'], r.1 = ['\\', x]) ∨
      ∃ o ∈ ['N', '\x7b', '\x7d'], ∃ old ∈ [['o', 'n', 'e'], ['\x7b'], ['\x7d']], r.1 = o :: old := by
    decide +kernel
  rcases hforms r hr with ⟨x, hx, heq⟩ | ⟨o, ho, old, hold, heq⟩
  · have hmarks : ∀ x ∈ ['_', '-'], x ∉ escapeChars ∧ isKept x = true := by decide +kernel
    rw [heq]
    exact ⟨infix_encode (hmarks x hx).1, encode_infix (hmarks x hx).2⟩
  · have hmarks : ∀ o ∈ ['N', '\x7b', '\x7d'], o ∉ escapeChars ∧ isKept o = true := by decide +kernel
    have hrest : ∀ old ∈ [['o', 'n', 'e'], ['\x7b'], ['\x7d']], ∀ c ∈ old, isKept c = true := by decide +kernel
    have hkept : ∀ c ∈ o :: old, isKept c = true :=
      List.forall_mem_cons.mpr ⟨(hmarks o ho).2, hrest old hold⟩
    rw [heq]
    exact ⟨infix_encode_kept hkept (hmarks o ho).1, encode_infix_kept hkept⟩

theorem cleaned_kept {s : List Char} (h : ∀ r ∈ replaces, ¬ r.1 <:+: s) : cleaned (encode s) = encode s := by
  have hsame (rs : List (List Char × List Char)) (hrs : ∀ r ∈ rs, r ∈ replaces) :
      replaceEach rs (encode s) = encode s := by
    induction rs with
    | nil => rfl
    | cons r rs ih =>
      rw [List.forall_mem_cons] at hrs
      rw [replace_each_cons, replace_absent (fun hoccurs => h r hrs.1 ((infix_replaced hrs.1).mp hoccurs))]
      exact ih hrs.2
  exact hsame replaces (fun _ => id)

/-- Replacements by something shorter leave a text as long as it is only where nothing is found. -/
theorem shrinking_shorter (rs : List (List Char × List Char))
    (h : ∀ r ∈ rs, r.1 ≠ [] ∧ r.2.length < r.1.length) (text : List Char) :
    (replaceEach rs text).length ≤ text.length ∧
    (text.length ≤ (replaceEach rs text).length →
      replaceEach rs text = text ∧ ∀ r ∈ rs, ¬ r.1 <:+: text) := by
  induction rs generalizing text with
  | nil => exact ⟨Nat.le_refl _, fun _ => ⟨rfl, nofun⟩⟩
  | cons r rs ih =>
    rw [List.forall_mem_cons] at h
    have hle := replace_length_le h.1.1 (Nat.le_of_lt h.1.2) text
    obtain ⟨hrest, hkept⟩ := ih h.2 (replaceAll r.1 r.2 text)
    rw [replace_each_cons]
    refine ⟨Nat.le_trans hrest hle, fun hlength => ?_⟩
    have habsent : ¬ r.1 <:+: text := by
      intro hoccurs
      have hshorter := replace_shorter h.1.1 h.1.2 hoccurs
      omega
    rw [replace_absent habsent] at hkept hlength ⊢
    obtain ⟨hsame, hothers⟩ := hkept hlength
    exact ⟨hsame, List.forall_mem_cons.mpr ⟨habsent, hothers⟩⟩

def unescapes : List (List Char × List Char) := [(['\\', '_'], ['_']), (['\\', '-'], ['-'])]

def noneToNull (text : List Char) : List Char := replaceAll ['N', 'o', 'n', 'e'] ['n', 'u', 'l', 'l'] text

def braces : List (List Char × List Char) :=
  [(['\x7b', '\x7b'], ['\x7b']), (['\x7d', '\x7d'], ['\x7d'])]

/-- A string has its text after the replacements where nothing in it is replaced. -/
theorem cleaned_string_iff (s : List Char) :
    jsonEscapes.decode (cleaned (encode s)) = some s ↔ ∀ r ∈ replaces, ¬ r.1 <:+: s := by
  constructor
  · intro hread
    have hshortest := encode_shortest (cleaned_printable (fun c hc => encode_printable hc)) hread
    have hunescapes := shrinking_shorter unescapes (by decide)
    have hbraces := shrinking_shorter braces (by decide)
    have hlength (text : List Char) : (noneToNull text).length = text.length :=
      replace_same_length (List.cons_ne_nil _ _) (by rfl) text
    have hencode : noneToNull (encode s) = encode (noneToNull s) :=
      replace_encode (by decide +kernel) (by decide +kernel) (by decide +kernel) s
    have hcleaned : cleaned (encode s) =
        replaceEach braces (noneToNull (replaceEach unescapes (encode s))) := rfl
    rw [hcleaned] at hread hshortest
    -- nothing that would make the text shorter is found
    obtain ⟨hle, hkept⟩ := hunescapes (encode s)
    have hbound := (hbraces (noneToNull (replaceEach unescapes (encode s)))).1
    rw [hlength] at hbound
    obtain ⟨hsame, habsent⟩ := hkept (Nat.le_trans hshortest hbound)
    rw [hsame] at hread hshortest
    obtain ⟨hsame', habsent'⟩ := (hbraces (noneToNull (encode s))).2 (by rw [hlength]; exact hshortest)
    -- and with a `None` it would be another text
    rw [hsame', hencode, decode_encode] at hread
    have hnull : noneToNull s = s := Option.some.inj hread
    rw [hencode, hnull] at habsent'
    intro r hr hoccurs
    have hoccurs' := (infix_replaced hr).mpr hoccurs
    simp only [replaces, List.mem_cons, List.not_mem_nil, or_false] at hr
    rcases hr with rfl | rfl | rfl | rfl | rfl
    · exact habsent _ (by decide) hoccurs'
    · exact habsent _ (by decide) hoccurs'
    · exact replace_changes (List.cons_ne_nil _ _) (by rfl) (by decide) hoccurs hnull
    · exact habsent' _ (by decide) hoccurs'
    · exact habsent' _ (by decide) hoccurs'
  · intro habsent
    rw [cleaned_kept habsent, decode_encode]

/-! ### Braces that close last -/

theorem braces_halved {pieces : List Piece} (h : ∀ p ∈ pieces, p = .punct .closeDict) :
    ∃ m, pieces = halve .closeDict pieces ++ List.replicate m (.punct .closeDict) := by
  have hhalved : ∀ p ∈ halve .closeDict pieces, p = .punct .closeDict := by
    intro p hp
    rcases mem_halve hp with hp | hp
    · exact hp
    · exact h p hp
  have hle : (halve .closeDict pieces).length ≤ pieces.length :=
    replace_length_le (List.cons_ne_nil _ _) (by decide) pieces
  refine ⟨pieces.length - (halve .closeDict pieces).length, ?_⟩
  have hall := List.eq_replicate_of_mem h
  have hall' := List.eq_replicate_of_mem hhalved
  generalize (halve .closeDict pieces).length = n at hall' hle ⊢
  rw [hall', List.replicate_append_replicate, Nat.add_sub_cancel' hle]
  exact hall

/-- Only the last braces of a text are halved. -/
theorem ClosesLast.halved {pieces : List Piece} (h : ClosesLast pieces) :
    ∃ m, pieces = halve .closeDict pieces ++ List.replicate m (.punct .closeDict) := by
  induction pieces using halve_induction .closeDict with
  | nil => exact ⟨0, rfl⟩
  | pair rest _ =>
    apply braces_halved
    intro p hp
    simp only [List.mem_cons] at hp
    rcases hp with rfl | rfl | hp
    · rfl
    · rfl
    · exact h [] rest rfl p hp
  | step p rest hno ih =>
    obtain ⟨m, hm⟩ := ih (fun before after heq => h (p :: before) after (congrArg (List.cons p) heq))
    refine ⟨m, ?_⟩
    rw [halve_step hno]
    exact congrArg (List.cons p) hm

theorem same_punct {p : Piece} {a : Punct} (h : Same p (.punct a)) : p = .punct a := by
  generalize hq : Piece.punct a = q at h
  cases h with
  | punct b => rfl
  | word w w' => cases hq
  | text _ => cases hq

variable {closers : List Piece} {f : List Char → List Char}

theorem mapped_pair {p : Piece} {rest : List Piece} {a : Punct}
    (h : ¬ (p = .punct a ∧ rest.head? = some (.punct a))) :
    ¬ (p.map f = .punct a ∧ (rest.map (Piece.map f)).head? = some (.punct a)) := by
  rintro ⟨hp, hhead⟩
  rw [List.head?_map] at hhead
  obtain ⟨q, hq, hqa⟩ := Option.map_eq_some_iff.mp hhead
  exact h ⟨(punct_map_iff f p a).mp hp, (punct_map_iff f q a).mp hqa ▸ hq⟩

/-- A text that is behind by a brace catches up only at its end. -/
theorem behind_braces {pieces : List Piece} {m : Nat} (hm : 0 < m)
    (h : List.Forall₂ Same (halve .closeDict (pieces.map (Piece.map f)) ++ closers)
      (List.replicate m (.punct .closeDict) ++ pieces)) : ∀ p ∈ pieces, p = .punct .closeDict := by
  have hnext (n : Nat) (rest : List Piece) :
      List.replicate n (Piece.punct .closeDict) ++ .punct .closeDict :: rest =
        List.replicate (n + 1) (.punct .closeDict) ++ rest := by
    rw [List.replicate_succ', List.append_assoc]
    rfl
  induction pieces using halve_induction .closeDict generalizing m with
  | nil => exact nofun
  | pair rest ih =>
    obtain ⟨n, rfl⟩ := Nat.exists_eq_succ_of_ne_zero (Nat.ne_of_gt hm)
    have hpair : halve .closeDict ((Piece.punct .closeDict :: .punct .closeDict :: rest).map (Piece.map f)) =
        .punct .closeDict :: halve .closeDict (rest.map (Piece.map f)) := halve_pair _ _
    rw [hpair, List.replicate_succ, List.cons_append, List.cons_append, List.forall₂_cons, hnext, hnext] at h
    have hrest := ih (Nat.succ_pos _) h.2
    exact List.forall_mem_cons.mpr ⟨rfl, List.forall_mem_cons.mpr ⟨rfl, hrest⟩⟩
  | step p rest hno ih =>
    obtain ⟨n, rfl⟩ := Nat.exists_eq_succ_of_ne_zero (Nat.ne_of_gt hm)
    rw [List.map_cons, halve_step (mapped_pair hno), List.replicate_succ, List.cons_append, List.cons_append,
      List.forall₂_cons] at h
    have hp := (punct_map_iff f p _).mp (same_punct h.1)
    subst hp
    rw [hnext] at h
    exact List.forall_mem_cons.mpr ⟨rfl, ih (Nat.succ_pos _) h.2⟩

/-- A text with the pieces of a value has its last braces halved only, and its strings. -/
theorem aligned_closes {pieces : List Piece}
    (h : List.Forall₂ Same (halve .closeDict (pieces.map (Piece.map f)) ++ closers) pieces) :
    ClosesLast pieces ∧ ∀ p ∈ pieces, p.isQuoted = true → Same (p.map f) p := by
  induction pieces using halve_induction .closeDict with
  | nil =>
    refine ⟨?_, nofun⟩
    intro before after heq
    cases before <;> cases heq
  | pair rest _ =>
    have hpair : halve .closeDict ((Piece.punct .closeDict :: .punct .closeDict :: rest).map (Piece.map f)) =
        .punct .closeDict :: halve .closeDict (rest.map (Piece.map f)) := halve_pair _ _
    rw [hpair, List.cons_append, List.forall₂_cons] at h
    have hall : ∀ p ∈ Piece.punct .closeDict :: .punct .closeDict :: rest, p = .punct .closeDict :=
      List.forall_mem_cons.mpr ⟨rfl, List.forall_mem_cons.mpr ⟨rfl, behind_braces Nat.one_pos h.2⟩⟩
    constructor
    · intro before after heq p hp
      exact hall p (heq ▸ List.mem_append_right _ (List.mem_cons_of_mem _ (List.mem_cons_of_mem _ hp)))
    · intro p hp hquoted
      rw [hall p hp] at hquoted
      cases hquoted
  | step p rest hno ih =>
    rw [List.map_cons, halve_step (mapped_pair hno), List.cons_append, List.forall₂_cons] at h
    obtain ⟨hcloses, hstrings⟩ := ih h.2
    constructor
    · intro before after heq
      cases before with
      | nil =>
        cases heq
        exact absurd ⟨rfl, rfl⟩ hno
      | cons q before => exact hcloses before after (List.cons.inj heq).2
    · intro q hq hquoted
      rcases List.mem_cons.mp hq with rfl | hq
      · exact h.1
      · exact hstrings q hq hquoted

/-! ### Reading the text again -/

section Read

variable {numbers : NumberTexts} {v : Json} {fields : List (String × Json)}

theorem object_pieces (fields : List (String × Json)) : (numbers.tree (.obj fields)).pieces =
    .punct .openDict :: (entryPieces (numbers.fieldTrees fields) ++ [.punct .closeDict]) := rfl

theorem parse_json_surrounded (parser : JsonOutputParser numbers) {before fence : List Char}
    (hbefore : '\x7b' ∉ before) (hfence : ∀ c ∈ fence, isFenceChar c = true) :
    parseJson parser none (before ++ numbers.dumps (.obj fields) ++ fence) =
      parser.parse (cleaned (numbers.dumps (.obj fields)) ++ fence) := by
  obtain ⟨text, htext⟩ : ∃ text, numbers.dumps (.obj fields) = '\x7b' :: text := ⟨_, rfl⟩
  obtain ⟨before', text', hbefore', hcleaned, hwhole⟩ :=
    cleaned_surrounded text hbefore hfence
  have hdrop : (before' ++ '\x7b' :: text' ++ fence).dropWhile (fun c => c ≠ '\x7b') =
      '\x7b' :: text' ++ fence := by
    rw [List.append_assoc, List.dropWhile_append_of_pos]
    · rfl
    · intro c hc
      rw [decide_eq_true_eq]
      rintro rfl
      exact hbefore' hc
  rw [parseJson, htext, hwhole, hdrop, hcleaned]
  dsimp only [List.cons_append]
  cases parser.parse ('\x7b' :: (text' ++ fence)) <;> rfl

/-- The pieces of a value after the replacements. -/
def cleanedPieces (numbers : NumberTexts) (v : Json) : List Piece :=
  halve .closeDict ((numbers.tree v).pieces.map (Piece.map cleaned))

theorem gentle_cleaned : Gentle numbers cleaned := by
  have hall (rs : List (List Char × List Char)) (hrs : ∀ r ∈ rs, r ∈ replaces) :
      Gentle numbers (replaceEach rs) := by
    induction rs with
    | nil => exact gentle_id
    | cons r rs ih =>
      rw [List.forall_mem_cons] at hrs
      exact (ih hrs.2).comp (gentle_replace hrs.1)
  exact hall replaces (fun _ => id)

theorem mem_cleaned_pieces {p : Piece} (h : p ∈ cleanedPieces numbers v) : p.Valid ∧ p.isBlank = false ∧
    ∀ quote body, p = .quoted quote body → quote = '"' := by
  rcases mem_halve h with rfl | h
  · exact ⟨trivial, rfl, nofun⟩
  · obtain ⟨q, hq, rfl⟩ := List.mem_map.mp h
    have hpiece := tree_pieces numbers v q hq
    refine ⟨piece_mapped_valid gentle_cleaned hpiece, ?_⟩
    cases hpiece with
    | punct a => exact ⟨rfl, nofun⟩
    | word hw => exact ⟨rfl, nofun⟩
    | text hs => exact ⟨rfl, fun quote body heq => by cases heq; rfl⟩

theorem cleaned_layout (numbers : NumberTexts) (v : Json) : Layout (spaced (cleanedPieces numbers v)) :=
  layout_spaced (fun _ hp => (mem_cleaned_pieces hp).1) (halve_chain (mapped_chain cleaned v))

theorem parse_json_dumps (parser : JsonOutputParser numbers) :
    parseJson parser none (numbers.dumps (.obj fields)) =
      parser.parse (cleaned (numbers.dumps (.obj fields)) ++ []) := by
  have h : parseJson parser none ([] ++ numbers.dumps (.obj fields) ++ []) =
      parser.parse (cleaned (numbers.dumps (.obj fields)) ++ []) :=
    parse_json_surrounded parser List.not_mem_nil (fun _ hc => absurd hc List.not_mem_nil)
  rw [List.nil_append, List.append_nil] at h
  exact h

theorem cleaned_stripped (numbers : NumberTexts) (fields : List (String × Json)) :
    Stripped (cleaned (numbers.dumps (.obj fields))) := by
  have hlast : (cleanedPieces numbers (.obj fields)).getLast? = some (.punct .closeDict) := by
    rw [cleanedPieces, halve_last, object_pieces, ← List.cons_append, List.map_append]
    exact List.getLast?_concat
  obtain ⟨before, hbefore⟩ := List.getLast?_eq_some_iff.mp hlast
  have htext : cleaned (numbers.dumps (.obj fields)) = textOf (spaced before) ++ ['\x7d'] := by
    rw [cleaned_dumps]
    change textOf (spaced (cleanedPieces numbers (.obj fields))) = _
    rw [hbefore, spaced_append, text_of_append]
    rfl
  rw [Stripped, htext, List.getLast?_concat]
  intro c hc
  cases hc
  decide

theorem closing_cleaned (v : Json) : closing (cleaned (numbers.dumps v)) =
    ((spaced (cleanedPieces numbers v)).foldlM closePiece []).map (fun stack => stack.map Punct.char) := by
  rw [cleaned_dumps]
  apply closing_pieces (cleaned_layout numbers v).valid
  intro quote body h
  obtain ⟨p, hp, hmem⟩ := List.mem_flatMap.mp h
  have hcases : Piece.quoted quote body = p ∨ Piece.quoted quote body = .blank ' ' := by
    split at hmem
    · simpa using hmem
    · exact Or.inl (List.mem_singleton.mp hmem)
  rcases hcases with rfl | heq
  · exact (mem_cleaned_pieces hp).2.2 quote body rfl
  · cases heq

/-- Where the text, once it is closed, has the value, it has its pieces. -/
theorem cleaned_aligned {marks : List Punct}
    (h : numbers.loads (cleaned (numbers.dumps v) ++ marks.map Punct.char) = some v) :
    List.Forall₂ Same (cleanedPieces numbers v ++ marks.map Piece.punct) (numbers.tree v).pieces := by
  have htext : cleaned (numbers.dumps v) ++ marks.map Punct.char =
      textOf (spaced (cleanedPieces numbers v) ++ marks.map Piece.punct) := by
    rw [cleaned_dumps, text_of_append, text_of_marks]
    rfl
  rw [htext, NumberTexts.loads, lex_text (layout_closed (cleaned_layout numbers v) marks), Option.bind_some] at h
  obtain ⟨t, ht, hvalue⟩ := Option.bind_eq_some_iff.mp h
  have hpieces : t.pieces = cleanedPieces numbers v ++ marks.map Piece.punct := by
    have hmarks : (marks.map Piece.punct).filter (fun p => !p.isBlank) = marks.map Piece.punct := by
      apply List.filter_eq_self.mpr
      intro p hp
      obtain ⟨a, _, rfl⟩ := List.mem_map.mp hp
      rfl
    rw [parse_pieces ht, List.filter_append, hmarks,
      spaced_without_blanks (fun p hp => (mem_cleaned_pieces hp).2.1)]
  obtain ⟨_, hsame⟩ := aligned_tree t v hvalue
  rw [hpieces] at hsame
  apply hsame
  have hmarks : (marks.map Piece.punct).countP Piece.isQuoted = 0 := by
    apply List.countP_eq_zero.mpr
    intro p hp
    obtain ⟨a, _, rfl⟩ := List.mem_map.mp hp
    exact Bool.false_ne_true
  have hquoted : Piece.isQuoted ∘ Piece.map cleaned = Piece.isQuoted := by
    funext p
    cases p <;> rfl
  rw [List.countP_append, hmarks, cleanedPieces, halve_countP _ rfl, List.countP_map, hquoted, count_tree]
  rfl

/-- A string has its text again where it is kept. -/
theorem same_string_iff (s : String) :
    Same ((quote s).map cleaned) (quote s) ↔ ∀ r ∈ replaces, ¬ r.1 <:+: s.toList := by
  rw [← cleaned_string_iff]
  have hread (s' : String) : readText (.quoted '"' (cleaned (encode s.toList))) = some s' ↔
      jsonEscapes.decode (cleaned (encode s.toList)) = some s'.toList := by
    rw [readText, if_pos rfl, Option.map_eq_some_iff]
    constructor
    · rintro ⟨t, ht, rfl⟩
      rw [ht, String.toList_ofList]
    · intro h
      exact ⟨_, h, String.ofList_toList⟩
  have hmapped : (quote s).map cleaned = .quoted '"' (cleaned (encode s.toList)) := rfl
  rw [hmapped]
  constructor
  · intro h
    generalize hq : quote s = q at h
    cases h with
    | @text _ s' h =>
      have hsame : s = s' := by
        have htext := congrArg readText hq
        rw [read_quote, read_quote] at htext
        exact Option.some.inj htext
      subst hsame
      exact (hread s).mp h
  · intro h
    exact .text ((hread s).mpr h)

theorem clean_closes (parser : JsonOutputParser numbers) (hdistinct : (Json.obj fields).distinct = true)
    (hclean : Clean (.obj fields)) (hcloses : ClosesLast (numbers.tree (.obj fields)).pieces)
    {fence : List Char} (hfence : ∀ c ∈ fence, isFenceChar c = true) :
    parser.parse (cleaned (numbers.dumps (.obj fields)) ++ fence) = .ok (.obj fields) := by
  have hkept : (numbers.tree (.obj fields)).pieces.map (Piece.map cleaned) =
      (numbers.tree (.obj fields)).pieces := by
    have hall : ∀ p ∈ (numbers.tree (.obj fields)).pieces, p.map cleaned = id p := by
      intro p hp
      cases tree_pieces numbers _ p hp with
      | punct a => rfl
      | word hw => exact congrArg Piece.word (gentle_cleaned.constant _ hw)
      | text hs => exact congrArg (Piece.quoted '"') (cleaned_kept (hclean _ hs))
    rw [List.map_congr_left hall, List.map_id]
  obtain ⟨m, hm⟩ := hcloses.halved
  have hpieces : cleanedPieces numbers (.obj fields) =
      halve .closeDict (numbers.tree (.obj fields)).pieces := by
    rw [cleanedPieces, hkept]
  rw [← hpieces] at hm
  have hstripped := cleaned_stripped numbers fields
  have hmarks : List.replicate m (Piece.punct .closeDict) = (List.replicate m .closeDict).map .punct :=
    List.map_replicate.symm
  have hclosed : cleaned (numbers.dumps (.obj fields)) ++ (List.replicate m Punct.closeDict).map Punct.char =
      numbers.dumps (.obj fields) := by
    have hspaced : spaced (List.replicate m (Piece.punct .closeDict)) = List.replicate m (.punct .closeDict) := by
      clear hm hmarks
      induction m with
      | zero => rfl
      | succ m ih => exact congrArg (List.cons _) ih
    have hdumps : numbers.dumps (.obj fields) = textOf (spaced (cleanedPieces numbers (.obj fields))) ++
        (List.replicate m Punct.closeDict).map Punct.char := by
      rw [NumberTexts.dumps, hm, spaced_append, text_of_append, hspaced, hmarks, text_of_marks]
    rw [cleaned_dumps]
    exact hdumps.symm
  cases m with
  | zero =>
    apply parser.valid _ _ _ hstripped hfence
    rw [List.replicate_zero, List.map_nil, List.append_nil] at hclosed
    rw [hclosed, loads_dumps hdistinct]
  | succ m =>
    have hparse : parse false (cleanedPieces numbers (.obj fields) ++
        List.replicate (m + 1) (.punct .closeDict)) = some (numbers.tree (.obj fields)) := by
      rw [← hm, parse_tree false (tree_leaves numbers _)]
    have hno : ∀ p ∈ cleanedPieces numbers (.obj fields), p.isBlank = false :=
      fun _ hp => (mem_cleaned_pieces hp).2.1
    have hblanks := spaced_without_blanks hno
    obtain ⟨hnone, hopen⟩ := truncated_braces (Nat.succ_pos m) hparse
    apply parser.truncated _ _ _ _ hstripped hfence
    · have hlex := lex_text (cleaned_layout numbers (.obj fields))
      rw [NumberTexts.loads, cleaned_dumps]
      change ((lex (textOf (spaced (cleanedPieces numbers (.obj fields))))).bind _).bind _ = _
      rw [hlex, Option.bind_some, ← parse_without_blanks, hblanks, hnone]
      rfl
    · rw [closing_cleaned, ← run_without_blanks (fun _ _ => rfl), hblanks, hopen]
      rfl
    · rw [hclosed, loads_dumps hdistinct]

/-- An object is parsed from its text in any surroundings, by every parser, where no text of it
is changed and its doubled braces come last. -/
theorem parse_json_iff (hdistinct : (Json.obj fields).distinct = true) {before fence : List Char}
    (hbefore : '\x7b' ∉ before) (hfence : ∀ c ∈ fence, isFenceChar c = true) :
    (∀ parser : JsonOutputParser numbers,
      parseJson parser none (before ++ numbers.dumps (.obj fields) ++ fence) = .ok (.obj fields)) ↔
    Clean (.obj fields) ∧ ClosesLast (numbers.tree (.obj fields)).pieces := by
  constructor
  · intro hparse
    have hstrict : strictParse numbers (cleaned (numbers.dumps (.obj fields)) ++ fence) = .ok (.obj fields) := by
      rw [← hparse (.strict numbers), parse_json_surrounded _ hbefore hfence, strict_parse]
    have hstripped := cleaned_stripped numbers fields
    generalize htext : cleaned (numbers.dumps (.obj fields)) = text at hstrict hstripped
    obtain ⟨closers, hclosers, hvalue⟩ := strict_closed hstripped hfence hstrict
    subst htext
    obtain ⟨marks, rfl⟩ : ∃ marks : List Punct, closers = marks.map Punct.char := by
      rcases hclosers with rfl | hclosing
      · exact ⟨[], rfl⟩
      · rw [closing_cleaned] at hclosing
        obtain ⟨marks, _, rfl⟩ := Option.map_eq_some_iff.mp hclosing
        exact ⟨marks, rfl⟩
    obtain ⟨hcloses, hstrings⟩ := aligned_closes (cleaned_aligned hvalue)
    refine ⟨?_, hcloses⟩
    intro s hs
    exact (same_string_iff s).mp (hstrings _ (texts_pieces numbers _ s hs) rfl)
  · rintro ⟨hclean, hcloses⟩ parser
    rw [parse_json_surrounded parser hbefore hfence]
    exact clean_closes parser hdistinct hclean hcloses hfence

end Read

/-! ### An order -/

/-- Integers and fractions. -/
def plainNumbers : NumberTexts where
  write
    | .int n => intText n
    | .float q => ratText q
  read w := ((readInt? w).map Number.int).or ((readRat? w).map Number.float)
  read_write n := by
    cases n with
    | int n => rw [read_int_text]; rfl
    | float q => rw [read_int_rat, read_rat_text]; rfl
  write_ne_nil n := by
    cases n with
    | int n => exact int_text_ne_nil n
    | float q => exact rat_text_ne_nil q
  letters n c hc := by
    have hnumeral : isNumeral c = true := by
      cases n with
      | int n => exact List.all_eq_true.mp (int_text_numeral n) c hc
      | float q => exact List.all_eq_true.mp (rat_text_numeral q) c hc
    have hall : ∀ c ∈ ['0', '1', '2', '3', '4', '5', '6', '7', '8', '9', '-', '.', '/'],
        isWordChar c = true ∧ c ≠ '\\' ∧ (c.isAlpha = true → c = 'e') := by
      decide +kernel
    exact hall c (numeral_mem hnumeral)

/-- An order whose address stands last, or before the number of the table. -/
def order (after : List (String × Json)) : List (String × Json) :=
  ("address", .obj [("street", .obj [("number", .number (.int 1))])]) :: after

theorem order_parsed :
    plainNumbers.dumps (.obj (order [])) =
      "\x7b\"address\": \x7b\"street\": \x7b\"number\": 1\x7d\x7d\x7d".toList ∧
    ∀ parser : JsonOutputParser plainNumbers,
      parseJson parser none ("the order is \x60\x60\x60json\n".toList ++ plainNumbers.dumps (.obj (order [])) ++
        "\n\x60\x60\x60".toList) = .ok (.obj (order [])) :=
  ⟨by decide +kernel, (parse_json_iff (by decide +kernel) (by decide +kernel) (by decide +kernel)).mpr
    ⟨by unfold Clean; decide +kernel, by decide +kernel⟩⟩

/-- The brace that is dropped puts the table into the address, and a note changes its text. -/
theorem table_moved :
    (∀ parser : JsonOutputParser plainNumbers,
      parseJson parser none (plainNumbers.dumps (.obj (order [("table", .number (.int 2))]))) =
        .ok (.obj [("address", .obj [("street", .obj [("number", .number (.int 1))]),
          ("table", .number (.int 2))])])) ∧
    (∀ parser : JsonOutputParser plainNumbers,
      parseJson parser none (plainNumbers.dumps (.obj [("note", .str "None \x7b\x7btoday\x7d\x7d")])) =
        .ok (.obj [("note", .str "null \x7btoday\x7d")])) ∧
    ¬ ∀ parser : JsonOutputParser plainNumbers,
      parseJson parser none (plainNumbers.dumps (.obj (order [("table", .number (.int 2))]))) =
        .ok (.obj (order [("table", .number (.int 2))])) := by
  have hmoved (parser : JsonOutputParser plainNumbers) :
      parseJson parser none (plainNumbers.dumps (.obj (order [("table", .number (.int 2))]))) =
        .ok (.obj [("address", .obj [("street", .obj [("number", .number (.int 1))]),
          ("table", .number (.int 2))])]) := by
    rw [parse_json_dumps]
    apply parser.truncated _ _ ['\x7d'] _ (cleaned_stripped _ _) (fun _ hc => absurd hc List.not_mem_nil)
    · decide +kernel
    · decide +kernel
    · decide +kernel
  refine ⟨hmoved, ?_, ?_⟩
  · intro parser
    rw [parse_json_dumps]
    apply parser.valid _ _ _ (cleaned_stripped _ _) (fun _ hc => absurd hc List.not_mem_nil)
    decide +kernel
  · intro hsame
    have hvalues := (hmoved (.strict plainNumbers)).symm.trans (hsame _)
    have hfields := Json.obj.inj (Except.ok.inj hvalues)
    revert hfields
    decide

end CheshireCat.Utils
