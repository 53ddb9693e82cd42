import CheshireCat.Base.Escapes
import CheshireCat.Base.Trees
import CheshireCat.Components.Identity

namespace CheshireCat.Components
open Base

/-! ### Strings -/

/-- The escapes of Python without those of octal digits and of names. -/
def pythonSimple (c : Char) : Option (List Char) :=
  if c = '\n' then some []
  else if c = '"' || c = '\'' || c = '\\' then some [c]
  else if c = 'a' then some ['\x07']
  else if c = 'b' then some ['\x08']
  else if c = 'f' then some ['\x0c']
  else if c = 'n' then some ['\n']
  else if c = 'r' then some ['\r']
  else if c = 't' then some ['\t']
  else if c = 'v' then some ['\x0b']
  else if '0' ≤ c && c ≤ '7' || c ∈ ['N', '\r', '\x00'] then none
  else some ['\\', c]

/-- Half of a surrogate pair shows as U+FFFD. -/
def halfMark (n : Nat) : Option Char :=
  if isHighSurrogate n || isLowSurrogate n then some '\uFFFD' else none

def pythonEscapes : Escapes where
  simple := pythonSimple
  hex c := if c = 'x' then some 2 else if c = 'u' then some 4 else if c = 'U' then some 8 else none
  pairs := false
  lone := halfMark
  plain c := c ∉ ['\n', '\r', '\x00']

/-- The languages in which components are written. Both have `null` for a missing value. -/
inductive Language where
  | json
  | python

def Language.escapes : Language → Escapes
  | .json => { jsonEscapes with lone := halfMark }
  | .python => pythonEscapes

/-- The quotes in which strings stand. -/
def Language.hasQuote : Language → Char → Bool
  | .json, quote => quote = '"'
  | .python, _ => true

def nullText : List Char := ['n', 'u', 'l', 'l']

def noneText : List Char := ['N', 'o', 'n', 'e']

/-- `component_data.replace('null', 'None')`. -/
def replaceNull (text : List Char) : List Char := replaceAll nullText noneText text

/-- A lower-case letter or an underscore, as the names of the fields have them. -/
def isNameChar (c : Char) : Bool := 'a' ≤ c && c ≤ 'z' || c = '_'

/-- Two strings that differ, where one has a `null` for which the other has a `None`, or both
have a character of which no field name consists. -/
inductive Changed : List Char → List Char → Prop where
  | null (s s' : List Char) : Changed (nullText ++ s) (noneText ++ s')
  | char {c c' : Char} (hne : c ≠ c') (hc : isNameChar c = false) (hc' : isNameChar c' = false)
    (s s' : List Char) : Changed (c :: s) (c' :: s')
  | same (before : List Char) {s s' : List Char} (h : Changed s s') :
    Changed (before ++ s) (before ++ s')

theorem Changed.ne {s s' : List Char} (h : Changed s s') : s ≠ s' := by
  induction h with
  | null s s' =>
    intro heq
    cases (List.cons.inj heq).1
  | char hne _ _ _ _ => exact fun heq => hne (List.cons.inj heq).1
  | same before _ ih => exact fun heq => ih (List.append_cancel_left heq)

/-- Neither of them is a name without `null` and without `N`. -/
theorem Changed.no_name {s s' name : List Char} (h : Changed s s') (hnull : ¬ nullText <:+: name)
    (hname : ∀ c ∈ name, isNameChar c = true) : s ≠ name ∧ s' ≠ name := by
  have hfound : (nullText <:+: s ∨ ∃ c ∈ s, isNameChar c = false) ∧
      ∃ c ∈ s', isNameChar c = false := by
    induction h with
    | null s s' =>
      exact ⟨Or.inl ⟨[], s, rfl⟩, 'N', List.mem_append_left _ List.mem_cons_self, by decide⟩
    | char _ hc hc' _ _ =>
      exact ⟨Or.inr ⟨_, List.mem_cons_self, hc⟩, _, List.mem_cons_self, hc'⟩
    | same before _ ih =>
      obtain ⟨hs, c, hc, hno⟩ := ih
      refine ⟨hs.imp ?_ ?_, c, List.mem_append_right _ hc, hno⟩
      · exact fun hoccurs => hoccurs.trans (List.suffix_append _ _).isInfix
      · exact fun ⟨d, hd, hno'⟩ => ⟨d, List.mem_append_right _ hd, hno'⟩
  have hother {t : List Char} (ht : ∃ c ∈ t, isNameChar c = false) : t ≠ name := by
    rintro rfl
    obtain ⟨c, hc, hno⟩ := ht
    rw [hname c hc] at hno
    cases hno
  refine ⟨?_, hother hfound.2⟩
  rcases hfound.1 with hoccurs | hs
  · rintro rfl
    exact hnull hoccurs
  · exact hother hs

/-- An escape that is no number stands for the same in Python, but that of a slash. -/
theorem simple_python {language : Language} {d : Char} {cs : List Char}
    (hhex : language.escapes.hex d = none) (h : language.escapes.simple d = some cs) :
    pythonEscapes.hex d = none ∧
      (pythonEscapes.simple d = some cs ∨ (cs = ['/'] ∧ pythonEscapes.simple d = some ['\\', '/'])) := by
  cases language with
  | python => exact ⟨hhex, Or.inl h⟩
  | json =>
    change jsonSimple d = some cs at h
    have hd : d ∈ ['"', '\\', '/', 'b', 'f', 'n', 'r', 't'] := by
      by_contra hno
      simp only [List.mem_cons, List.not_mem_nil, or_false, not_or] at hno
      simp [jsonSimple, hno] at h
    have hall : ∀ d ∈ ['"', '\\', '/', 'b', 'f', 'n', 'r', 't'], ∀ cs ∈ jsonSimple d,
        pythonEscapes.hex d = none ∧ (pythonEscapes.simple d = some cs ∨
          (cs = ['/'] ∧ pythonEscapes.simple d = some ['\\', '/'])) := by
      decide +kernel
    exact hall d hd cs h

theorem large_char {n : Nat} (h : 0x10000 ≤ n ∧ n < 0x110000) :
    isNameChar (Char.ofNat n) = false ∧ Char.ofNat n ≠ '\uFFFD' := by
  have hnat : (Char.ofNat n).toNat = n := by
    rw [Char.ofNat, dif_pos (Or.inr ⟨by omega, h.2⟩)]
    rfl
  constructor
  · have hlarge : ¬ Char.ofNat n ≤ 'z' := by
      rw [Char.le_def, UInt32.le_iff_toNat_le]
      change ¬ (Char.ofNat n).toNat ≤ 122
      omega
    have hother : Char.ofNat n ≠ '_' := by
      intro heq
      have hunder : (Char.ofNat n).toNat = 95 := congrArg Char.toNat heq
      omega
    simp [isNameChar, hlarge, hother]
  · intro heq
    have hmark : (Char.ofNat n).toNat = 65533 := congrArg Char.toNat heq
    omega

theorem no_pair (low : Option Nat) (high : Bool) :
    low.filter (fun _ => pythonEscapes.pairs && high) = none := by
  cases low <;> rfl

/-- A number of digits is read in Python too, where a surrogate stands for itself. -/
theorem hex_python {language : Language} {d : Char} {rest cs : List Char} {k : Nat}
    (h : Unescaped language.escapes d rest cs k) (hhex : language.escapes.hex d ≠ none) :
    ∃ digits after, rest = digits ++ after ∧ 'n' ∉ digits ∧ ∀ after', ∃ cs',
      pythonEscapes.unescape (d :: (digits ++ after')) = some (cs', digits.length + 1) ∧
        ((cs' = cs ∧ k = digits.length + 1) ∨
          ∃ c c', cs = [c] ∧ cs' = [c'] ∧ c ≠ c' ∧ isNameChar c = false ∧ isNameChar c' = false) := by
  have hpython (k : Nat) (hk : language.escapes.hex d = some k) : pythonEscapes.hex d = some k := by
    cases language with
    | python => exact hk
    | json =>
      change (if d = 'u' then some 4 else none) = some k at hk
      by_cases hd : d = 'u'
      · subst hd
        exact hk
      · rw [if_neg hd] at hk
        cases hk
  have hdigits {digits : List Char} (hvalues : ∀ c ∈ digits, (hexValue? c).isSome) : 'n' ∉ digits := by
    intro hmem
    have hno := hvalues 'n' hmem
    revert hno
    decide
  cases h with
  | simple hnone _ => exact absurd hnone hhex
  | @char k n hk hn hvalid =>
    obtain ⟨digits, after, rfl, hlength, hvalues, hread⟩ := read_hex_split hn
    refine ⟨digits, after, rfl, hdigits hvalues, ?_⟩
    intro after'
    refine ⟨[Char.ofNat n], ?_, Or.inl ⟨rfl, by rw [hlength]⟩⟩
    rw [Escapes.unescape, hpython k hk]
    simp only [hread, Option.bind_some, if_pos hvalid, hlength]
  | @pair k n low hk hn hvalid hpairs hhigh hlow =>
    obtain ⟨digits, after, rfl, hlength, hvalues, hread⟩ := read_hex_split hn
    refine ⟨digits, after, rfl, hdigits hvalues, ?_⟩
    intro after'
    obtain ⟨hlarge, hne⟩ := large_char (pair_number hhigh (low_half hlow))
    have hmark : pythonEscapes.lone n = some '\uFFFD' := by
      change halfMark n = _
      rw [halfMark, hhigh]
      rfl
    refine ⟨['\uFFFD'], ?_, Or.inr ⟨_, _, rfl, rfl, hne, hlarge, by decide⟩⟩
    rw [Escapes.unescape, hpython k hk]
    simp only [hread, Option.bind_some, if_neg hvalid, hlength, no_pair, hmark, Option.map_some]
  | @lone k n c hk hn hvalid hlone =>
    obtain ⟨digits, after, rfl, hlength, hvalues, hread⟩ := read_hex_split hn
    have hlone' : pythonEscapes.lone n = some c := by
      cases language <;> exact hlone
    refine ⟨digits, after, rfl, hdigits hvalues, ?_⟩
    intro after'
    refine ⟨[c], ?_, Or.inl ⟨rfl, by rw [hlength]⟩⟩
    rw [Escapes.unescape, hpython k hk]
    simp only [hread, Option.bind_some, if_neg hvalid, hlength, no_pair, hlone', Option.map_some]

theorem null_not_prefix {c : Char} (hc : c ≠ 'n') (rest : List Char) : ¬ nullText <+: c :: rest :=
  fun hp => hc (List.cons_prefix_cons.mp hp).1.symm

/-- After the replacement an escape stands for the same, where what follows on it is replaced
for itself, or for something else. -/
theorem escape_rewritten {language : Language} {d : Char} {text cs cs' : List Char} {k k' : Nat}
    (h : Unescaped language.escapes d text cs k)
    (h' : pythonEscapes.unescape (replaceNull (d :: text)) = some (cs', k')) :
    (∃ digits after, text = digits ++ after ∧ k = digits.length + 1 ∧ k' = k ∧ cs' = cs ∧
      replaceNull (d :: text) = d :: (digits ++ replaceNull after) ∧
      (nullText <:+: d :: text → nullText <:+: after)) ∨
    ∃ c c' t', cs = [c] ∧ cs' = c' :: t' ∧ c ≠ c' ∧ isNameChar c = false ∧ isNameChar c' = false := by
  have hnull : ¬ nullText <+: d :: text := by
    -- `\None` is no escape
    rintro ⟨after, hafter⟩
    rw [← hafter, replaceNull, replace_match (by decide)] at h'
    cases h'
  have hstep : replaceNull (d :: text) = d :: replaceNull text := replace_step hnull
  rw [hstep] at h'
  by_cases hhex : language.escapes.hex d = none
  · cases h with
    | simple _ hsimple =>
      obtain ⟨hpython, hsame⟩ := simple_python hhex hsimple
      rw [Escapes.unescape, hpython] at h'
      obtain ⟨cs'', hcs, heq⟩ := Option.map_eq_some_iff.mp h'
      cases heq
      rcases hsame with hsame | ⟨rfl, hsame⟩
      · rw [hsame] at hcs
        cases hcs
        exact Or.inl ⟨[], text, rfl, rfl, rfl, rfl, hstep,
          fun hoccurs => (List.infix_cons_iff.mp hoccurs).resolve_left hnull⟩
      · rw [hsame] at hcs
        cases hcs
        exact Or.inr ⟨_, _, _, rfl, rfl, by decide, by decide, by decide⟩
    | char hsome _ _ => rw [hhex] at hsome; cases hsome
    | pair hsome _ _ _ _ _ => rw [hhex] at hsome; cases hsome
    | lone hsome _ _ _ => rw [hhex] at hsome; cases hsome
  · obtain ⟨digits, after, rfl, hn, hall⟩ := hex_python h hhex
    obtain ⟨cs'', hpython, hcases⟩ := hall (replaceNull after)
    have hskip : replaceNull (digits ++ after) = digits ++ replaceNull after := replace_skip hn after
    rw [hskip] at h' hstep
    rw [hpython] at h'
    cases h'
    rcases hcases with ⟨rfl, rfl⟩ | ⟨c, c', rfl, rfl, hne, hc, hc'⟩
    · exact Or.inl ⟨digits, after, rfl, rfl, rfl, rfl, hstep,
        fun hoccurs => infix_skip hn ((List.infix_cons_iff.mp hoccurs).resolve_left hnull)⟩
    · exact Or.inr ⟨c, c', [], rfl, rfl, hne, hc, hc'⟩

/-- What Python reads from a string after the replacement is the same string, where no `null`
stands in it, or one that differs from it. -/
theorem rewritten_read {language : Language} {body s s' : List Char}
    (h : language.escapes.decode body = some s) (h' : pythonEscapes.decode (replaceNull body) = some s') :
    (¬ nullText <:+: body ∧ s' = s) ∨ Changed s s' := by
  induction h using decode_induction generalizing s' with
  | nil =>
    cases h'
    exact Or.inl ⟨by decide, rfl⟩
  | plain c rest t hescape hplain ht ih =>
    by_cases hnull : nullText <+: c :: rest
    · obtain ⟨after, hafter⟩ := hnull
      have h : language.escapes.decode (c :: rest) = some (c :: t) := by
        rw [decode_plain _ hescape hplain, ht]
        rfl
      rw [← hafter] at h h'
      rw [replaceNull, replace_match (by decide)] at h'
      obtain ⟨u, _, hu⟩ := decode_text (by decide) h
      obtain ⟨u', _, rfl⟩ := decode_text (by decide) h'
      rw [hu]
      exact Or.inr (.null u u')
    · rw [replaceNull, replace_step hnull] at h'
      rcases decode_cases h' with ⟨_, _, t', ht', rfl⟩ | ⟨hback, _⟩
      · rcases ih ht' with ⟨hno, rfl⟩ | hchanged
        · refine Or.inl ⟨?_, rfl⟩
          intro hoccurs
          exact (List.infix_cons_iff.mp hoccurs).elim hnull hno
        · exact Or.inr (.same [c] hchanged)
      · exact absurd hback hescape
  | escape rest cs k t hunescape ht ih =>
    have hback : ¬ nullText <+: '\\' :: rest := null_not_prefix (by decide) rest
    rw [replaceNull, replace_step hback] at h'
    rcases decode_cases h' with ⟨hno, _⟩ | ⟨_, cs', k', t', hunescape', ht', rfl⟩
    · exact absurd rfl hno
    · obtain ⟨d, text, rfl, hread⟩ := unescape_cases hunescape
      rcases escape_rewritten hread hunescape' with
        ⟨digits, after, rfl, rfl, rfl, rfl, hreplace, hinside⟩ | ⟨c, c', u', rfl, rfl, hne, hc, hc'⟩
      · have hreplace' : replaceAll nullText noneText (d :: (digits ++ after)) = _ := hreplace
        rw [hreplace', List.drop_succ_cons, List.drop_left] at ht'
        rw [List.drop_succ_cons, List.drop_left] at ih
        rcases ih ht' with ⟨hno, rfl⟩ | hchanged
        · refine Or.inl ⟨?_, rfl⟩
          intro hoccurs
          exact hno (hinside ((List.infix_cons_iff.mp hoccurs).resolve_left hback))
        · exact Or.inr (.same _ hchanged)
      · exact Or.inr (.char hne hc hc' _ _)

/-- The value of a string with the body. -/
def stringValue (e : Escapes) (body : List Char) : Option Value :=
  (e.decode body).map (fun s =>
    if (e.strict.decode body).isSome then .str (String.ofList s) else .half (String.ofList s))

theorem string_value_text {e : Escapes} {body : List Char} {v : Value} (h : stringValue e body = some v) :
    ∃ s, e.decode body = some s ∧ v.text? = some (String.ofList s) ∧
      (v.encodes = true ↔ (e.strict.decode body).isSome = true) := by
  obtain ⟨s, hs, rfl⟩ := Option.map_eq_some_iff.mp h
  refine ⟨s, hs, ?_⟩
  split
  · rename_i hstrict
    exact ⟨rfl, iff_of_true rfl hstrict⟩
  · rename_i hstrict
    exact ⟨rfl, iff_of_false Bool.false_ne_true hstrict⟩

/-- Whether a string is the same in Python after the replacement. -/
def KeepsText (language : Language) (body : List Char) : Prop :=
  ¬ nullText <:+: body ∧ stringValue pythonEscapes body = stringValue language.escapes body

theorem keeps_text_iff {language : Language} {body : List Char} {v v' : Value}
    (h : stringValue language.escapes body = some v)
    (h' : stringValue pythonEscapes (replaceNull body) = some v') : v' = v ↔ KeepsText language body := by
  have hsame (hno : ¬ nullText <:+: body) : replaceNull body = body := replace_absent hno
  constructor
  · rintro rfl
    obtain ⟨s, hs, htext, _⟩ := string_value_text h
    obtain ⟨s', hs', htext', _⟩ := string_value_text h'
    rcases rewritten_read hs hs' with ⟨hno, _⟩ | hchanged
    · refine ⟨hno, ?_⟩
      rw [h, ← h', hsame hno]
    · rw [htext, Option.some_inj, String.ofList_inj] at htext'
      exact absurd htext' hchanged.ne
  · rintro ⟨hno, hread⟩
    rw [hsame hno, hread, h] at h'
    exact (Option.some.inj h').symm

/-- A string is a name where its characters are those. -/
theorem string_value_name {e : Escapes} (hlone : ∀ n c, e.lone n = some c → isNameChar c = false)
    {body : List Char} {v : Value} (h : stringValue e body = some v) {name : String}
    (hname : ∀ c ∈ name.toList, isNameChar c = true) :
    v = .str name ↔ e.decode body = some name.toList := by
  obtain ⟨s, hs, rfl⟩ := Option.map_eq_some_iff.mp h
  have htext : String.ofList s = name ↔ s = name.toList := by
    rw [← String.ofList_toList (s := name), String.ofList_inj, String.toList_ofList]
  rw [hs, Option.some_inj, ← htext]
  split
  · rw [Value.str.injEq]
  · rename_i hstrict
    refine iff_of_false nofun ?_
    rintro rfl
    rcases strict_or_lone hs with hread | ⟨n, c, hc, hmem⟩
    · rw [hread] at hstrict
      exact hstrict rfl
    · rw [String.toList_ofList] at hname
      have hno := hname c hmem
      rw [hlone n c hc] at hno
      cases hno

/-! ### Literals -/

/-- Numbers, `str` of a list or dictionary, and the text of the error of `literal_eval`. -/
structure Literals where
  number : List Char → Option Value
  repr : Tree → String
  message : List Char → String
  number_no_text : ∀ w v, number w = some v → v.text? = none
  number_letters : ∀ w v, number w = some v → ∀ c ∈ w, c ∉ ['N', 's', 'u']

/-- A word in Python. -/
def Literals.pythonWord (l : Literals) (w : List Char) : Option Value :=
  if w = noneText then some .null
  else if w = ['T', 'r', 'u', 'e'] then some (.bool true)
  else if w = ['F', 'a', 'l', 's', 'e'] then some (.bool false)
  else l.number w

/-- A word in the language of the components. -/
def Literals.givenWord (l : Literals) (language : Language) (w : List Char) : Option Value :=
  if w = nullText then some .null
  else match language with
    | .python => l.pythonWord w
    | .json =>
      if w = ['t', 'r', 'u', 'e'] then some (.bool true)
      else if w = ['f', 'a', 'l', 's', 'e'] then some (.bool false)
      else l.number w

def Literals.pythonLeaf (l : Literals) : Piece → Option Value
  | .word w => l.pythonWord w
  | .quoted _ body => stringValue pythonEscapes body
  | _ => none

def Literals.givenLeaf (l : Literals) (language : Language) : Piece → Option Value
  | .word w => l.givenWord language w
  | .quoted quote body =>
    if language.hasQuote quote then stringValue language.escapes body else none
  | _ => none

/-- The value of a key, which is that of its last entry. -/
def lookup (leaf : Piece → Option Value) (name : String) (entries : List (Piece × Tree)) : Option Tree :=
  (entries.reverse.find? (fun e => leaf e.1 = some (.str name))).map Prod.snd

def Literals.value (l : Literals) (leaf : Piece → Option Value) : Tree → Value
  | .leaf p => (leaf p).getD .null
  | .list items => .other (l.repr (.list items)) false
  | .dict entries => .other (l.repr (.dict entries)) false

def Literals.component (l : Literals) (leaf : Piece → Option Value) (entries : List (Piece × Tree)) :
    Component :=
  let field (name : String) := (lookup leaf name entries).map (l.value leaf)
  { projectName := field "project_name",
    componentCode := field "component_code",
    description := field "description",
    unitCost := field "unit_cost",
    quantity := field "quantity",
    note := field "note" }

def Literals.element (l : Literals) (leaf : Piece → Option Value) : Tree → Option Component
  | .dict entries => some (l.component leaf entries)
  | _ => none

/-- Whether all words and strings are read. -/
def readable (leaf : Piece → Option Value) (t : Tree) : Bool := t.all (fun p => (leaf p).isSome)

/-- `literal_eval` of texts without tuples, sets, prefixes of strings and strings that follow
on each other. -/
def Literals.literalEval (l : Literals) (text : List Char) : ComponentData :=
  match (lex text).bind (parse true) with
  | none => .unreadable (l.message text)
  | some t =>
    if readable l.pythonLeaf t then
      match t with
      | .list items => .components (items.map (l.element l.pythonLeaf))
      | _ => .noList
    else .unreadable (l.message text)

/-- `add_component` of a text. -/
def Literals.addComponentText (l : Literals) (py : Python) (caller : Caller) (tables : Tables)
    (text : List Char) : Result :=
  addComponent py caller tables (l.literalEval (replaceNull text))

/-- A text that stands for a list of dictionaries in the language. -/
structure Literals.Given (l : Literals) (language : Language) (text : List Char)
    (dicts : List (List (Piece × Tree))) : Prop where
  read : (lex text).bind (parse true) = some (.list (dicts.map .dict))
  leaves : ∀ entries ∈ dicts, readable (l.givenLeaf language) (.dict entries) = true

/-! ### Words and keys after the replacement -/

section Leaves

variable {l : Literals} {language : Language}

theorem number_kept {w : List Char} {v : Value} (h : l.number w = some v) :
    replaceNull w = w ∧ l.pythonWord w = some v := by
  have hletters := l.number_letters w v h
  have hno {c : Char} (hc : c ∈ ['N', 's', 'u']) : c ∉ w := fun hmem => hletters c hmem hc
  refine ⟨replace_absent ?_, ?_⟩
  · intro hoccurs
    exact hno (c := 'u') (by decide) (hoccurs.subset (by decide))
  · have hnone : w ≠ noneText := fun heq => hno (c := 'N') (by decide) (heq ▸ by decide)
    have htrue : w ≠ ['T', 'r', 'u', 'e'] := fun heq => hno (c := 'u') (by decide) (heq ▸ by decide)
    have hfalse : w ≠ ['F', 'a', 'l', 's', 'e'] := fun heq => hno (c := 's') (by decide) (heq ▸ by decide)
    rw [Literals.pythonWord, if_neg hnone, if_neg htrue, if_neg hfalse, h]

theorem word_not_number {w : List Char} (hw : ∃ c ∈ w, c ∈ ['N', 's', 'u']) : l.number w = none := by
  obtain ⟨c, hc, hletter⟩ := hw
  cases h : l.number w with
  | none => rfl
  | some v => exact absurd hletter (l.number_letters w v h c hc)

/-- A word that Python reads after the replacement is what it was given as. -/
theorem word_rewritten {w : List Char} {v v' : Value} (h : l.givenWord language w = some v)
    (h' : l.pythonWord (replaceNull w) = some v') : v' = v := by
  have hnumber (hn : l.number w = some v) : v' = v := by
    obtain ⟨hsame, hread⟩ := number_kept hn
    rw [hsame, hread] at h'
    exact (Option.some.inj h').symm
  unfold Literals.givenWord at h
  split at h
  · rename_i hw
    subst hw
    cases h
    cases h'
    rfl
  · cases language with
    | python =>
      unfold Literals.pythonWord at h
      dsimp only at h
      split at h
      · rename_i hw
        subst hw
        cases h
        cases h'
        rfl
      · split at h
        · rename_i hw
          subst hw
          cases h
          cases h'
          rfl
        · split at h
          · rename_i hw
            subst hw
            cases h
            cases h'
            rfl
          · exact hnumber h
    | json =>
      dsimp only at h
      split at h
      · rename_i hw
        subst hw
        have hnone : l.pythonWord (replaceNull ['t', 'r', 'u', 'e']) = none :=
          word_not_number ⟨'u', by decide, by decide⟩
        rw [hnone] at h'
        cases h'
      · split at h
        · rename_i hw
          subst hw
          have hnone : l.pythonWord (replaceNull ['f', 'a', 'l', 's', 'e']) = none :=
            word_not_number ⟨'s', by decide, by decide⟩
          rw [hnone] at h'
          cases h'
        · exact hnumber h

theorem given_quoted {quote : Char} {body : List Char} {v : Value}
    (h : l.givenLeaf language (.quoted quote body) = some v) :
    stringValue language.escapes body = some v := by
  rw [Literals.givenLeaf] at h
  split at h
  · exact h
  · cases h

theorem half_mark_no_name {n : Nat} {c : Char} (h : halfMark n = some c) : isNameChar c = false := by
  unfold halfMark at h
  split at h
  · cases h
    decide
  · cases h

/-- A key is the name of a field after the replacement where it was. -/
theorem key_rewritten {p : Piece} {name : String} {v v' : Value}
    (hnull : ¬ nullText <:+: name.toList) (hname : ∀ c ∈ name.toList, isNameChar c = true)
    (h : l.givenLeaf language p = some v) (h' : l.pythonLeaf (p.map replaceNull) = some v') :
    v' = .str name ↔ v = .str name := by
  cases p with
  | blank c => cases h
  | punct p => cases h
  | word w => rw [word_rewritten h h']
  | quoted quote body =>
    have hread := given_quoted h
    have hread' : stringValue pythonEscapes (replaceNull body) = some v' := h'
    have hlone (n : Nat) (c : Char) (hc : language.escapes.lone n = some c) : isNameChar c = false := by
      cases language <;> exact half_mark_no_name hc
    obtain ⟨s, hs, _⟩ := string_value_text hread
    obtain ⟨s', hs', _⟩ := string_value_text hread'
    rw [string_value_name (fun _ _ => half_mark_no_name) hread' hname, string_value_name hlone hread hname,
      hs, hs', Option.some_inj, Option.some_inj]
    rcases rewritten_read hs hs' with ⟨_, rfl⟩ | hchanged
    · rfl
    · obtain ⟨hno, hno'⟩ := hchanged.no_name hnull hname
      exact iff_of_false hno' hno

theorem python_word_no_text {w : List Char} {v : Value} (h : l.pythonWord w = some v) :
    v.text? = none := by
  unfold Literals.pythonWord at h
  split at h
  · cases h
    rfl
  · split at h
    · cases h
      rfl
    · split at h
      · cases h
        rfl
      · exact l.number_no_text w v h

end Leaves

end CheshireCat.Components
