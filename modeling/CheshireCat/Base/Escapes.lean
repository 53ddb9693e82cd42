import CheshireCat.Base.Literals
import Mathlib.Algebra.GroupWithZero.Nat

namespace CheshireCat.Base

/-! ### Hexadecimal digits -/

def hexDigits : List Char :=
  ['0', '1', '2', '3', '4', '5', '6', '7', '8', '9', 'a', 'b', 'c', 'd', 'e', 'f']

def hexDigit (d : Nat) : Char := hexDigits.getD d '0'

def hexValue? (c : Char) : Option Nat :=
  if c.isDigit then some (c.toNat - 48)
  else if 'a' ≤ c && c ≤ 'f' then some (c.toNat - 87)
  else if 'A' ≤ c && c ≤ 'F' then some (c.toNat - 55)
  else none

/-- The number of the next hexadecimal digits, where there are as many. -/
def readHex : Nat → List Char → Nat → Option Nat
  | 0, _, n => some n
  | _ + 1, [], _ => none
  | k + 1, c :: rest, n => (hexValue? c).bind (fun d => readHex k rest (16 * n + d))

def hex4 (n : Nat) : List Char :=
  [hexDigit (n / 4096 % 16), hexDigit (n / 256 % 16), hexDigit (n / 16 % 16), hexDigit (n % 16)]

theorem hex_value_digit : ∀ d < 16, hexValue? (hexDigit d) = some d := by decide

theorem read_hex4 {n : Nat} (h : n < 65536) (rest : List Char) : readHex 4 (hex4 n ++ rest) 0 = some n := by
  have hd (k : Nat) : hexValue? (hexDigit (k % 16)) = some (k % 16) :=
    hex_value_digit _ (Nat.mod_lt _ (by decide))
  simp only [hex4, List.cons_append, List.nil_append, readHex, hd, Option.bind_some, Option.some.injEq]
  omega

/-! ### Strings -/

/-- How the escapes in a string are read. -/
structure Escapes where
  /-- What an escaped character stands for. -/
  simple : Char → Option (List Char)
  /-- How many hexadecimal digits follow. -/
  hex : Char → Option Nat
  /-- Two escapes may stand for one character. -/
  pairs : Bool
  /-- What a number that is no character stands for. -/
  lone : Nat → Option Char
  /-- The characters that stand for themselves. -/
  plain : Char → Bool

def isHighSurrogate (n : Nat) : Bool := 0xD800 ≤ n && n < 0xDC00

def isLowSurrogate (n : Nat) : Bool := 0xDC00 ≤ n && n < 0xE000

/-- The second half of a pair. -/
def lowHalf? : List Char → Option Nat
  | '\\' :: 'u' :: rest => (readHex 4 rest 0).filter isLowSurrogate
  | _ => none

/-- What an escape stands for, and how long it is after its backslash. -/
def Escapes.unescape (e : Escapes) : List Char → Option (List Char × Nat)
  | [] => none
  | c :: rest =>
    match e.hex c with
    | none => (e.simple c).map (fun cs => (cs, 1))
    | some digits =>
      (readHex digits rest 0).bind (fun n =>
        if n.isValidChar then some ([Char.ofNat n], digits + 1)
        else match (lowHalf? (rest.drop digits)).filter (fun _ => e.pairs && isHighSurrogate n) with
          | some low =>
            some ([Char.ofNat (0x10000 + (n - 0xD800) * 1024 + (low - 0xDC00))], digits + 7)
          | none => (e.lone n).map (fun c => ([c], digits + 1)))

/-- The characters of the body of a string, some of which belong to an escape already read. -/
def Escapes.decodeFrom (e : Escapes) : Nat → List Char → Option (List Char)
  | _, [] => some []
  | skip + 1, _ :: rest => e.decodeFrom skip rest
  | 0, c :: rest =>
    if c = '\\' then
      (e.unescape rest).bind (fun p => (e.decodeFrom p.2 rest).map (fun s => p.1 ++ s))
    else if e.plain c then (e.decodeFrom 0 rest).map (fun s => c :: s)
    else none

def Escapes.decode (e : Escapes) (body : List Char) : Option (List Char) := e.decodeFrom 0 body

theorem decode_from_drop (e : Escapes) (n : Nat) (body : List Char) :
    e.decodeFrom n body = e.decode (body.drop n) := by
  induction body generalizing n with
  | nil => cases n <;> rfl
  | cons c body ih =>
    cases n with
    | zero => rfl
    | succ n => exact ih n

theorem decode_escape (e : Escapes) (rest : List Char) : e.decode ('\\' :: rest) =
    (e.unescape rest).bind (fun p => (e.decode (rest.drop p.2)).map (fun s => p.1 ++ s)) := by
  rw [Escapes.decode, Escapes.decodeFrom, if_pos rfl]
  simp only [decode_from_drop]

theorem decode_plain (e : Escapes) {c : Char} (hescape : c ≠ '\\') (hplain : e.plain c = true)
    (rest : List Char) : e.decode (c :: rest) = (e.decode rest).map (fun s => c :: s) := by
  rw [Escapes.decode, Escapes.decodeFrom, if_neg hescape, if_pos hplain]
  rfl

theorem low_half {text : List Char} {low : Nat} (h : lowHalf? text = some low) :
    isLowSurrogate low = true := by
  unfold lowHalf? at h
  split at h
  · exact (Option.filter_eq_some_iff.mp h).2
  · cases h

theorem pair_number {high low : Nat} (hhigh : isHighSurrogate high = true)
    (hlow : isLowSurrogate low = true) :
    let n := 0x10000 + (high - 0xD800) * 1024 + (low - 0xDC00)
    0x10000 ≤ n ∧ n < 0x110000 := by
  simp only [isHighSurrogate, isLowSurrogate, Bool.and_eq_true, decide_eq_true_eq] at hhigh hlow
  omega

/-- The digits that are read, whatever follows on them. -/
theorem read_hex_split {k n m : Nat} {text : List Char} (h : readHex k text n = some m) :
    ∃ digits rest, text = digits ++ rest ∧ digits.length = k ∧
      (∀ c ∈ digits, (hexValue? c).isSome) ∧ ∀ rest', readHex k (digits ++ rest') n = some m := by
  induction k generalizing text n with
  | zero => exact ⟨[], text, rfl, rfl, nofun, fun _ => h⟩
  | succ k ih =>
    cases text with
    | nil => cases h
    | cons c text =>
      obtain ⟨d, hd, hrest⟩ := Option.bind_eq_some_iff.mp h
      obtain ⟨digits, rest, rfl, hlength, hvalues, hread⟩ := ih hrest
      refine ⟨c :: digits, rest, rfl, congrArg (· + 1) hlength, ?_, ?_⟩
      · intro c' hc'
        rcases List.mem_cons.mp hc' with rfl | hc'
        · exact Option.isSome_of_eq_some hd
        · exact hvalues c' hc'
      · intro rest'
        rw [List.cons_append, readHex, hd]
        exact hread rest'

/-- How an escape is read. -/
inductive Unescaped (e : Escapes) (d : Char) (rest : List Char) : List Char → Nat → Prop where
  | simple {cs : List Char} (hhex : e.hex d = none) (h : e.simple d = some cs) :
    Unescaped e d rest cs 1
  | char {digits n : Nat} (hhex : e.hex d = some digits) (hn : readHex digits rest 0 = some n)
    (h : n.isValidChar) : Unescaped e d rest [Char.ofNat n] (digits + 1)
  | pair {digits n low : Nat} (hhex : e.hex d = some digits) (hn : readHex digits rest 0 = some n)
    (h : ¬ n.isValidChar) (hpairs : e.pairs = true) (hhigh : isHighSurrogate n = true)
    (hlow : lowHalf? (rest.drop digits) = some low) : Unescaped e d rest
      [Char.ofNat (0x10000 + (n - 0xD800) * 1024 + (low - 0xDC00))] (digits + 7)
  | lone {digits n : Nat} {c : Char} (hhex : e.hex d = some digits)
    (hn : readHex digits rest 0 = some n) (h : ¬ n.isValidChar) (hlone : e.lone n = some c) :
    Unescaped e d rest [c] (digits + 1)

theorem unescape_cases {e : Escapes} {text cs : List Char} {k : Nat}
    (h : e.unescape text = some (cs, k)) : ∃ d rest, text = d :: rest ∧ Unescaped e d rest cs k := by
  cases text with
  | nil => cases h
  | cons d rest =>
    refine ⟨d, rest, rfl, ?_⟩
    rw [Escapes.unescape] at h
    cases hhex : e.hex d with
    | none =>
      rw [hhex] at h
      obtain ⟨cs', hcs, heq⟩ := Option.map_eq_some_iff.mp h
      cases heq
      exact .simple hhex hcs
    | some digits =>
      rw [hhex] at h
      obtain ⟨n, hn, h⟩ := Option.bind_eq_some_iff.mp h
      split at h
      · rename_i hvalid
        cases h
        exact .char hhex hn hvalid
      · rename_i hvalid
        split at h
        · rename_i low hpair
          cases h
          obtain ⟨hlow, hhigh⟩ := Option.filter_eq_some_iff.mp hpair
          rw [Bool.and_eq_true] at hhigh
          exact .pair hhex hn hvalid hhigh.1 hhigh.2 hlow
        · obtain ⟨c, hc, heq⟩ := Option.map_eq_some_iff.mp h
          cases heq
          exact .lone hhex hn hvalid hc

/-- A body that is read starts with a plain character or an escape. -/
theorem decode_cases {e : Escapes} {c : Char} {rest s : List Char} (h : e.decode (c :: rest) = some s) :
    (c ≠ '\\' ∧ e.plain c = true ∧ ∃ t, e.decode rest = some t ∧ s = c :: t) ∨
    (c = '\\' ∧ ∃ cs k t, e.unescape rest = some (cs, k) ∧ e.decode (rest.drop k) = some t ∧
      s = cs ++ t) := by
  by_cases hc : c = '\\'
  · rw [hc, decode_escape] at h
    obtain ⟨⟨cs, k⟩, hunescape, hrest⟩ := Option.bind_eq_some_iff.mp h
    obtain ⟨t, ht, rfl⟩ := Option.map_eq_some_iff.mp hrest
    exact Or.inr ⟨hc, cs, k, t, hunescape, ht, rfl⟩
  · by_cases hplain : e.plain c = true
    · rw [decode_plain e hc hplain] at h
      obtain ⟨t, ht, rfl⟩ := Option.map_eq_some_iff.mp h
      exact Or.inl ⟨hc, hplain, t, ht, rfl⟩
    · rw [Escapes.decode, Escapes.decodeFrom, if_neg hc, if_neg hplain] at h
      cases h

/-- The body of a string is read from its end on, an escape as a whole. -/
theorem decode_induction {e : Escapes}
    {motive : (body s : List Char) → e.decode body = some s → Prop} (nil : motive [] [] rfl)
    (plain : ∀ (c : Char) (rest t : List Char) (hescape : c ≠ '\\') (hplain : e.plain c = true)
      (ht : e.decode rest = some t), motive rest t ht →
      motive (c :: rest) (c :: t) (by rw [decode_plain e hescape hplain, ht]; rfl))
    (escape : ∀ (rest cs : List Char) (k : Nat) (t : List Char)
      (hunescape : e.unescape rest = some (cs, k)) (ht : e.decode (rest.drop k) = some t),
      motive (rest.drop k) t ht →
      motive ('\\' :: rest) (cs ++ t) (by rw [decode_escape, hunescape, Option.bind_some, ht]; rfl))
    {body s : List Char} (h : e.decode body = some s) : motive body s h := by
  have hlength (n : Nat) : ∀ (body s : List Char) (h : e.decode body = some s), body.length ≤ n →
      motive body s h := by
    clear h body s
    induction n with
    | zero =>
      intro body s h hn
      have hnil := List.length_eq_zero_iff.mp (Nat.le_zero.mp hn)
      subst hnil
      cases h
      exact nil
    | succ n ih =>
      intro body s h hn
      cases body with
      | nil =>
        cases h
        exact nil
      | cons c rest =>
        rw [List.length_cons] at hn
        rcases decode_cases h with ⟨hescape, hplain, t, ht, rfl⟩ | ⟨rfl, cs, k, t, hunescape, ht, rfl⟩
        · exact plain c rest t hescape hplain ht (ih rest t ht (by omega))
        · have hdrop : (rest.drop k).length = rest.length - k := List.length_drop
          exact escape rest cs k t hunescape ht (ih (rest.drop k) t ht (by omega))
  exact hlength body.length body s h (Nat.le_refl _)

/-- Text without escapes stands for itself. -/
theorem decode_text {e : Escapes} {text rest s : List Char} (htext : '\\' ∉ text)
    (h : e.decode (text ++ rest) = some s) : ∃ t, e.decode rest = some t ∧ s = text ++ t := by
  induction text generalizing s with
  | nil => exact ⟨s, h, rfl⟩
  | cons c text ih =>
    obtain ⟨hc, htext⟩ := not_or.mp (fun hmem => htext (List.mem_cons.mpr hmem))
    rcases decode_cases h with ⟨_, _, t, ht, rfl⟩ | ⟨rfl, _⟩
    · obtain ⟨t', ht', rfl⟩ := ih htext ht
      exact ⟨t', ht', rfl⟩
    · exact absurd rfl hc

/-- The escapes without those that are no characters. -/
def Escapes.strict (e : Escapes) : Escapes := { e with lone := fun _ => none }

/-- An escape is read by others that differ in those characters, but where it is one of them. -/
theorem unescaped_or_lone {e : Escapes} (e' : Escapes) {d : Char} {rest cs : List Char} {k : Nat}
    (h : Unescaped e d rest cs k)
    (hsame : e'.simple = e.simple ∧ e'.hex = e.hex ∧ e'.pairs = e.pairs) :
    e'.unescape (d :: rest) = some (cs, k) ∨ ∃ n c, e.lone n = some c ∧ c ∈ cs := by
  obtain ⟨hsimple, hhex, hpairs⟩ := hsame
  rw [Escapes.unescape, hsimple, hhex, hpairs]
  cases h with
  | simple hnone hread =>
    rw [hnone, hread]
    exact Or.inl rfl
  | char hdigits hn hvalid =>
    simp only [hdigits, hn, Option.bind_some, if_pos hvalid, true_or]
  | pair hdigits hn hvalid hpair hhigh hlow =>
    simp only [hdigits, hn, Option.bind_some, if_neg hvalid, hlow, hpair, hhigh, Bool.and_self,
      Option.filter_some_pos, true_or]
  | @lone digits n c _ _ _ hlone => exact Or.inr ⟨n, c, hlone, List.mem_singleton_self c⟩

/-- A string without such characters is read without them too. -/
theorem strict_or_lone {e : Escapes} {body s : List Char} (h : e.decode body = some s) :
    e.strict.decode body = some s ∨ ∃ n c, e.lone n = some c ∧ c ∈ s := by
  induction h using decode_induction with
  | nil => exact Or.inl rfl
  | plain c rest t hescape hplain _ ih =>
    refine ih.imp ?_ (fun ⟨n, d, hlone, hd⟩ => ⟨n, d, hlone, List.mem_cons_of_mem c hd⟩)
    intro hstrict
    have hplain' : e.strict.plain c = true := hplain
    rw [decode_plain e.strict hescape hplain', hstrict]
    rfl
  | escape rest cs k t hunescape _ ih =>
    obtain ⟨d, text, rfl, hread⟩ := unescape_cases hunescape
    rcases unescaped_or_lone e.strict hread ⟨rfl, rfl, rfl⟩ with hsame | ⟨n, c, hlone, hc⟩
    · refine ih.imp ?_ (fun ⟨n, c, hlone, hc⟩ => ⟨n, c, hlone, List.mem_append_right cs hc⟩)
      intro hstrict
      rw [decode_escape, hsame, Option.bind_some, hstrict]
      rfl
    · exact Or.inr ⟨n, c, hlone, List.mem_append_left t hc⟩

/-! ### JSON -/

def jsonSimple (c : Char) : Option (List Char) :=
  if c = '"' || c = '\\' || c = '/' then some [c]
  else if c = 'b' then some ['\x08']
  else if c = 'f' then some ['\x0c']
  else if c = 'n' then some ['\n']
  else if c = 'r' then some ['\r']
  else if c = 't' then some ['\t']
  else none

def jsonEscapes : Escapes where
  simple := jsonSimple
  hex c := if c = 'u' then some 4 else none
  pairs := true
  lone _ := none
  plain c := 32 ≤ c.toNat && c ≠ '"'

/-- The characters that `json.dumps` leaves as they are. -/
def isPrintable (c : Char) : Bool := 32 ≤ c.toNat && c.toNat ≤ 126

/-- `json.dumps` of one character of a string. -/
def encodeChar (c : Char) : List Char :=
  if c = '"' || c = '\\' then ['\\', c]
  else if isPrintable c then [c]
  else if c = '\x08' then ['\\', 'b']
  else if c = '\x0c' then ['\\', 'f']
  else if c = '\n' then ['\\', 'n']
  else if c = '\r' then ['\\', 'r']
  else if c = '\t' then ['\\', 't']
  else if c.toNat < 0x10000 then '\\' :: 'u' :: hex4 c.toNat
  else '\\' :: 'u' :: (hex4 (0xD800 + (c.toNat - 0x10000) / 1024) ++
    '\\' :: 'u' :: hex4 (0xDC00 + (c.toNat - 0x10000) % 1024))

def encode (s : List Char) : List Char := s.flatMap encodeChar

/-- A character that `json.dumps` leaves as it is. -/
def isKept (c : Char) : Bool := isPrintable c && c ≠ '"' && c ≠ '\\'

/-- Two escapes, for a character that needs more than four digits. -/
def encodePair (c : Char) : List Char :=
  '\\' :: 'u' :: (hex4 (0xD800 + (c.toNat - 0x10000) / 1024) ++
    '\\' :: 'u' :: hex4 (0xDC00 + (c.toNat - 0x10000) % 1024))

/-- The four forms in which a character is written. -/
inductive Encoded (c : Char) : List Char → Prop where
  | kept (h : isKept c = true) : Encoded c [c]
  | simple {d : Char} (h : isKept c = false) (hd : d ∈ ['"', '\\', 'b', 'f', 'n', 'r', 't'])
      (hread : jsonSimple d = some [c]) : Encoded c ['\\', d]
  | hex (h : isKept c = false) (hsmall : c.toNat < 0x10000) : Encoded c ('\\' :: 'u' :: hex4 c.toNat)
  | pair (h : isKept c = false) (hlarge : 0x10000 ≤ c.toNat) : Encoded c (encodePair c)

theorem encode_char (c : Char) : Encoded c (encodeChar c) := by
  unfold encodeChar
  split
  · rename_i hc
    have hc' : c = '"' ∨ c = '\\' := by simpa using hc
    rcases hc' with rfl | rfl
    · exact .simple rfl (by decide) rfl
    · exact .simple rfl (by decide) rfl
  · rename_i hquote
    have hkept : isKept c = isPrintable c := by
      have hquote' : c ≠ '"' ∧ c ≠ '\\' := by simpa using hquote
      rw [isKept, decide_eq_true hquote'.1, decide_eq_true hquote'.2, Bool.and_true, Bool.and_true]
    rw [← hkept]
    split
    · rename_i h
      exact .kept h
    · rename_i h
      rw [Bool.not_eq_true] at h
      split
      · rename_i hc
        exact hc ▸ .simple rfl (by decide) rfl
      · split
        · rename_i hc
          exact hc ▸ .simple rfl (by decide) rfl
        · split
          · rename_i hc
            exact hc ▸ .simple rfl (by decide) rfl
          · split
            · rename_i hc
              exact hc ▸ .simple rfl (by decide) rfl
            · split
              · rename_i hc
                exact hc ▸ .simple rfl (by decide) rfl
              · split
                · rename_i hsmall
                  exact .hex h hsmall
                · rename_i hlarge
                  exact .pair h (Nat.le_of_not_lt hlarge)

theorem char_valid (c : Char) : c.toNat < 0xD800 ∨ (0xDFFF < c.toNat ∧ c.toNat < 0x110000) := c.valid

/-- Four digits stand for the character of their number. -/
theorem unescape_hex {n : Nat} (h : n.isValidChar) (hsmall : n < 65536) (rest : List Char) :
    jsonEscapes.unescape ('u' :: (hex4 n ++ rest)) = some ([Char.ofNat n], 5) := by
  have hread := read_hex4 hsmall rest
  unfold Escapes.unescape
  simp only [jsonEscapes, if_true, hread, Option.bind_some, h]

theorem unescape_pair {high low : Nat} (hhigh : isHighSurrogate high = true)
    (hlow : isLowSurrogate low = true) (rest : List Char) :
    jsonEscapes.unescape ('u' :: (hex4 high ++ '\\' :: 'u' :: (hex4 low ++ rest))) =
      some ([Char.ofNat (0x10000 + (high - 0xD800) * 1024 + (low - 0xDC00))], 11) := by
  have hh : 0xD800 ≤ high ∧ high < 0xDC00 := by simpa [isHighSurrogate] using hhigh
  have hl : 0xDC00 ≤ low ∧ low < 0xE000 := by simpa [isLowSurrogate] using hlow
  have hinvalid : ¬ high.isValidChar := by
    unfold Nat.isValidChar
    omega
  have hreadHigh := read_hex4 (n := high) (by omega) ('\\' :: 'u' :: (hex4 low ++ rest))
  have hreadLow := read_hex4 (n := low) (by omega) rest
  have hsecond : lowHalf? ((hex4 high ++ '\\' :: 'u' :: (hex4 low ++ rest)).drop 4) = some low := by
    change lowHalf? ('\\' :: 'u' :: (hex4 low ++ rest)) = some low
    rw [lowHalf?, hreadLow]
    exact Option.filter_some_pos hlow
  unfold Escapes.unescape
  simp only [jsonEscapes, if_true, hreadHigh, Option.bind_some, hinvalid, if_false, hhigh,
    Bool.and_self, hsecond, Option.filter_some_pos]

theorem decode_encode_char (c : Char) (rest : List Char) :
    jsonEscapes.decode (encodeChar c ++ rest) = (jsonEscapes.decode rest).map (fun s => c :: s) := by
  have hvalid := char_valid c
  have hencoded := encode_char c
  generalize encodeChar c = body at hencoded
  cases hencoded with
  | kept h =>
    simp only [isKept, isPrintable, Bool.and_eq_true, decide_eq_true_eq] at h
    apply decode_plain _ h.2
    change (decide (32 ≤ c.toNat) && decide (c ≠ '"')) = true
    rw [Bool.and_eq_true, decide_eq_true_eq, decide_eq_true_eq]
    exact ⟨h.1.1.1, h.1.2⟩
  | @simple d h hd hread =>
    have hhex : jsonEscapes.hex d = none := by
      have hall : ∀ d ∈ ['"', '\\', 'b', 'f', 'n', 'r', 't'], jsonEscapes.hex d = none := by decide +kernel
      exact hall d hd
    rw [List.cons_append, List.singleton_append, decode_escape, Escapes.unescape, hhex]
    change ((jsonSimple d).map _).bind _ = _
    rw [hread]
    rfl
  | hex h hsmall =>
    have hchar : (c.toNat).isValidChar := c.valid
    rw [List.cons_append, List.cons_append, decode_escape,
      unescape_hex hchar hsmall, Option.bind_some, Char.ofNat_toNat]
    rfl
  | pair h hlarge =>
    have hhigh : isHighSurrogate (0xD800 + (c.toNat - 0x10000) / 1024) = true := by
      simp only [isHighSurrogate, Bool.and_eq_true, decide_eq_true_eq]
      omega
    have hlow : isLowSurrogate (0xDC00 + (c.toNat - 0x10000) % 1024) = true := by
      simp only [isLowSurrogate, Bool.and_eq_true, decide_eq_true_eq]
      omega
    have hnumber : 0x10000 + (0xD800 + (c.toNat - 0x10000) / 1024 - 0xD800) * 1024 +
        (0xDC00 + (c.toNat - 0x10000) % 1024 - 0xDC00) = c.toNat := by
      omega
    rw [encodePair, List.cons_append, List.cons_append, List.append_assoc, List.cons_append,
      List.cons_append, decode_escape, unescape_pair hhigh hlow, hnumber,
      Option.bind_some, Char.ofNat_toNat]
    rfl

theorem decode_encode (s : List Char) : jsonEscapes.decode (encode s) = some s := by
  induction s with
  | nil => rfl
  | cons c s ih =>
    rw [encode, List.flatMap_cons, decode_encode_char]
    change Option.map _ (jsonEscapes.decode (encode s)) = _
    rw [ih]
    rfl

/-! ### Texts that are encoded -/

/-- The characters of which the escapes consist. -/
def escapeChars : List Char := '\\' :: '"' :: 'n' :: 'r' :: 't' :: 'u' :: hexDigits

theorem encode_kept {c : Char} (h : isKept c = true) : encodeChar c = [c] := by
  have hencoded := encode_char c
  generalize encodeChar c = body at hencoded ⊢
  cases hencoded with
  | kept _ => rfl
  | simple hno => exact absurd h (by rw [hno]; exact Bool.false_ne_true)
  | hex hno => exact absurd h (by rw [hno]; exact Bool.false_ne_true)
  | pair hno => exact absurd h (by rw [hno]; exact Bool.false_ne_true)

theorem hex_digit_mem (d : Nat) : hexDigit (d % 16) ∈ hexDigits := by
  have hall : ∀ d < 16, hexDigit d ∈ hexDigits := by decide
  exact hall _ (Nat.mod_lt _ (by decide))

theorem hex4_mem {n : Nat} {d : Char} (h : d ∈ hex4 n) : d ∈ hexDigits := by
  simp only [hex4, List.mem_cons, List.not_mem_nil, or_false] at h
  rcases h with rfl | rfl | rfl | rfl <;> exact hex_digit_mem _

theorem hex4_last (n : Nat) (rest : List Char) : (rest ++ hex4 n).getLast? ≠ some '\\' := by
  intro h
  have hne : hex4 n ≠ [] := List.cons_ne_nil _ _
  rw [List.getLast?_append_of_ne_nil _ hne] at h
  have hlast : '\\' ∈ hex4 n := List.mem_of_getLast? h
  have hnot : '\\' ∉ hexDigits := by decide
  exact hnot (hex4_mem hlast)

/-- What is not kept is an escape, and only that of a backslash ends with one. -/
theorem encode_escaped {c : Char} (h : isKept c = false) :
    (∃ d rest, encodeChar c = '\\' :: d :: rest) ∧ (∀ e ∈ encodeChar c, e ∈ escapeChars) ∧
      ((encodeChar c).getLast? = some '\\' → c = '\\') := by
  have hhex {n : Nat} {d : Char} (hd : d ∈ hex4 n) : d ∈ escapeChars := by
    unfold escapeChars
    simp [hex4_mem hd]
  have hencoded := encode_char c
  generalize encodeChar c = body at hencoded
  cases hencoded with
  | kept hyes => exact absurd hyes (by rw [h]; exact Bool.false_ne_true)
  | @simple d _ hd hread =>
    refine ⟨⟨_, _, rfl⟩, ?_, ?_⟩
    · have hall : ∀ d ∈ ['"', '\\', 'b', 'f', 'n', 'r', 't'], d ∈ escapeChars := by decide +kernel
      intro e he
      rcases List.mem_cons.mp he with rfl | he
      · decide
      · exact hall e (List.mem_singleton.mp he ▸ hd)
    · intro hlast
      cases Option.some.inj hlast
      cases hread
      rfl
  | hex _ hsmall =>
    refine ⟨⟨_, _, rfl⟩, ?_, fun hlast => absurd hlast (hex4_last _ ['\\', 'u'])⟩
    intro e he
    rcases List.mem_cons.mp he with rfl | he
    · decide
    · rcases List.mem_cons.mp he with rfl | he
      · decide
      · exact hhex he
  | pair _ hlarge =>
    refine ⟨⟨_, _, rfl⟩, ?_, ?_⟩
    · intro e he
      simp only [encodePair, List.mem_cons, List.mem_append] at he
      rcases he with rfl | rfl | he | rfl | rfl | he
      · decide
      · decide
      · exact hhex he
      · decide
      · decide
      · exact hhex he
    · intro hlast
      have hsame (high low : List Char) : '\\' :: 'u' :: (high ++ '\\' :: 'u' :: low) =
          ('\\' :: 'u' :: (high ++ ['\\', 'u'])) ++ low := by
        simp
      rw [encodePair, hsame] at hlast
      exact absurd hlast (hex4_last _ _)

theorem encode_cons (c : Char) (s : List Char) : encode (c :: s) = encodeChar c ++ encode s :=
  List.flatMap_cons

theorem encode_append (s t : List Char) : encode (s ++ t) = encode s ++ encode t :=
  List.flatMap_append

theorem encode_all_kept {s : List Char} (h : ∀ c ∈ s, isKept c = true) : encode s = s := by
  induction s with
  | nil => rfl
  | cons c s ih =>
    rw [encode_cons, encode_kept (h c List.mem_cons_self), ih (fun d hd => h d (List.mem_cons_of_mem c hd))]
    rfl

theorem escape_chars_printable : ∀ c ∈ escapeChars, isPrintable c = true := by decide +kernel

theorem encode_printable {s : List Char} {c : Char} (h : c ∈ encode s) : isPrintable c = true := by
  obtain ⟨d, _, hc⟩ := List.mem_flatMap.mp h
  cases hd : isKept d with
  | true =>
    rw [encode_kept hd, List.mem_singleton] at hc
    simp only [isKept, Bool.and_eq_true] at hd
    exact hc ▸ hd.1.1
  | false =>
    exact escape_chars_printable c ((encode_escaped hd).2.1 c hc)

/-- Text of kept characters stands at the start of an encoded text where it does in the text. -/
theorem prefix_encode {old : List Char} (h : ∀ c ∈ old, isKept c = true) (s : List Char) :
    old <+: encode s ↔ old <+: s := by
  induction old generalizing s with
  | nil => exact iff_of_true (List.nil_prefix) (List.nil_prefix)
  | cons o old ih =>
    have ho := h o List.mem_cons_self
    have hback : o ≠ '\\' := by
      rintro rfl
      cases ho
    cases s with
    | nil => rfl
    | cons c s =>
      cases hc : isKept c with
      | true =>
        rw [encode_cons, encode_kept hc, List.singleton_append, List.cons_prefix_cons,
          List.cons_prefix_cons, ih (fun d hd => h d (List.mem_cons_of_mem o hd))]
      | false =>
        obtain ⟨⟨d, rest, hencode⟩, _⟩ := encode_escaped hc
        rw [encode_cons, hencode, List.cons_append, List.cons_prefix_cons, List.cons_prefix_cons]
        apply iff_of_false
        · exact fun hp => hback hp.1
        · rintro ⟨rfl, _⟩
          rw [ho] at hc
          cases hc

/-- A replacement of kept text by kept text may be made before or after the encoding, where no
escape has its first character. -/
theorem replace_encode {o : Char} {old new : List Char} (hold : ∀ c ∈ o :: old, isKept c = true)
    (hnew : ∀ c ∈ new, isKept c = true) (ho : o ∉ escapeChars) (s : List Char) :
    replaceAll (o :: old) new (encode s) = encode (replaceAll (o :: old) new s) := by
  have hne : o :: old ≠ [] := List.cons_ne_nil o old
  induction s using replace_induction hne with
  | nil => rfl
  | found rest ih =>
    rw [encode_append, encode_all_kept hold, replace_match hne, replace_match hne, encode_append,
      encode_all_kept hnew, ih]
  | step c rest hno ih =>
    rw [replace_step hno, encode_cons, encode_cons, ← ih]
    cases hc : isKept c with
    | true =>
      have hno' : ¬ o :: old <+: c :: encode rest := by
        rw [← prefix_encode hold, encode_cons, encode_kept hc] at hno
        exact hno
      rw [encode_kept hc, List.singleton_append, List.singleton_append, replace_step hno']
    | false =>
      exact replace_skip (fun hmem => ho ((encode_escaped hc).2.1 o hmem)) _

/-- Where two characters may stand next to each other in a text of two parts. -/
theorem infix_pair_append {a b : Char} {before rest : List Char} (hb : b ∉ before)
    (h : [a, b] <:+: before ++ rest) :
    [a, b] <:+: rest ∨ (before.getLast? = some a ∧ rest.head? = some b) := by
  induction before with
  | nil => exact Or.inl h
  | cons c before ih =>
    obtain ⟨hc, hbefore⟩ := not_or.mp (fun hmem => hb (List.mem_cons.mpr hmem))
    rcases List.infix_cons_iff.mp h with hp | h
    · obtain ⟨rfl, hnext⟩ := List.cons_prefix_cons.mp hp
      cases before with
      | nil =>
        refine Or.inr ⟨rfl, ?_⟩
        change [b] <+: rest at hnext
        cases rest with
        | nil => cases List.prefix_nil.mp hnext
        | cons d rest => rw [(List.cons_prefix_cons.mp hnext).1]; rfl
      | cons d before =>
        obtain ⟨rfl, _⟩ := List.cons_prefix_cons.mp hnext
        exact absurd List.mem_cons_self hbefore
    · rcases ih hbefore h with h | ⟨hlast, hhead⟩
      · exact Or.inl h
      · refine Or.inr ⟨?_, hhead⟩
        cases before with
        | nil => cases hlast
        | cons d before => exact hlast

/-- No escape has a backslash in front of a character that escapes do not have. -/
theorem infix_encode {x : Char} (hx : x ∉ escapeChars) {s : List Char}
    (h : ['\\', x] <:+: encode s) : ['\\', x] <:+: s := by
  induction s with
  | nil => exact h
  | cons c s ih =>
    rw [encode_cons] at h
    have hsplit : ['\\', x] <:+: encode s ∨ (c = '\\' ∧ (encode s).head? = some x) := by
      cases hc : isKept c with
      | true =>
        rw [encode_kept hc] at h
        rcases List.infix_cons_iff.mp h with hp | h
        · have hback := (List.cons_prefix_cons.mp hp).1
          rw [← hback] at hc
          cases hc
        · exact Or.inl h
      | false =>
        obtain ⟨_, hall, hlast⟩ := encode_escaped hc
        exact (infix_pair_append (fun hmem => hx (hall x hmem)) h).imp_right (And.imp_left hlast)
    rcases hsplit with h | ⟨rfl, hhead⟩
    · exact List.infix_cons (ih h)
    · cases s with
      | nil => cases hhead
      | cons d s =>
        cases hd : isKept d with
        | true =>
          rw [encode_cons, encode_kept hd] at hhead
          cases Option.some.inj hhead
          exact ⟨[], s, rfl⟩
        | false =>
          obtain ⟨⟨e, rest, hencode⟩, _⟩ := encode_escaped hd
          rw [encode_cons, hencode] at hhead
          cases Option.some.inj hhead
          exact absurd (by decide) hx

/-- What stands in a text stands in its encoding, with one more backslash before it. -/
theorem encode_infix {x : Char} (hx : isKept x = true) {s : List Char} (h : ['\\', x] <:+: s) :
    ['\\', x] <:+: encode s := by
  obtain ⟨before, after, rfl⟩ := h
  rw [encode_append, encode_append]
  refine ⟨encode before ++ ['\\'], encode after, ?_⟩
  have hpair : encode ['\\', x] = ['\\', '\\', x] := by
    rw [encode_cons, encode_cons, encode_kept hx]
    rfl
  rw [hpair]
  simp

/-- Text of kept characters stands in an encoded text only where it does in the text, if no
escape has its first character. -/
theorem infix_encode_kept {o : Char} {old : List Char} (hold : ∀ c ∈ o :: old, isKept c = true)
    (ho : o ∉ escapeChars) {s : List Char} (h : o :: old <:+: encode s) : o :: old <:+: s := by
  induction s with
  | nil => exact h
  | cons c s ih =>
    rw [encode_cons] at h
    cases hc : isKept c with
    | true =>
      rw [encode_kept hc] at h
      rcases List.infix_cons_iff.mp h with hp | h
      · have hstarts : o :: old <+: encode (c :: s) := by
          rw [encode_cons, encode_kept hc]
          exact hp
        exact ((prefix_encode hold (c :: s)).mp hstarts).isInfix
      · exact List.infix_cons (ih h)
    | false =>
      have hskip := infix_skip (fun hmem => ho ((encode_escaped hc).2.1 o hmem)) h
      exact List.infix_cons (ih hskip)

theorem encode_infix_kept {old s : List Char} (hold : ∀ c ∈ old, isKept c = true) (h : old <:+: s) :
    old <:+: encode s := by
  obtain ⟨before, after, rfl⟩ := h
  rw [encode_append, encode_append, encode_all_kept hold]
  exact ⟨encode before, encode after, rfl⟩

/-! ### No text of a string is shorter -/

theorem hex_value_lt {c : Char} {d : Nat} (h : hexValue? c = some d) : d < 16 := by
  unfold hexValue? at h
  split at h
  · rename_i hc
    simp only [Char.isDigit, Bool.and_eq_true, decide_eq_true_eq, UInt32.le_iff_toNat_le] at hc
    cases h
    have hle : c.toNat ≤ 57 := hc.2
    omega
  · split at h
    · rename_i hc
      simp only [Char.le_def, Bool.and_eq_true, decide_eq_true_eq, UInt32.le_iff_toNat_le] at hc
      cases h
      have hle : c.toNat ≤ 102 := hc.2
      omega
    · split at h
      · rename_i hc
        simp only [Char.le_def, Bool.and_eq_true, decide_eq_true_eq, UInt32.le_iff_toNat_le] at hc
        cases h
        have hle : c.toNat ≤ 70 := hc.2
        omega
      · cases h

theorem read_hex_lt {k n m b : Nat} {text : List Char} (hn : n < b) (h : readHex k text n = some m) :
    m < b * 16 ^ k := by
  induction k generalizing text n b with
  | zero =>
    cases h
    simpa using hn
  | succ k ih =>
    cases text with
    | nil => cases h
    | cons c text =>
      obtain ⟨d, hd, hrest⟩ := Option.bind_eq_some_iff.mp h
      have hdigit := hex_value_lt hd
      have hnext : 16 * n + d < b * 16 := by omega
      rw [Nat.pow_succ, Nat.mul_comm (16 ^ k), ← Nat.mul_assoc]
      exact ih hnext hrest

theorem encode_length (c : Char) : (encodeChar c).length ≤ 12 ∧
    (c.toNat < 0x10000 → (encodeChar c).length ≤ 6) := by
  have hencoded := encode_char c
  generalize encodeChar c = body at hencoded
  cases hencoded with
  | kept _ =>
    rw [List.length_singleton]
    exact ⟨by decide, fun _ => by decide⟩
  | simple _ _ _ =>
    rw [List.length_cons, List.length_singleton]
    exact ⟨by decide, fun _ => by decide⟩
  | hex _ _ =>
    have hsix : ('\\' :: 'u' :: hex4 c.toNat).length = 6 := rfl
    rw [hsix]
    exact ⟨by decide, fun _ => Nat.le_refl 6⟩
  | pair _ hlarge => exact ⟨Nat.le_refl 12, fun hsmall => absurd hlarge (Nat.not_le_of_lt hsmall)⟩

/-- What an escape stands for is not longer once it is encoded. -/
theorem unescaped_length {d : Char} {rest cs : List Char} {k : Nat}
    (h : Unescaped jsonEscapes d rest cs k) :
    (encode cs).length ≤ k + 1 ∧ k ≤ (d :: rest).length := by
  have hfour {digits : Nat} (hhex : jsonEscapes.hex d = some digits) : digits = 4 := by
    change (if d = 'u' then some 4 else none) = some digits at hhex
    split at hhex
    · exact (Option.some.inj hhex).symm
    · cases hhex
  have hread {digits n : Nat} {text : List Char} (hn : readHex digits text 0 = some n) :
      digits ≤ text.length := by
    obtain ⟨before, after, rfl, hlength, _⟩ := read_hex_split hn
    rw [List.length_append]
    omega
  cases h with
  | simple hhex hsimple =>
    refine ⟨?_, Nat.succ_le_succ (Nat.zero_le _)⟩
    change jsonSimple d = some cs at hsimple
    have hd : d ∈ ['"', '\\', '/', 'b', 'f', 'n', 'r', 't'] := by
      by_contra hno
      simp only [List.mem_cons, List.not_mem_nil, or_false, not_or] at hno
      simp [jsonSimple, hno] at hsimple
    have hall : ∀ d ∈ ['"', '\\', '/', 'b', 'f', 'n', 'r', 't'], ∀ cs ∈ jsonSimple d,
        (encode cs).length ≤ 1 + 1 := by
      decide +kernel
    exact hall d hd cs hsimple
  | @char digits n hhex hn hvalid =>
    rw [hfour hhex] at hn ⊢
    have hsmall : n < 65536 := read_hex_lt (b := 1) Nat.one_pos hn
    have hnat : (Char.ofNat n).toNat = n := by
      rw [Char.ofNat, dif_pos hvalid]
      rfl
    refine ⟨?_, Nat.succ_le_succ (hread hn)⟩
    rw [encode, List.flatMap_cons, List.flatMap_nil, List.append_nil]
    exact (encode_length _).2 (hnat.symm ▸ hsmall)
  | pair hhex hn _ _ _ hlow =>
    rw [hfour hhex] at hn hlow ⊢
    refine ⟨?_, ?_⟩
    · rw [encode, List.flatMap_cons, List.flatMap_nil, List.append_nil]
      exact (encode_length _).1
    · unfold lowHalf? at hlow
      split at hlow
      · rename_i after hafter
        have hsecond := hread (Option.filter_eq_some_iff.mp hlow).1
        have hlength := congrArg List.length hafter
        rw [List.length_drop, List.length_cons, List.length_cons] at hlength
        rw [List.length_cons]
        omega
      · cases hlow
  | lone _ _ _ hlone => cases hlone

/-- `json.dumps` writes a string as short as printable text can be. -/
theorem encode_shortest {body s : List Char} (hprintable : ∀ c ∈ body, isPrintable c = true)
    (h : jsonEscapes.decode body = some s) : (encode s).length ≤ body.length := by
  induction h using decode_induction with
  | nil => exact Nat.le_refl _
  | plain c rest t hescape hplain _ ih =>
    have hquote : c ≠ '"' := by
      rintro rfl
      cases hplain
    have hkept : isKept c = true := by
      rw [isKept, hprintable c List.mem_cons_self, decide_eq_true hquote, decide_eq_true hescape]
      rfl
    have hshort := ih (fun d hd => hprintable d (List.mem_cons_of_mem c hd))
    rw [encode_cons, encode_kept hkept, List.length_append, List.length_singleton, List.length_cons]
    omega
  | escape rest cs k t hunescape _ ih =>
    obtain ⟨d, text, rfl, hread⟩ := unescape_cases hunescape
    obtain ⟨hcs, hk⟩ := unescaped_length hread
    have hpositive : 0 < k := by
      cases hread <;> omega
    have hdrop : ((d :: text).drop k).length = (d :: text).length - k := List.length_drop
    have hshort := ih (fun e he => hprintable e (List.mem_cons_of_mem _ (List.mem_of_mem_drop he)))
    rw [encode_append, List.length_append, List.length_cons]
    omega

theorem encode_closed (s : List Char) : Closed '"' (encode s) := by
  induction s with
  | nil => exact .nil
  | cons c s ih =>
    have hhex (n : Nat) {rest : List Char} (h : Closed '"' rest) : Closed '"' (hex4 n ++ rest) := by
      apply (closed_append_plain _).mpr h
      have hplain : ∀ d ∈ hexDigits, d ≠ '"' ∧ d ≠ '\\' := by decide +kernel
      exact fun d hd => hplain d (hex4_mem hd)
    rw [encode_cons]
    have hencoded := encode_char c
    generalize encodeChar c = body at hencoded
    cases hencoded with
    | kept h =>
      simp only [isKept, Bool.and_eq_true, decide_eq_true_eq] at h
      exact .plain h.1.2 h.2 ih
    | simple _ _ _ => exact .escape _ ih
    | hex _ _ => exact .escape _ (hhex _ ih)
    | pair _ _ =>
      rw [encodePair, List.cons_append, List.cons_append, List.append_assoc, List.cons_append,
        List.cons_append]
      exact .escape _ (hhex _ (.escape _ (hhex _ ih)))

end CheshireCat.Base
