import CheshireCat.Base.Escapes
import CheshireCat.Base.Json
import CheshireCat.Base.Trees

namespace CheshireCat.Base

/-! ### Values -/

namespace Json

mutual

/-- The strings and the keys of a value, in order. -/
def texts : Json → List String
  | .str s => [s]
  | .arr items => itemTexts items
  | .obj fields => fieldTexts fields
  | _ => []

def itemTexts : List Json → List String
  | [] => []
  | v :: vs => v.texts ++ itemTexts vs

def fieldTexts : List (String × Json) → List String
  | [] => []
  | (k, v) :: fields => k :: (v.texts ++ fieldTexts fields)

end

mutual

/-- Whether the keys of each object are distinct. -/
def distinct : Json → Bool
  | .arr items => distinctItems items
  | .obj fields => decide (fields.map Prod.fst).Nodup && distinctFields fields
  | _ => true

def distinctItems : List Json → Bool
  | [] => true
  | v :: vs => v.distinct && distinctItems vs

def distinctFields : List (String × Json) → Bool
  | [] => true
  | (_, v) :: fields => v.distinct && distinctFields fields

end

theorem set_fields_new {d e : Fields} (h : ((d ++ e).map Prod.fst).Nodup) : setFields d e = d ++ e := by
  induction e generalizing d with
  | nil => exact (List.append_nil d).symm
  | cons p e ih =>
    have hnew : p.1 ∉ d.map Prod.fst := by
      intro hmem
      rw [List.map_append, List.nodup_append] at h
      exact h.2.2 p.1 hmem p.1 (List.mem_map_of_mem List.mem_cons_self) rfl
    have hassign : setField d p.1 p.2 = d ++ [p] := if_neg hnew
    change setFields (setField d p.1 p.2) e = _
    rw [hassign, ih (by simpa using h)]
    simp

end Json

namespace Json

theorem field_texts_append (d e : Fields) : fieldTexts (d ++ e) = fieldTexts d ++ fieldTexts e := by
  induction d with
  | nil => rfl
  | cons p d ih => rw [List.cons_append, fieldTexts, fieldTexts, ih, List.cons_append, List.append_assoc]

/-- A key that is assigned again takes the texts of its old value away. -/
theorem reassigned_shorter {d : Fields} {k : String} (v : Json) (hd : (d.map Prod.fst).Nodup)
    (hk : k ∈ d.map Prod.fst) : (fieldTexts (d.map (fun p => if p.1 = k then (k, v) else p))).length <
      (fieldTexts d).length + (fieldTexts [(k, v)]).length := by
  induction d with
  | nil => cases hk
  | cons p d ih =>
    rw [List.map_cons, List.nodup_cons] at hd
    rw [List.map_cons]
    by_cases hp : p.1 = k
    · have hrest : d.map (fun p => if p.1 = k then (k, v) else p) = d := by
        have hall : ∀ q ∈ d, (if q.1 = k then (k, v) else q) = id q := by
          intro q hq
          apply if_neg
          intro hqk
          exact hd.1 (hp.trans hqk.symm ▸ List.mem_map_of_mem hq)
        rw [List.map_congr_left hall, List.map_id]
      rw [if_pos hp, hrest]
      simp only [fieldTexts, List.length_cons, List.length_append, List.length_nil]
      omega
    · have hk' : k ∈ d.map Prod.fst := (List.mem_cons.mp hk).resolve_left (fun h => hp h.symm)
      have hshort := ih hd.2 hk'
      rw [if_neg hp]
      simp only [fieldTexts, List.length_cons, List.length_append] at hshort ⊢
      omega

/-- Where a key is assigned twice, a text is lost. -/
theorem set_fields_texts {d e : Fields} (hd : (d.map Prod.fst).Nodup) :
    (fieldTexts (setFields d e)).length ≤ (fieldTexts d).length + (fieldTexts e).length ∧
    ((fieldTexts (setFields d e)).length = (fieldTexts d).length + (fieldTexts e).length →
      setFields d e = d ++ e) := by
  induction e generalizing d with
  | nil => exact ⟨Nat.le_refl _, fun _ => (List.append_nil d).symm⟩
  | cons p e ih =>
    obtain ⟨k, v⟩ := p
    have hkeys : ((setField d k v).map Prod.fst).Nodup := by
      change ((Dict.assign k v d).map Prod.fst).Nodup
      rw [Dict.assign_keys]
      split
      · exact hd
      · rename_i hno
        exact List.nodup_append.mpr ⟨hd, List.nodup_singleton _,
          fun a ha b hb hab => hno (List.mem_singleton.mp hb ▸ hab ▸ ha)⟩
    obtain ⟨hle, hsame⟩ := ih hkeys
    have hcons : (fieldTexts ((k, v) :: e)).length =
        (fieldTexts [(k, v)]).length + (fieldTexts e).length := by
      rw [← List.length_append, ← field_texts_append]
      rfl
    have hstep : setFields d ((k, v) :: e) = setFields (setField d k v) e := rfl
    rw [hstep, hcons]
    by_cases hk : k ∈ d.map Prod.fst
    · have hshort : (fieldTexts (setField d k v)).length <
          (fieldTexts d).length + (fieldTexts [(k, v)]).length := by
        have hassign : setField d k v = d.map (fun p => if p.1 = k then (k, v) else p) := if_pos hk
        rw [hassign]
        exact reassigned_shorter v hd hk
      exact ⟨by omega, fun heq => by omega⟩
    · have hassign : setField d k v = d ++ [(k, v)] := if_neg hk
      rw [hassign, field_texts_append, List.length_append] at hle hsame
      rw [hassign]
      refine ⟨by omega, fun heq => ?_⟩
      rw [hsame (by omega), List.append_assoc]
      rfl

end Json

/-! ### Words and strings -/

def nullWord : List Char := ['n', 'u', 'l', 'l']

def trueWord : List Char := ['t', 'r', 'u', 'e']

def falseWord : List Char := ['f', 'a', 'l', 's', 'e']

/-- How numbers are written, with no letters but `e`, and read again. -/
structure NumberTexts where
  write : Number → List Char
  read : List Char → Option Number
  read_write : ∀ n, read (write n) = some n
  write_ne_nil : ∀ n, write n ≠ []
  letters : ∀ n, ∀ c ∈ write n, isWordChar c = true ∧ c ≠ '\\' ∧ (c.isAlpha = true → c = 'e')

def NumberTexts.readWord (numbers : NumberTexts) (w : List Char) : Option Json :=
  if w = nullWord then some .null
  else if w = trueWord then some (.bool true)
  else if w = falseWord then some (.bool false)
  else (numbers.read w).map .number

/-- The string that is written for a text. -/
def quote (s : String) : Piece := .quoted '"' (encode s.toList)

def readText : Piece → Option String
  | .quoted quote body => if quote = '"' then (jsonEscapes.decode body).map String.ofList else none
  | _ => none

theorem read_quote (s : String) : readText (quote s) = some s := by
  rw [quote, readText, if_pos rfl, decode_encode, Option.map_some, String.ofList_toList]

/-! ### Texts of values -/

variable (numbers : NumberTexts)

mutual

def NumberTexts.tree : Json → Tree
  | .null => .leaf (.word nullWord)
  | .bool true => .leaf (.word trueWord)
  | .bool false => .leaf (.word falseWord)
  | .number n => .leaf (.word (numbers.write n))
  | .str s => .leaf (quote s)
  | .arr items => .list (NumberTexts.itemTrees items)
  | .obj fields => .dict (NumberTexts.fieldTrees fields)

def NumberTexts.itemTrees : List Json → List Tree
  | [] => []
  | v :: vs => NumberTexts.tree v :: NumberTexts.itemTrees vs

def NumberTexts.fieldTrees : List (String × Json) → List (Piece × Tree)
  | [] => []
  | (k, v) :: fields => (quote k, NumberTexts.tree v) :: NumberTexts.fieldTrees fields

end

mutual

/-- The value for which a literal stands. Of two entries with one key the last one counts. -/
def NumberTexts.value? : Tree → Option Json
  | .leaf (.word w) => numbers.readWord w
  | .leaf p => (readText p).map .str
  | .list items => (NumberTexts.values? items).map .arr
  | .dict entries => (NumberTexts.fields? entries).map (fun fields => .obj (Json.setFields [] fields))

def NumberTexts.values? : List Tree → Option (List Json)
  | [] => some []
  | t :: ts => (NumberTexts.value? t).bind (fun v => (NumberTexts.values? ts).map (fun vs => v :: vs))

def NumberTexts.fields? : List (Piece × Tree) → Option (List (String × Json))
  | [] => some []
  | (key, t) :: entries => (readText key).bind (fun k => (NumberTexts.value? t).bind (fun v =>
      (NumberTexts.fields? entries).map (fun fields => (k, v) :: fields)))

end

/-- `json.dumps` writes a blank after each comma and colon. -/
def spaced (pieces : List Piece) : List Piece :=
  pieces.flatMap (fun p => if p = .punct .comma ∨ p = .punct .colon then [p, .blank ' '] else [p])

def NumberTexts.dumps (v : Json) : List Char := textOf (spaced (numbers.tree v).pieces)

/-- The value of a text that is valid JSON. -/
def NumberTexts.loads (text : List Char) : Option Json :=
  ((lex text).bind (parse false)).bind numbers.value?

/-! ### Pieces of a value -/

def IsConstant (w : List Char) : Prop :=
  w = nullWord ∨ w = trueWord ∨ w = falseWord ∨ ∃ n, w = numbers.write n

/-- A bracket, a comma or a colon, a constant or one of the texts. -/
inductive PieceOf (texts : List String) : Piece → Prop where
  | punct (a : Punct) : PieceOf texts (.punct a)
  | word {w : List Char} (h : IsConstant numbers w) : PieceOf texts (.word w)
  | text {s : String} (h : s ∈ texts) : PieceOf texts (quote s)

variable {numbers}

theorem PieceOf.mono {texts texts' : List String} {p : Piece} (h : PieceOf numbers texts p)
    (hsub : texts ⊆ texts') : PieceOf numbers texts' p := by
  cases h with
  | punct a => exact .punct a
  | word h => exact .word h
  | text h => exact .text (hsub h)

variable (numbers)

mutual

theorem tree_leaves : (v : Json) → (numbers.tree v).all Piece.isLeaf = true
  | .null => rfl
  | .bool true => rfl
  | .bool false => rfl
  | .number _ => rfl
  | .str _ => rfl
  | .arr items => item_leaves items
  | .obj fields => field_leaves fields

theorem item_leaves : (items : List Json) → allItems Piece.isLeaf (numbers.itemTrees items) = true
  | [] => rfl
  | v :: vs => by
    rw [NumberTexts.itemTrees, allItems, tree_leaves v, item_leaves vs]
    rfl

theorem field_leaves : (fields : List (String × Json)) →
    allEntries Piece.isLeaf (numbers.fieldTrees fields) = true
  | [] => rfl
  | (k, v) :: fields => by
    rw [NumberTexts.fieldTrees, allEntries, tree_leaves v, field_leaves fields]
    rfl

end

mutual

theorem tree_pieces : (v : Json) → ∀ p ∈ (numbers.tree v).pieces, PieceOf numbers v.texts p
  | .null, p, hp => List.mem_singleton.mp hp ▸ .word (Or.inl rfl)
  | .bool true, p, hp => List.mem_singleton.mp hp ▸ .word (Or.inr (Or.inl rfl))
  | .bool false, p, hp => List.mem_singleton.mp hp ▸ .word (Or.inr (Or.inr (Or.inl rfl)))
  | .number n, p, hp => List.mem_singleton.mp hp ▸ .word (Or.inr (Or.inr (Or.inr ⟨n, rfl⟩)))
  | .str s, p, hp => List.mem_singleton.mp hp ▸ .text (List.mem_singleton_self s)
  | .arr items, p, hp => by
    rw [NumberTexts.tree, Tree.pieces, List.mem_cons, List.mem_append, List.mem_singleton] at hp
    rcases hp with rfl | hp | rfl
    · exact .punct _
    · exact item_pieces items p hp
    · exact .punct _
  | .obj fields, p, hp => by
    rw [NumberTexts.tree, Tree.pieces, List.mem_cons, List.mem_append, List.mem_singleton] at hp
    rcases hp with rfl | hp | rfl
    · exact .punct _
    · exact field_pieces fields p hp
    · exact .punct _

theorem item_pieces : (items : List Json) → ∀ p ∈ itemPieces (numbers.itemTrees items),
    PieceOf numbers (Json.itemTexts items) p
  | [], _, hp => absurd hp List.not_mem_nil
  | v :: vs, p, hp => by
    rcases mem_item_pieces hp with rfl | hp | hp
    · exact .punct _
    · exact (tree_pieces v p hp).mono (List.subset_append_left _ _)
    · exact (item_pieces vs p hp).mono (List.subset_append_right _ _)

theorem field_pieces : (fields : List (String × Json)) →
    ∀ p ∈ entryPieces (numbers.fieldTrees fields), PieceOf numbers (Json.fieldTexts fields) p
  | [], _, hp => absurd hp List.not_mem_nil
  | (k, v) :: fields, p, hp => by
    rcases mem_entry_pieces hp with rfl | rfl | rfl | hp | hp
    · exact .punct _
    · exact .punct _
    · exact .text List.mem_cons_self
    · exact (tree_pieces v p hp).mono
        (fun s hs => List.mem_cons_of_mem k (List.mem_append_left _ hs))
    · exact (field_pieces fields p hp).mono
        (fun s hs => List.mem_cons_of_mem k (List.mem_append_right _ hs))

end

mutual

theorem texts_pieces : (v : Json) → ∀ s ∈ v.texts, quote s ∈ (numbers.tree v).pieces
  | .null, _, hs => absurd hs List.not_mem_nil
  | .bool _, _, hs => absurd hs List.not_mem_nil
  | .number _, _, hs => absurd hs List.not_mem_nil
  | .str _, _, hs => List.mem_singleton.mp hs ▸ List.mem_singleton_self _
  | .arr items, s, hs =>
    List.mem_cons_of_mem _ (List.mem_append_left _ (item_texts_pieces items s hs))
  | .obj fields, s, hs =>
    List.mem_cons_of_mem _ (List.mem_append_left _ (field_texts_pieces fields s hs))

theorem item_texts_pieces : (items : List Json) → ∀ s ∈ Json.itemTexts items,
    quote s ∈ itemPieces (numbers.itemTrees items)
  | [], _, hs => absurd hs List.not_mem_nil
  | v :: vs, s, hs => by
    obtain ⟨hfirst, hrest⟩ := item_pieces_subset (numbers.tree v) (numbers.itemTrees vs)
    rcases List.mem_append.mp hs with hs | hs
    · exact hfirst (texts_pieces v s hs)
    · exact hrest (item_texts_pieces vs s hs)

theorem field_texts_pieces : (fields : List (String × Json)) → ∀ s ∈ Json.fieldTexts fields,
    quote s ∈ entryPieces (numbers.fieldTrees fields)
  | [], _, hs => absurd hs List.not_mem_nil
  | (k, v) :: fields, s, hs => by
    obtain ⟨hkey, hfirst, hrest⟩ :=
      entry_pieces_subset (quote k) (numbers.tree v) (numbers.fieldTrees fields)
    rcases List.mem_cons.mp hs with rfl | hs
    · exact hkey
    · rcases List.mem_append.mp hs with hs | hs
      · exact hfirst (texts_pieces v s hs)
      · exact hrest (field_texts_pieces fields s hs)

end

mutual

theorem count_tree : (v : Json) → (numbers.tree v).pieces.countP Piece.isQuoted = v.texts.length
  | .null => rfl
  | .bool true => rfl
  | .bool false => rfl
  | .number _ => rfl
  | .str _ => rfl
  | .arr items => by
    rw [NumberTexts.tree, Tree.pieces, List.countP_cons_of_neg Bool.false_ne_true, List.countP_append,
      List.countP_cons_of_neg Bool.false_ne_true, count_items items]
    rfl
  | .obj fields => by
    rw [NumberTexts.tree, Tree.pieces, List.countP_cons_of_neg Bool.false_ne_true, List.countP_append,
      List.countP_cons_of_neg Bool.false_ne_true, count_fields fields]
    rfl

theorem count_items : (items : List Json) →
    (itemPieces (numbers.itemTrees items)).countP Piece.isQuoted = (Json.itemTexts items).length
  | [] => rfl
  | v :: vs => by
    rw [NumberTexts.itemTrees, count_item_pieces, count_tree v, count_items vs, Json.itemTexts,
      List.length_append]

theorem count_fields : (fields : List (String × Json)) →
    (entryPieces (numbers.fieldTrees fields)).countP Piece.isQuoted = (Json.fieldTexts fields).length
  | [] => rfl
  | (k, v) :: fields => by
    rw [NumberTexts.fieldTrees, count_entry_pieces, count_tree v, count_fields fields, Json.fieldTexts,
      List.length_cons, List.length_append, Nat.add_comm]
    rfl

end

/-! ### Reading what was written -/

variable {numbers}

theorem number_not_constant (n : Number) :
    numbers.write n ≠ nullWord ∧ numbers.write n ≠ trueWord ∧ numbers.write n ≠ falseWord := by
  have hletter {c : Char} {w : List Char} (hc : c ∈ w) (halpha : c.isAlpha = true) (he : c ≠ 'e') :
      numbers.write n ≠ w := by
    rintro rfl
    exact he ((numbers.letters n c hc).2.2 halpha)
  exact ⟨hletter (c := 'n') (by decide) (by decide) (by decide),
    hletter (c := 't') (by decide) (by decide) (by decide),
    hletter (c := 'f') (by decide) (by decide) (by decide)⟩

theorem read_number (n : Number) : numbers.readWord (numbers.write n) = some (.number n) := by
  obtain ⟨hnull, htrue, hfalse⟩ := number_not_constant n
  rw [NumberTexts.readWord, if_neg hnull, if_neg htrue, if_neg hfalse, numbers.read_write]
  rfl

mutual

theorem value_tree : (v : Json) → v.distinct = true → numbers.value? (numbers.tree v) = some v
  | .null, _ => rfl
  | .bool true, _ => rfl
  | .bool false, _ => rfl
  | .number n, _ => read_number n
  | .str s, _ => by
    change (readText (quote s)).map Json.str = _
    rw [read_quote]
    rfl
  | .arr items, h => by
    rw [NumberTexts.tree, NumberTexts.value?, values_trees items h]
    rfl
  | .obj fields, h => by
    rw [Json.distinct, Bool.and_eq_true, decide_eq_true_eq] at h
    have hset : Json.setFields [] fields = fields := Json.set_fields_new h.1
    rw [NumberTexts.tree, NumberTexts.value?, fields_trees fields h.2, Option.map_some, hset]

theorem values_trees : (items : List Json) → Json.distinctItems items = true →
    numbers.values? (numbers.itemTrees items) = some items
  | [], _ => rfl
  | v :: vs, h => by
    rw [Json.distinctItems, Bool.and_eq_true] at h
    rw [NumberTexts.itemTrees, NumberTexts.values?, value_tree v h.1, values_trees vs h.2]
    rfl

theorem fields_trees : (fields : List (String × Json)) → Json.distinctFields fields = true →
    numbers.fields? (numbers.fieldTrees fields) = some fields
  | [], _ => rfl
  | (k, v) :: fields, h => by
    rw [Json.distinctFields, Bool.and_eq_true] at h
    rw [NumberTexts.fieldTrees, NumberTexts.fields?, read_quote, value_tree v h.1, fields_trees fields h.2]
    rfl

end

theorem constant_word {w : List Char} (h : IsConstant numbers w) :
    w ≠ [] ∧ ∀ c ∈ w, isWordChar c = true ∧ c ≠ '\\' ∧ c ≠ 'N' := by
  have hnumber : ∀ c : Char, c.isAlpha = true → c = 'e' → c ≠ 'N' := by
    rintro c _ rfl
    decide
  rcases h with rfl | rfl | rfl | ⟨n, rfl⟩
  · decide +kernel
  · decide +kernel
  · decide +kernel
  · refine ⟨numbers.write_ne_nil n, ?_⟩
    intro c hc
    obtain ⟨hword, hback, halpha⟩ := numbers.letters n c hc
    refine ⟨hword, hback, ?_⟩
    rintro rfl
    cases halpha rfl

theorem PieceOf.valid {texts : List String} {p : Piece} (h : PieceOf numbers texts p) : p.Valid := by
  cases h with
  | punct a => trivial
  | word h => exact ⟨(constant_word h).1, fun c hc => ((constant_word h).2 c hc).1⟩
  | text h => exact ⟨rfl, encode_closed _⟩

theorem PieceOf.not_blank {texts : List String} {p : Piece} (h : PieceOf numbers texts p) :
    p.isBlank = false := by
  cases h <;> rfl

theorem spaced_cons (p : Piece) (pieces : List Piece) : spaced (p :: pieces) =
    if p = .punct .comma ∨ p = .punct .colon then p :: .blank ' ' :: spaced pieces
    else p :: spaced pieces := by
  rw [spaced, List.flatMap_cons]
  split <;> rfl

theorem spaced_head (pieces : List Piece) : (spaced pieces).head? = pieces.head? := by
  cases pieces with
  | nil => rfl
  | cons p pieces =>
    rw [spaced_cons]
    split <;> rfl

theorem spaced_append (pieces pieces' : List Piece) :
    spaced (pieces ++ pieces') = spaced pieces ++ spaced pieces' := List.flatMap_append

theorem spaced_map (f : List Char → List Char) (pieces : List Piece) :
    (spaced pieces).map (Piece.map f) = spaced (pieces.map (Piece.map f)) := by
  induction pieces with
  | nil => rfl
  | cons p pieces ih =>
    rw [List.map_cons, spaced_cons, spaced_cons, ← ih]
    simp only [punct_map_iff]
    split <;> rfl

/-- A bracket is doubled with the blanks where it is without. -/
theorem spaced_halve {a : Punct} (hcomma : a ≠ .comma) (hcolon : a ≠ .colon) (pieces : List Piece) :
    halve a (spaced pieces) = spaced (halve a pieces) := by
  have hmark : ¬ (Piece.punct a = .punct .comma ∨ Piece.punct a = .punct .colon) := by
    rintro (h | h)
    · exact hcomma (Piece.punct.inj h)
    · exact hcolon (Piece.punct.inj h)
  induction pieces using halve_induction a with
  | nil => rfl
  | pair rest ih =>
    rw [halve_pair, spaced_cons, if_neg hmark, spaced_cons, if_neg hmark, halve_pair, spaced_cons,
      if_neg hmark, ih]
  | step p rest hno ih =>
    rw [halve_step hno, spaced_cons, spaced_cons]
    split
    · rename_i hp
      have hpa : p ≠ .punct a := by
        rintro rfl
        exact hmark hp
      rw [halve_step (fun h => hpa h.1), halve_step (fun h => by cases h.1), ih]
    · rw [halve_step, ih]
      rw [spaced_head]
      exact hno

theorem spaced_without_blanks {pieces : List Piece} (h : ∀ p ∈ pieces, p.isBlank = false) :
    (spaced pieces).filter (fun p => !p.isBlank) = pieces := by
  induction pieces with
  | nil => rfl
  | cons p pieces ih =>
    rw [List.forall_mem_cons] at h
    have hkeep (rest : List Piece) : (p :: rest).filter (fun p => !p.isBlank) =
        p :: rest.filter (fun p => !p.isBlank) := by
      apply List.filter_cons_of_pos
      rw [h.1]
      rfl
    rw [spaced_cons]
    split
    · rw [hkeep]
      exact congrArg _ (ih h.2)
    · rw [hkeep, ih h.2]

theorem layout_spaced {pieces : List Piece} (hvalid : ∀ p ∈ pieces, p.Valid)
    (hchain : pieces.IsChain Beside) : Layout (spaced pieces) := by
  induction pieces with
  | nil => exact layout_nil
  | cons p pieces ih =>
    rw [List.forall_mem_cons] at hvalid
    have hrest := ih hvalid.2 hchain.tail
    rw [spaced_cons]
    split
    · rename_i hp
      refine layout_cons_iff.mpr ⟨hvalid.1, layout_cons_iff.mpr ⟨rfl, hrest, nofun⟩, ?_⟩
      intro hword
      rcases hp with rfl | rfl <;> cases hword
    · refine layout_cons_iff.mpr ⟨hvalid.1, hrest, ?_⟩
      intro hword q hq
      rw [spaced_head] at hq
      obtain ⟨⟨a, rfl⟩ | ⟨b, rfl⟩, _⟩ := hchain.rel_head? hq
      · cases hword
      · rfl

theorem dumps_layout (v : Json) : Layout (spaced (numbers.tree v).pieces) :=
  layout_spaced (fun p hp => (tree_pieces numbers v p hp).valid) (tree_chain _ (tree_leaves numbers v))

/-- A value is read from its text. -/
theorem loads_dumps {v : Json} (h : v.distinct = true) : numbers.loads (numbers.dumps v) = some v := by
  have hblanks : ∀ p ∈ (numbers.tree v).pieces, p.isBlank = false :=
    fun p hp => (tree_pieces numbers v p hp).not_blank
  rw [NumberTexts.loads, NumberTexts.dumps, lex_text (dumps_layout v), Option.bind_some,
    ← parse_without_blanks, spaced_without_blanks hblanks, parse_tree false (tree_leaves numbers v)]
  exact value_tree v h

/-! ### Texts with one value -/

/-- A piece of a text beside the piece that `json.dumps` writes in its place. -/
inductive Same : Piece → Piece → Prop where
  | punct (a : Punct) : Same (.punct a) (.punct a)
  | word (w w' : List Char) : Same (.word w) (.word w')
  | text {p : Piece} {s : String} (h : readText p = some s) : Same p (quote s)

theorem read_word_value {w : List Char} {v : Json} (h : numbers.readWord w = some v) :
    v.texts = [] ∧ ∃ w', numbers.tree v = .leaf (.word w') := by
  unfold NumberTexts.readWord at h
  split at h
  · cases h
    exact ⟨rfl, _, rfl⟩
  · split at h
    · cases h
      exact ⟨rfl, _, rfl⟩
    · split at h
      · cases h
        exact ⟨rfl, _, rfl⟩
      · obtain ⟨n, _, rfl⟩ := Option.map_eq_some_iff.mp h
        exact ⟨rfl, _, rfl⟩

theorem read_text_quoted {p : Piece} {s : String} (h : readText p = some s) :
    ∃ q body, p = .quoted q body := by
  cases p with
  | blank c => cases h
  | punct a => cases h
  | word w => cases h
  | quoted q body => exact ⟨q, body, rfl⟩

/-- Whether the pieces of a text have as many strings as a value has texts, and then are those
of the value. -/
def Aligned (pieces written : List Piece) (texts : List String) : Prop :=
  texts.length ≤ pieces.countP Piece.isQuoted ∧
    (pieces.countP Piece.isQuoted = texts.length → List.Forall₂ Same pieces written)

theorem Aligned.brackets {pieces written : List Piece} {texts : List String} (a b : Punct)
    (h : Aligned pieces written texts) : Aligned (.punct a :: (pieces ++ [.punct b]))
      (.punct a :: (written ++ [.punct b])) texts := by
  have hcount : (Piece.punct a :: (pieces ++ [.punct b])).countP Piece.isQuoted =
      pieces.countP Piece.isQuoted := by
    rw [List.countP_cons_of_neg Bool.false_ne_true, List.countP_append,
      List.countP_cons_of_neg Bool.false_ne_true]
    rfl
  rw [Aligned, hcount]
  refine ⟨h.1, fun heq => .cons (.punct a) ?_⟩
  exact List.rel_append (h.2 heq) (.cons (.punct b) .nil)

mutual

/-- A text with a value has at least as many strings, and if it has no more, its pieces. -/
theorem aligned_tree : (t : Tree) → ∀ v, numbers.value? t = some v →
    Aligned t.pieces (numbers.tree v).pieces v.texts
  | .leaf (.word w), v, h => by
    obtain ⟨htexts, w', hw'⟩ := read_word_value h
    rw [hw', htexts]
    exact ⟨Nat.zero_le _, fun _ => .cons (.word w w') .nil⟩
  | .leaf (.blank c), v, h => by cases h
  | .leaf (.punct a), v, h => by cases h
  | .leaf (.quoted q body), v, h => by
    obtain ⟨s, hs, rfl⟩ := Option.map_eq_some_iff.mp h
    exact ⟨Nat.le_refl 1, fun _ => .cons (.text hs) .nil⟩
  | .list items, v, h => by
    obtain ⟨vs, hvs, rfl⟩ := Option.map_eq_some_iff.mp h
    exact (aligned_items items vs hvs).brackets .openList .closeList
  | .dict entries, v, h => by
    obtain ⟨fields, hfields, rfl⟩ := Option.map_eq_some_iff.mp h
    obtain ⟨hle, hsame⟩ := aligned_entries entries fields hfields
    obtain ⟨hshort, hset⟩ := Json.set_fields_texts (d := []) (e := fields) List.nodup_nil
    apply Aligned.brackets .openDict .closeDict
    change (Json.fieldTexts (Json.setFields [] fields)).length ≤ _ ∧
      (_ = (Json.fieldTexts (Json.setFields [] fields)).length → _)
    simp only [Json.fieldTexts, List.length_nil, Nat.zero_add, List.nil_append] at hshort hset
    refine ⟨hshort.trans hle, fun heq => ?_⟩
    have hkept := hset (by omega)
    rw [hkept] at heq ⊢
    exact hsame heq

theorem aligned_items : (items : List Tree) → ∀ vs, numbers.values? items = some vs →
    Aligned (itemPieces items) (itemPieces (numbers.itemTrees vs)) (Json.itemTexts vs)
  | [], vs, h => by
    cases h
    exact ⟨Nat.le_refl 0, fun _ => .nil⟩
  | t :: ts, vs, h => by
    obtain ⟨v, hv, hrest⟩ := Option.bind_eq_some_iff.mp h
    obtain ⟨vs', hvs', rfl⟩ := Option.map_eq_some_iff.mp hrest
    obtain ⟨hle, hsame⟩ := aligned_tree t v hv
    obtain ⟨hle', hsame'⟩ := aligned_items ts vs' hvs'
    rw [Aligned, count_item_pieces, Json.itemTexts, List.length_append]
    refine ⟨Nat.add_le_add hle hle', fun heq => ?_⟩
    have hfirst := hsame (by omega)
    have hothers := hsame' (by omega)
    cases ts with
    | nil =>
      cases hvs'
      exact hfirst
    | cons t' ts =>
      obtain ⟨v', _, hrest'⟩ := Option.bind_eq_some_iff.mp hvs'
      obtain ⟨vs'', _, rfl⟩ := Option.map_eq_some_iff.mp hrest'
      exact List.rel_append hfirst (.cons (.punct .comma) hothers)

theorem aligned_entries : (entries : List (Piece × Tree)) → ∀ fields,
    numbers.fields? entries = some fields → Aligned (entryPieces entries)
      (entryPieces (numbers.fieldTrees fields)) (Json.fieldTexts fields)
  | [], fields, h => by
    cases h
    exact ⟨Nat.le_refl 0, fun _ => .nil⟩
  | (key, t) :: entries, fields, h => by
    obtain ⟨k, hk, hrest⟩ := Option.bind_eq_some_iff.mp h
    obtain ⟨v, hv, hrest⟩ := Option.bind_eq_some_iff.mp hrest
    obtain ⟨fields', hfields', rfl⟩ := Option.map_eq_some_iff.mp hrest
    obtain ⟨hle, hsame⟩ := aligned_tree t v hv
    obtain ⟨hle', hsame'⟩ := aligned_entries entries fields' hfields'
    obtain ⟨q, body, rfl⟩ := read_text_quoted hk
    have hcount := count_entry_pieces (.quoted q body) t entries
    change _ = 1 + _ at hcount
    rw [Aligned, hcount, Json.fieldTexts, List.length_cons, List.length_append]
    refine ⟨by omega, fun heq => ?_⟩
    have hfirst := hsame (by omega)
    have hothers := hsame' (by omega)
    cases entries with
    | nil =>
      cases hfields'
      exact .cons (.text hk) (.cons (.punct .colon) hfirst)
    | cons e entries =>
      obtain ⟨k', _, hrest'⟩ := Option.bind_eq_some_iff.mp hfields'
      obtain ⟨v', _, hrest'⟩ := Option.bind_eq_some_iff.mp hrest'
      obtain ⟨fields'', _, rfl⟩ := Option.map_eq_some_iff.mp hrest'
      exact .cons (.text hk) (.cons (.punct .colon)
        (List.rel_append hfirst (.cons (.punct .comma) hothers)))

end

end CheshireCat.Base
