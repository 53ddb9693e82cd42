import CheshireCat.Agents.ProceduresAgent
import CheshireCat.Base.Lines
import CheshireCat.Documents.Upload
import CheshireCat.Utils.VerbalTimedelta

namespace CheshireCat.Agents
open Base Json Utils Documents

/-! ### The blocks of the prompt -/

/-- `page_content.replace("\n", ". ")` -/
def oneLine (content : String) : List Char := replaceAll ['\n'] ['.', ' '] content.toList

def memoriesSeparator : List Char := "\n  - ".toList

def memoryContent (heading : String) (memoryTexts : List (List Char)) : List Char :=
  if memoryTexts.length = 0 then []
  else heading.toList ++ memoriesSeparator ++ memoriesSeparator.intercalate memoryTexts

def episodicHeading : String := "## Context of things the Human said in the past: "

def declarativeHeading : String := "## Context of documents containing relevant information: "

/-- `timedelta(seconds=time.time() - timestamp)`, in the iteration with that number. -/
abbrev Elapsed := Nat → Json → Except String Timedelta

def openBracket : List Char := " (".toList

def memoryTimestamp (elapsed : Elapsed) (i : Nat) (m : Document) : Except String (List Char) := do
  let timestamp ← metadataField m.metadata "when"
  let delta ← elapsed i timestamp
  pure (openBracket ++ verbalTimedelta delta ++ [')'])

def agentPromptEpisodicMemories (elapsed : Elapsed) (memoryDocs : List Document) :
    Except String (List Char) := do
  let memoryTexts := memoryDocs.map (fun m => oneLine m.pageContent)
  let memoryTimestamps ← memoryDocs.zipIdx.mapM (fun m => memoryTimestamp elapsed m.2 m.1)
  pure (memoryContent episodicHeading (List.zipWith (· ++ ·) memoryTexts memoryTimestamps))

def extractedFrom : List Char := " (extracted from ".toList

/-- `str` is that of the interpreter. -/
def memorySource (str : Json → List Char) (m : Document) : Except String (List Char) := do
  let source ← metadataField m.metadata "source"
  pure (extractedFrom ++ str source ++ [')'])

def agentPromptDeclarativeMemories (str : Json → List Char) (memoryDocs : List Document) :
    Except String (List Char) := do
  let memoryTexts := memoryDocs.map (fun m => oneLine m.pageContent)
  let memorySources ← memoryDocs.mapM (memorySource str)
  pure (memoryContent declarativeHeading (List.zipWith (· ++ ·) memoryTexts memorySources))

/-! ### Reading a block -/

/-- The items of a list, one on each line after the heading. -/
def readItems (block : List Char) : List (List Char) := (block.splitOn '\n').tail.map (List.drop 4)

/-- The text, and what stands after the last marker up to the closing bracket. -/
def readItem (marker item : List Char) : Option (List Char × List Char) :=
  (splitLast marker item).map (fun p => (p.1, p.2.dropLast))

/-- What each item says, and nothing where it cannot be read. -/
def readEpisodic (block : List Char) : List (Option (List Char × Age)) :=
  (readItems block).map (fun item => (readItem openBracket item).bind (fun p =>
    (readAge p.2).map (p.1, ·)))

def readDeclarative (block : List Char) : List (Option (List Char × List Char)) :=
  (readItems block).map (readItem extractedFrom)

/-- A memory and what the block tells of it: its text in one line, and its age. -/
def TellsEpisodic (elapsed : Elapsed) (m : Document × Nat) (told : List Char × Age) : Prop :=
  told.1 = oneLine m.1.pageContent ∧ ∃ timestamp delta,
    field? m.1.metadata "when" = some timestamp ∧ elapsed m.2 timestamp = .ok delta ∧ told.2.Tells delta

def TellsDeclarative (str : Json → List Char) (m : Document) (told : List Char × List Char) : Prop :=
  told.1 = oneLine m.pageContent ∧ ∃ source,
    field? m.metadata "source" = some source ∧ told.2 = str source

/-- A source that is not taken for a part of the block. -/
def Distinct (source : List Char) : Prop := '\n' ∉ source ∧ ¬ extractedFrom <:+: ' ' :: source

instance (source : List Char) : Decidable (Distinct source) := inferInstanceAs (Decidable (_ ∧ _))

theorem one_line_without_break (content : String) : '\n' ∉ oneLine content := by
  have hreplaced : ∀ text : List Char, '\n' ∉ replaceAll ['\n'] ['.', ' '] text := by
    intro text
    induction text with
    | nil => simp
    | cons c text ih =>
      by_cases hc : c = '\n'
      · subst hc
        have hfound : replaceAll ['\n'] ['.', ' '] ('\n' :: text) = _ :=
          replace_match (List.cons_ne_nil '\n' []) text
        simp [hfound, ih]
      · rw [replace_step (by simpa [List.cons_prefix_cons] using Ne.symm hc)]
        simp [ih, Ne.symm hc]
  exact hreplaced content.toList

/-! ### The items of a block -/

theorem memory_content_lines (heading : String) (item : List Char) (items : List (List Char)) :
    memoryContent heading (item :: items) =
      heading.toList ++ (item :: items).flatMap (fun i => '\n' :: ("  - ".toList ++ i)) := by
  have hsep : memoriesSeparator = '\n' :: "  - ".toList := rfl
  have hjoin : ∀ (first : List Char) (rest : List (List Char)),
      memoriesSeparator ++ memoriesSeparator.intercalate (first :: rest) =
        (first :: rest).flatMap (fun i => '\n' :: ("  - ".toList ++ i)) := by
    intro first rest
    induction rest generalizing first with
    | nil => simp [hsep]
    | cons next rest ih =>
      have hnext := ih next
      rw [List.intercalate_cons_cons, List.flatMap_cons, ← hnext, hsep]
      simp
  rw [memoryContent, if_neg (by simp), List.append_assoc, hjoin]

/-- The items that are read are the lines of the items. -/
theorem read_memory_content {heading : String} (hheading : '\n' ∉ heading.toList)
    (items : List (List Char)) :
    readItems (memoryContent heading items) =
      ((items.map ("  - ".toList ++ ·)).flatMap (·.splitOn '\n')).map (List.drop 4) := by
  cases items with
  | nil => rfl
  | cons item items =>
    have hlines := lines_of_items '\n' heading.toList ((item :: items).map ("  - ".toList ++ ·))
    rw [List.flatMap_map] at hlines
    rw [memory_content_lines, readItems, hlines, List.splitOn_eq_singleton hheading,
      List.singleton_append, List.tail_cons]

theorem mark_without_break {item : List Char} : '\n' ∈ "  - ".toList ++ item ↔ '\n' ∈ item := by
  simp

/-- Items without line breaks are read as they are. -/
theorem read_items {heading : String} (hheading : '\n' ∉ heading.toList) {items : List (List Char)}
    (hitems : ∀ item ∈ items, '\n' ∉ item) : readItems (memoryContent heading items) = items := by
  have hmarked : ∀ text ∈ items.map ("  - ".toList ++ ·), '\n' ∉ text := by
    intro text htext
    obtain ⟨item, hitem, rfl⟩ := List.mem_map.mp htext
    exact fun h => hitems item hitem (mark_without_break.mp h)
  rw [read_memory_content hheading, lines_of_texts hmarked, List.map_map]
  exact List.map_id' items

/-- As many items are read as were written exactly where no item has a line break. -/
theorem read_items_length {heading : String} (hheading : '\n' ∉ heading.toList)
    (items : List (List Char)) :
    (readItems (memoryContent heading items)).length = items.length ↔
      ∀ item ∈ items, '\n' ∉ item := by
  have hcount := lines_of_texts_iff '\n' (items.map ("  - ".toList ++ ·))
  rw [List.length_map, List.forall_mem_map] at hcount
  rw [read_memory_content hheading, List.length_map, hcount]
  exact forall₂_congr (fun item _ => not_congr mark_without_break)

/-- An item is read as it was put together exactly where the marker is not met again. -/
theorem read_item_iff {marker : List Char} (hne : marker ≠ []) (text told : List Char) :
    readItem marker (text ++ (marker ++ (told ++ [')']))) = some (text, told) ↔
      ¬ marker <:+: marker.tail ++ (told ++ [')']) := by
  rw [← split_last_iff hne text, readItem, Option.map_eq_some_iff]
  constructor
  · rintro ⟨⟨before, after⟩, hsplit, heq⟩
    obtain ⟨rfl, -⟩ := Prod.mk.inj heq
    have hjoins := split_last_joins hsplit
    rw [List.append_cancel_left_eq, List.append_cancel_left_eq] at hjoins
    rw [hsplit]
    exact congrArg some (Prod.ext rfl hjoins)
  · intro hsplit
    exact ⟨_, hsplit, by simp⟩

theorem episodic_marker_once {told : List Char} (h : '(' ∉ told) :
    ¬ openBracket <:+: openBracket.tail ++ (told ++ [')']) := by
  intro hinfix
  have hnot : ¬ openBracket <+: '(' :: (told ++ [')']) := by
    intro hprefix
    exact absurd (List.cons_prefix_cons.mp hprefix).1 (by decide)
  have hlater := (List.infix_cons_iff.mp hinfix).resolve_left hnot
  have hmem : '(' ∈ told ++ [')'] := hlater.subset (by decide)
  simp [h] at hmem

/-- The marker is met again in what follows it exactly where the source has it, or completes it. -/
theorem declarative_marker_iff (source : List Char) :
    extractedFrom <:+: extractedFrom.tail ++ (source ++ [')']) ↔ extractedFrom <:+: ' ' :: source := by
  have hskip {c : Char} {rest : List Char} (hc : c ≠ ' ') :
      extractedFrom <:+: c :: rest ↔ extractedFrom <:+: rest := by
    rw [List.infix_cons_iff, or_iff_right]
    intro hprefix
    exact hc (List.cons_prefix_cons.mp hprefix).1.symm
  have hfrom {rest : List Char} : extractedFrom <:+: ' ' :: 'f' :: rest ↔ extractedFrom <:+: rest := by
    rw [List.infix_cons_iff, or_iff_right, hskip (by decide)]
    intro hprefix
    exact absurd (List.cons_prefix_cons.mp (List.cons_prefix_cons.mp hprefix).2).1 (by decide)
  have hhead : extractedFrom <:+: extractedFrom.tail ++ (source ++ [')']) ↔
      extractedFrom <:+: ' ' :: (source ++ [')']) := by
    have htail : extractedFrom.tail ++ (source ++ [')']) =
        '(' :: 'e' :: 'x' :: 't' :: 'r' :: 'a' :: 'c' :: 't' :: 'e' :: 'd' :: ' ' :: 'f' :: 'r' :: 'o' :: 'm' ::
          ' ' :: (source ++ [')']) := rfl
    simp only [htail, hfrom, hskip, ne_eq, Char.reduceEq, not_false_eq_true]
  -- The bracket that closes the item is no part of the marker.
  rw [hhead, ← List.cons_append]
  have hlast : ∀ c ∈ extractedFrom.getLast?, c ≠ ')' := by
    intro c hc
    have hblank : extractedFrom.getLast? = some ' ' := rfl
    rw [hblank] at hc
    cases hc
    decide
  exact infix_concat_iff hlast (List.cons_ne_nil _ _)

/-- What an iteration over the documents gives of each. -/
theorem mapM_tells {α β : Type} {f : α → Except String β} {l : List α} {results : List β}
    (h : l.mapM f = .ok results) : List.Forall₂ (fun a b => f a = .ok b) l results := by
  induction l generalizing results with
  | nil =>
    cases h
    exact .nil
  | cons a l ih =>
    rw [List.mapM_cons] at h
    cases ha : f a with
    | error error =>
      rw [ha] at h
      cases h
    | ok b =>
      cases hl : l.mapM f with
      | error error =>
        rw [ha, hl] at h
        cases h
      | ok rest =>
        rw [ha, hl] at h
        cases h
        exact .cons ha (ih hl)

/-- The texts, each followed by what its iteration gave, are the items of what they tell. -/
theorem zip_told {α β : Type} {R : α → β → Prop} {text : α → List Char} {item : β → List Char} {l : List α}
    {results : List (List Char)} (h : List.Forall₂ (fun a r => ∃ b, R a b ∧ text a ++ r = item b) l results) :
    ∃ told, List.Forall₂ R l told ∧ List.zipWith (· ++ ·) (l.map text) results = told.map item := by
  induction h with
  | nil => exact ⟨[], .nil, rfl⟩
  | cons ha _ ih =>
    obtain ⟨b, hb, hitem⟩ := ha
    obtain ⟨told, htells, hrest⟩ := ih
    refine ⟨b :: told, .cons hb htells, ?_⟩
    rw [List.map_cons, List.map_cons, List.zipWith_cons_cons, hitem, hrest]

theorem exists_told {α β : Type} {R : α → β → Prop} {l : List α} {told : List β}
    (h : List.Forall₂ R l told) {b : β} (hb : b ∈ told) : ∃ a ∈ l, R a b := by
  induction h with
  | nil => cases hb
  | cons ha _ ih =>
    rcases List.mem_cons.mp hb with rfl | hb
    · exact ⟨_, List.mem_cons_self, ha⟩
    · obtain ⟨a, hmem, ha⟩ := ih hb
      exact ⟨a, List.mem_cons_of_mem _ hmem, ha⟩

/-! ### Round trips -/

def episodicItem (told : List Char × Age) : List Char :=
  told.1 ++ (openBracket ++ (told.2.text ++ [')']))

def declarativeItem (told : List Char × List Char) : List Char :=
  told.1 ++ (extractedFrom ++ (told.2 ++ [')']))

theorem timestamp_tells {elapsed : Elapsed} {m : Document × Nat} {timestamp : List Char}
    (h : memoryTimestamp elapsed m.2 m.1 = .ok timestamp) :
    ∃ told, TellsEpisodic elapsed m told ∧ oneLine m.1.pageContent ++ timestamp = episodicItem told := by
  unfold memoryTimestamp metadataField at h
  cases hwhen : field? m.1.metadata "when" with
  | none =>
    rw [hwhen] at h
    cases h
  | some v =>
    rw [hwhen] at h
    cases hdelta : elapsed m.2 v with
    | error error =>
      simp only [hdelta, Except.bind, bind] at h
      cases h
    | ok delta =>
      simp only [hdelta, Except.bind, bind] at h
      cases h
      obtain ⟨age, htext, htells⟩ := verbal_tells delta
      refine ⟨(oneLine m.1.pageContent, age), ⟨rfl, v, delta, hwhen, hdelta, htells⟩, ?_⟩
      rw [htext, episodicItem, List.append_assoc]

theorem source_tells {str : Json → List Char} {m : Document} {source : List Char}
    (h : memorySource str m = .ok source) :
    ∃ told, TellsDeclarative str m told ∧ oneLine m.pageContent ++ source = declarativeItem told := by
  unfold memorySource metadataField at h
  cases hsource : field? m.metadata "source" with
  | none =>
    rw [hsource] at h
    cases h
  | some v =>
    rw [hsource] at h
    cases h
    refine ⟨(oneLine m.pageContent, str v), ⟨rfl, v, hsource, rfl⟩, ?_⟩
    rw [declarativeItem, List.append_assoc]

theorem TellsEpisodic.without_break {elapsed : Elapsed} {m : Document × Nat} {told : List Char × Age}
    (h : TellsEpisodic elapsed m told) : '\n' ∉ episodicItem told := by
  have hage : '\n' ∉ told.2.text := age_text_without (by decide) (by decide) (by decide) (by decide) _
  have htext := one_line_without_break m.1.pageContent
  have hmark : '\n' ∉ openBracket := by decide
  simp [episodicItem, h.1, hage, htext, hmark]

/-- The block of the episodic memories is read back, whatever they say: each memory in its order,
its text in one line, and its age rounded down to the unit that is told. -/
theorem episodic_block_read {elapsed : Elapsed} {memoryDocs : List Document} {block : List Char}
    (h : agentPromptEpisodicMemories elapsed memoryDocs = .ok block) :
    ∃ told, List.Forall₂ (TellsEpisodic elapsed) memoryDocs.zipIdx told ∧
      readEpisodic block = told.map some := by
  unfold agentPromptEpisodicMemories at h
  cases hresults : memoryDocs.zipIdx.mapM (fun m => memoryTimestamp elapsed m.2 m.1) with
  | error error =>
    rw [hresults] at h
    cases h
  | ok results =>
    rw [hresults] at h
    obtain rfl := Except.ok.inj h
    obtain ⟨told, htells, hitems⟩ := zip_told ((mapM_tells hresults).imp (fun _ _ => timestamp_tells))
    refine ⟨told, htells, ?_⟩
    have htexts : memoryDocs.map (fun m => oneLine m.pageContent) =
        memoryDocs.zipIdx.map (fun m => oneLine m.1.pageContent) := by
      conv_lhs => rw [← List.zipIdx_map_fst 0 memoryDocs, List.map_map]
      rfl
    have hbreak : ∀ item ∈ told.map episodicItem, '\n' ∉ item := by
      intro item hitem
      obtain ⟨p, hp, rfl⟩ := List.mem_map.mp hitem
      obtain ⟨m, _, hm⟩ := exists_told htells hp
      exact hm.without_break
    rw [htexts, hitems, readEpisodic, read_items (by decide) hbreak, List.map_map]
    apply List.map_congr_left
    intro p _
    have hage : '(' ∉ p.2.text := age_text_without (by decide) (by decide) (by decide) (by decide) _
    have hread : readItem openBracket (episodicItem p) = some (p.1, p.2.text) :=
      (read_item_iff (by decide) p.1 p.2.text).mpr (episodic_marker_once hage)
    simp [hread, read_age_text]

def twoMinutes : Elapsed := fun _ _ => .ok ⟨120000000⟩

def said : List Document := [⟨"Hi (1 hours ago)\nCat", [("when", .number (.int 0))]⟩]

/-- What is said cannot pass for an age. -/
theorem said_read : ∃ told, List.Forall₂ (TellsEpisodic twoMinutes) said.zipIdx told ∧
    readEpisodic (episodicHeading ++ "\n  - Hi (1 hours ago). Cat (2 minutes ago)").toList = told.map some :=
  episodic_block_read (by decide +kernel)

/-- The block of the declarative memories is read back exactly where no source is taken for a part
of the block. -/
theorem declarative_block_read {str : Json → List Char} {memoryDocs : List Document}
    {block : List Char} (h : agentPromptDeclarativeMemories str memoryDocs = .ok block) :
    ∃ told, List.Forall₂ (TellsDeclarative str) memoryDocs told ∧
      (readDeclarative block = told.map some ↔ ∀ p ∈ told, Distinct p.2) := by
  unfold agentPromptDeclarativeMemories at h
  cases hresults : memoryDocs.mapM (memorySource str) with
  | error error =>
    rw [hresults] at h
    cases h
  | ok results =>
    rw [hresults] at h
    obtain rfl := Except.ok.inj h
    obtain ⟨told, htells, hitems⟩ := zip_told ((mapM_tells hresults).imp (fun _ _ => source_tells))
    refine ⟨told, htells, ?_⟩
    have hbreak : ∀ p ∈ told, ('\n' ∈ declarativeItem p ↔ '\n' ∈ p.2) := by
      intro p hp
      obtain ⟨m, _, hm⟩ := exists_told htells hp
      have htext := one_line_without_break m.pageContent
      have hmark : '\n' ∉ extractedFrom := by decide
      simp [declarativeItem, hm.1, htext, hmark]
    have hread : ∀ p : List Char × List Char, readItem extractedFrom (declarativeItem p) = some p ↔
        ¬ extractedFrom <:+: ' ' :: p.2 := by
      intro p
      rw [← declarative_marker_iff]
      exact read_item_iff (by decide) p.1 p.2
    rw [hitems, readDeclarative]
    constructor
    · intro hsame
      have hlen : (readItems (memoryContent declarativeHeading (told.map declarativeItem))).length =
          (told.map declarativeItem).length := by
        have := congrArg List.length hsame
        simpa using this
      have hno : ∀ item ∈ told.map declarativeItem, '\n' ∉ item :=
        (read_items_length (by decide) _).mp hlen
      rw [read_items (by decide) hno, List.map_map, List.map_inj_left] at hsame
      intro p hp
      exact ⟨fun h => hno _ (List.mem_map_of_mem hp) ((hbreak p hp).mpr h), (hread p).mp (hsame p hp)⟩
    · intro hdistinct
      have hno : ∀ item ∈ told.map declarativeItem, '\n' ∉ item := by
        intro item hitem
        obtain ⟨p, hp, rfl⟩ := List.mem_map.mp hitem
        exact fun h => (hdistinct p hp).1 ((hbreak p hp).mp h)
      rw [read_items (by decide) hno, List.map_map]
      apply List.map_congr_left
      intro p hp
      exact (hread p).mpr (hdistinct p hp).2

def texts : Json → List Char
  | .str s => s.toList
  | _ => []

def page : Document := ⟨"A (extracted from b) c", [("source", .str "d.txt")]⟩

theorem page_read : ∃ told, List.Forall₂ (TellsDeclarative texts) [page] told ∧
    (readDeclarative (declarativeHeading ++ "\n  - A (extracted from b) c (extracted from d.txt)").toList =
      told.map some ↔ ∀ p ∈ told, Distinct p.2) :=
  declarative_block_read (by decide +kernel)

end CheshireCat.Agents
