import CheshireCat.Base.Markup
import Mathlib.Data.List.Dedup

namespace CheshireCat.Utils
open Base Base.Markup

variable {V : Type}

/-- The `input_variables` of a prompt template, and nothing where it cannot be parsed. -/
def inputVariables (template : List Char) : Option (List (List Char)) := (parse template).map names

/-- An order in which the set of the mismatches is gone through. -/
structure Mismatches (promptVariables : Dict (List Char) V) (inputs order : List (List Char)) : Prop where
  nodup : order.Nodup
  mem : ∀ m, m ∈ order ↔ (m ∈ promptVariables.keys ∧ m ∉ inputs) ∨ (m ∈ inputs ∧ m ∉ promptVariables.keys)

def cleanUp (inputs : List (List Char)) (state : Dict (List Char) V × List Char) (m : List Char) :
    Dict (List Char) V × List Char :=
  (if m ∈ state.1.keys then state.1.erase m else state.1,
    if m ∈ inputs then replaceAll (plain m).text [] state.2 else state.2)

def matchPromptVariables (promptMismatches : List (List Char)) (promptVariables : Dict (List Char) V)
    (promptTemplate : List Char) : Option (Dict (List Char) V × List Char) :=
  (inputVariables promptTemplate).map (fun inputs =>
    promptMismatches.foldl (cleanUp inputs) (promptVariables, promptTemplate))

/-! ### Agreement -/

variable (f : Values V) (promptVariables : Dict (List Char) V)

def unmatched (parts : List Part) : List (List Char) :=
  (names parts).filter (fun n => n ∉ promptVariables.keys)

def matched (parts : List Part) : Dict (List Char) V :=
  promptVariables.restrict (fun n => n ∈ names parts)

/-- The text of a field, where the unmatched placeholders are the empty string. -/
def emptied (field : Field) : Option (List Char) :=
  if field.name ∈ promptVariables.keys then
    f.formatField promptVariables (f.vformat promptVariables 2) field
  else some []

/-- In whatever order the mismatches are gone through, the placeholders of the template are the
variables, those that both had, and its rendering is that of the original one. -/
def Agree (template : List Char) (parts : List Part) : Prop :=
  ∀ order, Mismatches promptVariables (names parts) order →
    ∃ promptVariables' template' parts' text,
      matchPromptVariables order promptVariables template = some (promptVariables', template') ∧
      parse template' = some parts' ∧
      (∀ n, n ∈ promptVariables'.keys ↔ n ∈ promptVariables.keys ∧ n ∈ names parts) ∧
      (∀ n, n ∈ names parts' ↔ n ∈ promptVariables.keys ∧ n ∈ names parts) ∧
      f.vformat promptVariables' 3 template' = some text ∧
      formatParts (emptied f promptVariables) parts = some text

/-- The unmatched placeholders are plain ones whose text is met nowhere else, whichever of them are
gone already, and the matched ones are rendered with the matched variables. -/
structure Removable (parts : List Part) : Prop where
  unmatched_plain : ∀ field, .field field ∈ parts → field.name ∉ promptVariables.keys →
    field = plain field.name
  placed : ∀ gone m, gone ⊆ unmatched promptVariables parts → m ∈ unmatched promptVariables parts →
    m ∉ gone → OnlyPlaced m (without gone parts)
  rendered : ∀ field, .field field ∈ parts → field.name ∈ promptVariables.keys →
    f.formatField (matched promptVariables parts) (f.vformat (matched promptVariables parts) 2) field ≠
      none

/-! ### The loop -/

def removeAll (gone : List (List Char)) (text : List Char) : List Char :=
  gone.foldl (fun text m => replaceAll (plain m).text [] text) text

theorem clean_up_apart (inputs order : List (List Char)) (template : List Char) :
    order.foldl (cleanUp inputs) (promptVariables, template) =
      (order.foldl Dict.erase promptVariables, removeAll (order.filter (fun m => m ∈ inputs)) template) := by
  induction order generalizing promptVariables template with
  | nil => rfl
  | cons m order ih =>
    have herase : (if m ∈ promptVariables.keys then promptVariables.erase m else promptVariables) = promptVariables.erase m := by
      split
      · rfl
      · rename_i habsent
        exact (promptVariables.erase_absent habsent).symm
    rw [List.foldl_cons, cleanUp, ih, herase, List.foldl_cons, List.filter_cons]
    by_cases hm : m ∈ inputs
    · rw [if_pos hm, if_pos (decide_eq_true hm)]
      rfl
    · rw [if_neg hm, if_neg (by rw [decide_eq_true_eq]; exact hm)]

theorem get_erase_all (order : List (List Char)) (k : List Char) :
    (order.foldl Dict.erase promptVariables).get? k = if k ∈ order then none else promptVariables.get? k := by
  induction order generalizing promptVariables with
  | nil => rfl
  | cons m order ih =>
    rw [List.foldl_cons, ih, Dict.get?_erase]
    by_cases hk : k ∈ order
    · rw [if_pos hk, if_pos (List.mem_cons_of_mem m hk)]
    · rw [if_neg hk]
      by_cases hkm : k = m
      · rw [if_pos hkm, if_pos (List.mem_cons.mpr (Or.inl hkm))]
      · rw [if_neg hkm, if_neg (fun h => (List.mem_cons.mp h).elim hkm hk)]

variable {promptVariables} {parts : List Part} {order : List (List Char)}

/-- The variables that are left are those that are placeholders, with their values. -/
theorem get_left (h : Mismatches promptVariables (names parts) order) (k : List Char) :
    (order.foldl Dict.erase promptVariables).get? k =
      (matched promptVariables parts).get? k := by
  rw [get_erase_all, matched, Dict.get?_restrict]
  by_cases hkey : k ∈ promptVariables.keys
  · by_cases hname : k ∈ names parts
    · rw [if_neg, if_pos (decide_eq_true hname)]
      intro hk
      rcases (h.mem k).mp hk with ⟨_, hno⟩ | ⟨_, hno⟩
      · exact hno hname
      · exact hno hkey
    · rw [if_pos ((h.mem k).mpr (Or.inl ⟨hkey, hname⟩)), if_neg]
      rw [decide_eq_true_eq]
      exact hname
  · have hnone : promptVariables.get? k = none := by
      cases hget : promptVariables.get? k with
      | none => rfl
      | some v => exact absurd ((promptVariables.mem_keys_iff k).mpr ⟨v, hget⟩) hkey
    rw [hnone, ite_self, ite_self]

theorem keys_left (h : Mismatches promptVariables (names parts) order) (n : List Char) :
    n ∈ (order.foldl Dict.erase promptVariables).keys ↔ n ∈ promptVariables.keys ∧ n ∈ names parts := by
  rw [Dict.mem_keys_iff, Dict.mem_keys_iff]
  constructor
  · rintro ⟨v, hv⟩
    rw [get_left h, matched, Dict.get?_restrict] at hv
    split_ifs at hv with hname
    exact ⟨⟨v, hv⟩, of_decide_eq_true hname⟩
  · rintro ⟨⟨v, hv⟩, hname⟩
    refine ⟨v, ?_⟩
    rw [get_left h, matched, Dict.get?_restrict, if_pos (decide_eq_true hname)]
    exact hv

/-- The names that are removed are the unmatched ones. -/
theorem mem_removed (h : Mismatches promptVariables (names parts) order) (m : List Char) :
    m ∈ order.filter (fun m => m ∈ names parts) ↔ m ∈ unmatched promptVariables parts := by
  rw [List.mem_filter, h.mem, decide_eq_true_eq, unmatched, List.mem_filter, decide_eq_true_eq]
  constructor
  · rintro ⟨⟨_, hno⟩ | ⟨_, hkey⟩, hname⟩
    · exact absurd hname hno
    · exact ⟨hname, hkey⟩
  · rintro ⟨hname, hkey⟩
    exact ⟨Or.inr ⟨hname, hkey⟩, hname⟩

theorem match_removes {template : List Char} (hparse : parse template = some parts) :
    matchPromptVariables order promptVariables template =
      some (order.foldl Dict.erase promptVariables,
        removeAll (order.filter (fun m => m ∈ names parts)) (textOf parts)) := by
  rw [matchPromptVariables, inputVariables, hparse, Option.map_some, Option.map_some, clean_up_apart,
    (parse_text hparse).1]

/-- A name of a part is that of a field, and the plain field of the name is read as itself. -/
theorem unmatched_closed (hclosed : ∀ p ∈ parts, Closed p) {m : List Char}
    (hm : m ∈ unmatched promptVariables parts) : Closed (.field (plain m)) := by
  obtain ⟨field, hfield, rfl⟩ := mem_names.mp (List.mem_of_mem_filter hm)
  have hrun := (hclosed _ hfield).named field rfl
  refine ⟨hrun, ?_⟩
  intro field' heq
  cases heq
  exact hrun

theorem without_same {gone gone' : List (List Char)} (h : ∀ m, m ∈ gone ↔ m ∈ gone') :
    without gone parts = without gone' parts := by
  apply List.filter_congr
  intro p _
  rw [Bool.eq_iff_iff, decide_eq_true_eq, decide_eq_true_eq]
  exact ⟨fun hp m hm => hp m ((h m).mpr hm), fun hp m hm => hp m ((h m).mp hm)⟩

variable {f}

theorem remove_placed (hparts : Removable f promptVariables parts) {gone more : List (List Char)}
    (hgone : gone ⊆ unmatched promptVariables parts) (hmore : more ⊆ unmatched promptVariables parts)
    (hnodup : (gone ++ more).Nodup) :
    removeAll more (textOf (without gone parts)) = textOf (without (gone ++ more) parts) := by
  induction more generalizing gone with
  | nil => rw [List.append_nil]; rfl
  | cons m more ih =>
    have hm : m ∈ unmatched promptVariables parts := hmore List.mem_cons_self
    have hno : m ∉ gone := fun hmem =>
      (List.nodup_append.mp hnodup).2.2 m hmem m List.mem_cons_self rfl
    have happend : gone ++ m :: more = gone ++ [m] ++ more := List.append_cons gone m more
    rw [happend] at hnodup ⊢
    rw [← ih _ (fun x hx => hmore (List.mem_cons_of_mem m hx)) hnodup, removeAll, List.foldl_cons,
      replace_placed (hparts.placed gone m hgone hm hno), without_without]
    · rfl
    · intro x hx
      rcases List.mem_append.mp hx with hx | hx
      · exact hgone hx
      · rw [List.mem_singleton.mp hx]
        exact hm

/-- The unmatched placeholders are as good as removed. -/
theorem emptied_without (hplain : ∀ field, .field field ∈ parts → field.name ∉ promptVariables.keys →
      field = plain field.name) {gone : List (List Char)}
    (hgone : ∀ m, m ∈ gone ↔ m ∈ unmatched promptVariables parts) :
    formatParts (emptied f promptVariables) parts =
      formatParts (f.formatField promptVariables (f.vformat promptVariables 2)) (without gone parts) := by
  apply format_without
  · intro field _ hfield
    obtain ⟨m, hm, rfl⟩ := List.mem_map.mp hfield
    have hno := of_decide_eq_true (List.mem_filter.mp ((hgone m).mp hm)).2
    exact if_neg hno
  · intro field hfield hno
    apply if_pos
    by_contra hkey
    apply hno
    rw [hplain field hfield hkey]
    refine List.mem_map_of_mem ((hgone _).mpr (List.mem_filter.mpr ⟨?_, decide_eq_true hkey⟩))
    exact mem_names.mpr ⟨field, hfield, rfl⟩

theorem format_some {g : Field → Option (List Char)} (h : ∀ field, .field field ∈ parts → g field ≠ none) :
    ∃ text, formatParts g parts = some text := by
  induction parts with
  | nil => exact ⟨[], rfl⟩
  | cons p parts ih =>
    obtain ⟨text, htext⟩ := ih (fun field hfield => h field (List.mem_cons_of_mem p hfield))
    cases p with
    | char c => exact ⟨c :: text, by rw [formatParts, htext]; rfl⟩
    | field field =>
      obtain ⟨first, hfirst⟩ := Option.ne_none_iff_exists'.mp (h field List.mem_cons_self)
      exact ⟨first ++ text, by rw [formatParts, hfirst, htext]; rfl⟩

theorem matched_more (k : List Char) (v : V) (h : (matched promptVariables parts).get? k = some v) :
    promptVariables.get? k = some v := by
  rw [matched, Dict.get?_restrict] at h
  split_ifs at h
  exact h

theorem removable_agree {template : List Char} (hparse : parse template = some parts)
    (hparts : Removable f promptVariables parts) : Agree f promptVariables template parts := by
  intro order horder
  have hremoved := mem_removed horder
  generalize hgone : order.filter (fun m => m ∈ names parts) = gone at hremoved
  have htemplate : removeAll gone (textOf parts) = textOf (without gone parts) := by
    have hnone : without [] parts = parts := List.filter_eq_self.mpr (fun _ _ => by simp)
    have hnodup : ([] ++ gone).Nodup := by
      rw [← hgone]
      exact horder.nodup.filter _
    have hrun := remove_placed hparts (List.nil_subset _) (fun m hm => (hremoved m).mp hm) hnodup
    rw [hnone] at hrun
    exact hrun
  have hclosed : ∀ p ∈ without gone parts, Closed p :=
    fun p hp => (parse_text hparse).2 p (mem_without.mp hp).1
  have hnames (field : Field) : .field field ∈ without gone parts ↔
      .field field ∈ parts ∧ field.name ∈ promptVariables.keys := by
    rw [mem_without]
    constructor
    · rintro ⟨hfield, hno⟩
      refine ⟨hfield, ?_⟩
      by_contra hkey
      apply hno field.name ((hremoved _).mpr (List.mem_filter.mpr
        ⟨mem_names.mpr ⟨field, hfield, rfl⟩, decide_eq_true hkey⟩))
      rw [← hparts.unmatched_plain field hfield hkey]
    · rintro ⟨hfield, hkey⟩
      refine ⟨hfield, ?_⟩
      intro m hm heq
      cases heq
      exact of_decide_eq_true (List.mem_filter.mp ((hremoved m).mp hm)).2 hkey
  obtain ⟨text, htext⟩ := format_some (fun field hfield =>
    hparts.rendered field ((hnames field).mp hfield).1 ((hnames field).mp hfield).2)
  refine ⟨_, _, without gone parts, text, match_removes hparse, ?_, keys_left horder, ?_, ?_, ?_⟩
  · rw [hgone, htemplate]
    exact parse_parts hclosed
  · intro n
    rw [mem_names, mem_names]
    constructor
    · rintro ⟨field, hfield, rfl⟩
      obtain ⟨hfield, hkey⟩ := (hnames field).mp hfield
      exact ⟨hkey, field, hfield, rfl⟩
    · rintro ⟨hkey, field, hfield, rfl⟩
      exact ⟨field, (hnames field).mpr ⟨hfield, hkey⟩, rfl⟩
  · rw [hgone, htemplate, Values.vformat, parse_parts hclosed]
    have hmore (k : List Char) (v : V) (h : (matched promptVariables parts).get? k = some v) :
        (order.foldl Dict.erase promptVariables).get? k = some v := by
      rw [get_left horder]
      exact h
    exact format_grow (fun field text => field_grow f hmore (vformat_grow f hmore 2)) htext
  · rw [emptied_without hparts.unmatched_plain hremoved]
    exact format_grow (fun field text => field_grow f matched_more (vformat_grow f matched_more 2)) htext

/-- Where all placeholders are plain ones that have values, the rendering is the template with the
texts of the values, and nothing in the texts is taken for a placeholder. -/
theorem reads_match {template : List Char} {texts : List Char → List Char}
    (hparse : parse template = some parts) (hreads : f.Reads promptVariables texts parts)
    (horder : Mismatches promptVariables (names parts) order) :
    ∃ promptVariables' template' parts',
      matchPromptVariables order promptVariables template = some (promptVariables', template') ∧
      parse template' = some parts' ∧ (∀ n ∈ names parts', n ∈ promptVariables'.keys) ∧
      f.vformat promptVariables' 3 template' = some (fill texts parts) := by
  have hkeys : ∀ field, .field field ∈ parts → field.name ∈ promptVariables.keys := by
    intro field hfield
    obtain ⟨_, _, v, hv, _⟩ := hreads field hfield
    exact (Dict.mem_keys_iff _ _).mpr ⟨v, hv⟩
  have hnone : ∀ m, m ∉ unmatched promptVariables parts := by
    intro m hm
    obtain ⟨hname, hunmatched⟩ := List.mem_filter.mp hm
    obtain ⟨field, hfield, rfl⟩ := mem_names.mp hname
    exact (of_decide_eq_true hunmatched) (hkeys field hfield)
  have hremovable : Removable f promptVariables parts := by
    refine ⟨fun field hfield hno => absurd (hkeys field hfield) hno,
      fun gone m _ hm => absurd hm (hnone m), ?_⟩
    intro field hfield _
    obtain ⟨hplain, hsimple, v, hv, htext⟩ := hreads field hfield
    have hleft : (matched promptVariables parts).get? field.name = some v := by
      rw [matched, Dict.get?_restrict, if_pos (decide_eq_true (mem_names.mpr ⟨field, hfield, rfl⟩)), hv]
    rw [hplain, format_plain f _ hsimple hleft htext]
    exact Option.some_ne_none _
  obtain ⟨promptVariables', template', parts', text, hmatch, hparse', hkeys', hnames', htext, hrendered⟩ :=
    removable_agree hparse hremovable order horder
  refine ⟨promptVariables', template', parts', hmatch, hparse', ?_, ?_⟩
  · intro n hn
    exact (hkeys' n).mpr ((hnames' n).mp hn)
  · have hfill : formatParts (emptied f promptVariables) parts = some (fill texts parts) := by
      apply format_fill
      intro field hfield
      obtain ⟨hplain, hsimple, v, hv, hvtext⟩ := hreads field hfield
      rw [emptied, if_pos (hkeys field hfield), hplain]
      exact format_plain f promptVariables hsimple hv hvtext 1
    rw [htext, ← hrendered, hfill]

/-! ### Flat templates -/

/-- What removing one name after the other does to a flat template. -/
structure FlatRemoval (gone : List (List Char)) (parts parts' : List Part) : Prop where
  text : removeAll gone (textOf parts) = textOf parts'
  closed : ∀ p ∈ parts', Closed p
  chars_le : chars parts' ≤ chars parts
  fields : (fields parts').filter (fun f => f ≠ plain []) =
    (fields (without gone parts)).filter (fun f => f ≠ plain [])
  placed : chars parts' = chars parts → ∀ before m after, gone = before ++ m :: after →
    OnlyPlaced m (without before parts)

theorem empty_closed : Closed (.field (plain [])) := by
  refine ⟨rfl, ?_⟩
  intro field heq
  cases heq
  rfl

theorem stripped_run (gone : List (List Char)) (hgone : ∀ m ∈ gone, Bare m ∧ Closed (.field (plain m)))
    (hclosed : ∀ p ∈ parts, Closed p) (hflat : Flat parts) : ∃ parts', FlatRemoval gone parts parts' := by
  have hnone (parts : List Part) : without [] parts = parts := List.filter_eq_self.mpr (fun _ _ => by simp)
  induction gone generalizing parts with
  | nil =>
    refine ⟨parts, rfl, hclosed, Nat.le_refl _, ?_, ?_⟩
    · rw [hnone]
    · intro _ before m after heq
      cases before <;> cases heq
  | cons m gone ih =>
    obtain ⟨hbare, hm⟩ := hgone m List.mem_cons_self
    obtain ⟨middle, hstrips, htext, hplaced⟩ :=
      replace_strips hbare hm parts.length parts (Nat.le_refl _) hclosed hflat
    have hmiddle : ∀ p ∈ middle, Closed p := by
      intro p hp
      rcases mem_strips hstrips hp with hp | rfl
      · exact hclosed p hp
      · exact empty_closed
    have hflat' : Flat middle := by
      intro field hfield
      rcases mem_strips hstrips hfield with hfield | heq
      · exact hflat field hfield
      · cases heq
        decide
    obtain ⟨parts', hrest⟩ := ih (fun n hn => hgone n (List.mem_cons_of_mem m hn)) hmiddle hflat'
    have hle := strips_chars hstrips
    refine ⟨parts', ?_, hrest.closed, Nat.le_trans hrest.chars_le hle, ?_, ?_⟩
    · rw [removeAll, List.foldl_cons, htext]
      exact hrest.text
    · have happend : without (m :: gone) parts = without gone (without [m] parts) :=
        (without_without gone [m] parts).symm
      rw [hrest.fields, happend, fields_without, List.filter_comm, strips_fields hstrips, List.filter_comm,
        ← fields_without]
    · intro hsame before n after heq
      have hsame' : chars parts' = chars middle :=
        Nat.le_antisymm hrest.chars_le (hsame ▸ hle)
      have hkept := strips_placed hstrips (hsame'.symm.trans hsame)
      cases before with
      | nil =>
        cases heq
        rw [hnone]
        exact hplaced (hsame'.symm.trans hsame)
      | cons n' before =>
        obtain ⟨rfl, hrest'⟩ := List.cons.inj heq
        have happend : without (m :: before) parts = without before (without [m] parts) :=
          (without_without before [m] parts).symm
        rw [happend, ← hkept]
        exact hrest.placed hsame' before n after hrest'

/-- Whatever unmatched names come first, the mismatches can be gone through from them on. -/
theorem order_exists {first : List (List Char)} (hnodup : first.Nodup)
    (hfirst : first ⊆ unmatched promptVariables parts) :
    ∃ rest, Mismatches promptVariables (names parts) (first ++ rest) := by
  let all := unmatched promptVariables parts ++ promptVariables.keys.filter (fun n => n ∉ names parts)
  have hall (m : List Char) : m ∈ all ↔ (m ∈ promptVariables.keys ∧ m ∉ names parts) ∨
      (m ∈ names parts ∧ m ∉ promptVariables.keys) := by
    rw [List.mem_append, unmatched, List.mem_filter, List.mem_filter, decide_eq_true_eq, decide_eq_true_eq]
    exact or_comm
  refine ⟨all.dedup.filter (fun m => m ∉ first), ?_, ?_⟩
  · refine List.nodup_append.mpr ⟨hnodup, (List.nodup_dedup all).filter _, ?_⟩
    rintro m hm _ hm' rfl
    exact of_decide_eq_true (List.mem_filter.mp hm').2 hm
  · intro m
    rw [← hall, List.mem_append, List.mem_filter, List.mem_dedup, decide_eq_true_eq]
    constructor
    · rintro (hm | ⟨hm, _⟩)
      · exact List.mem_append_left _ (hfirst hm)
      · exact hm
    · intro hm
      by_cases hfirst' : m ∈ first
      · exact Or.inl hfirst'
      · exact Or.inr ⟨hm, hfirst'⟩

/-- What one order shows of a flat template. -/
theorem agree_order {template : List Char} (hparse : parse template = some parts) (hflat : Flat parts)
    (h : Agree f promptVariables template parts) (horder : Mismatches promptVariables (names parts) order) :
    (∀ field, .field field ∈ parts → field.name ∉ promptVariables.keys → field = plain field.name) ∧
    (∀ before m after, order.filter (fun m => m ∈ names parts) = before ++ m :: after →
      OnlyPlaced m (without before parts)) ∧
    (∀ field, .field field ∈ parts → field.name ∈ promptVariables.keys →
      f.formatField (matched promptVariables parts) (f.vformat (matched promptVariables parts) 2) field ≠
        none) := by
  obtain ⟨variables', template', parts', text, hmatch, hparse', _, hnames, hrender, hemptied⟩ := h order horder
  rw [match_removes hparse] at hmatch
  have hremoved := mem_removed horder
  generalize hgone : order.filter (fun m => m ∈ names parts) = gone at hmatch hremoved
  obtain ⟨hvariables, htemplate⟩ := Prod.mk.inj (Option.some.inj hmatch)
  have hclosed := (parse_text hparse).2
  obtain ⟨parts'', hstripped⟩ := stripped_run gone (fun m hm => by
    have hm := (hremoved m).mp hm
    obtain ⟨field, hfield, rfl⟩ := mem_names.mp (List.mem_of_mem_filter hm)
    have hinner := hflat field hfield
    exact ⟨⟨fun h => hinner.1 (List.mem_append_left _ h), fun h => hinner.2 (List.mem_append_left _ h)⟩,
      unmatched_closed hclosed hm⟩) hclosed hflat
  have hsame : parts'' = parts' := by
    rw [← htemplate, hstripped.text, parse_parts hstripped.closed] at hparse'
    exact Option.some.inj hparse'
  subst hsame
  have hleft (field : Field) : field ∈ fields (without gone parts) ↔
      .field field ∈ parts ∧ field ∉ gone.map plain := by
    rw [fields_without, List.mem_filter, decide_eq_true_eq, mem_fields]
  -- A placeholder with a conversion or a spec is not removed.
  have hplain : ∀ field, .field field ∈ parts → field.name ∉ promptVariables.keys →
      field = plain field.name := by
    intro field hfield hkey
    by_contra hno
    have hkept : field ∈ (fields parts'').filter (fun f => f ≠ plain []) := by
      rw [hstripped.fields, List.mem_filter, hleft, decide_eq_true_eq]
      refine ⟨⟨hfield, ?_⟩, ?_⟩
      · intro hmap
        obtain ⟨m, _, rfl⟩ := List.mem_map.mp hmap
        exact hno rfl
      · rintro rfl
        exact hno rfl
    have hfield' := mem_fields.mp (List.mem_of_mem_filter hkept)
    exact hkey ((hnames _).mp (mem_names.mpr ⟨field, hfield', rfl⟩)).1
  -- No field without a name is rendered, so the fields that are left are the matched ones.
  rw [Values.vformat, ← htemplate, hstripped.text, parse_parts hstripped.closed] at hrender
  change formatParts _ parts'' = some text at hrender
  rw [emptied_without hplain hremoved] at hemptied
  have hnamed {kwargs : Dict (List Char) V} {expand : List Char → Option (List Char)} {parts : List Part}
      (h : formatParts (f.formatField kwargs expand) parts = some text) :
      (fields parts).filter (fun f => f ≠ plain []) = fields parts := by
    apply List.filter_eq_self.mpr
    intro field hfield
    rw [decide_eq_true_eq]
    rintro rfl
    exact format_defined h (mem_fields.mp hfield) (field_unnamed f kwargs expand)
  have hfields : fields parts'' = fields (without gone parts) := by
    rw [← hnamed hrender, ← hnamed hemptied]
    exact hstripped.fields
  have hget (k : List Char) : variables'.get? k = (matched promptVariables parts).get? k := by
    rw [← hvariables]
    exact get_left horder k
  have hmore (k : List Char) (v : V) (h : variables'.get? k = some v) : promptVariables.get? k = some v := by
    rw [hget] at h
    exact matched_more k v h
  have hchars : chars parts'' = chars parts := by
    have hrender' := format_length (format_grow
      (fun field text => field_grow f hmore (vformat_grow f hmore 2)) hrender)
    rw [format_length hemptied, hfields, chars_without] at hrender'
    exact (Nat.add_right_cancel hrender').symm
  refine ⟨hplain, hstripped.placed hchars, ?_⟩
  intro field hfield hkey hnone
  have hkept : field ∈ fields parts'' := by
    rw [hfields, hleft]
    refine ⟨hfield, ?_⟩
    intro hmap
    obtain ⟨m, hm, rfl⟩ := List.mem_map.mp hmap
    exact of_decide_eq_true (List.mem_filter.mp ((hremoved m).mp hm)).2 hkey
  apply format_defined hrender (mem_fields.mp hkept)
  by_contra hsome
  obtain ⟨text', htext'⟩ := Option.ne_none_iff_exists'.mp hsome
  have hmatched (k : List Char) (v : V) (h : variables'.get? k = some v) :
      (matched promptVariables parts).get? k = some v := by
    rw [← hget]
    exact h
  rw [field_grow f hmatched (vformat_grow f hmatched 2) htext'] at hnone
  cases hnone

/-- What is only plain and placed is removed, in every order; and in templates whose placeholders
have no inner braces nothing else makes the variables and the placeholders agree. -/
theorem variables_agree {template : List Char} (hparse : parse template = some parts) :
    (Removable f promptVariables parts → Agree f promptVariables template parts) ∧
    (Flat parts → Agree f promptVariables template parts → Removable f promptVariables parts) := by
  refine ⟨removable_agree hparse, ?_⟩
  intro hflat h
  refine ⟨?_, ?_, ?_⟩
  · obtain ⟨order, horder⟩ : ∃ order, Mismatches promptVariables (names parts) ([] ++ order) :=
      order_exists List.nodup_nil (List.nil_subset _)
    exact (agree_order hparse hflat h horder).1
  · intro gone m hgone hm hno
    have hnodup : (gone.dedup ++ [m]).Nodup := by
      refine List.nodup_append.mpr ⟨List.nodup_dedup gone, List.nodup_singleton m, ?_⟩
      rintro n hn _ hm' rfl
      rw [List.mem_singleton.mp hm', List.mem_dedup] at hn
      exact hno hn
    have hfirst : gone.dedup ++ [m] ⊆ unmatched promptVariables parts := by
      intro n hn
      rcases List.mem_append.mp hn with hn | hn
      · exact hgone (List.mem_dedup.mp hn)
      · rw [List.mem_singleton.mp hn]
        exact hm
    obtain ⟨rest, horder⟩ := order_exists hnodup hfirst
    have hfilter : (gone.dedup ++ [m]).filter (fun m => m ∈ names parts) = gone.dedup ++ [m] :=
      List.filter_eq_self.mpr (fun n hn => decide_eq_true (List.mem_of_mem_filter (hfirst hn)))
    have hplaced := (agree_order hparse hflat h horder).2.1 gone.dedup m
      (rest.filter (fun m => m ∈ names parts)) (by
        rw [List.filter_append, hfilter, List.append_assoc]
        rfl)
    rw [without_same (fun n => List.mem_dedup)] at hplaced
    exact hplaced
  · obtain ⟨order, horder⟩ : ∃ order, Mismatches promptVariables (names parts) ([] ++ order) :=
      order_exists List.nodup_nil (List.nil_subset _)
    exact (agree_order hparse hflat h horder).2.2

/-- Strings without their items and attributes. -/
def strings : Values (List Char) where
  isDecimal c := c.isDigit
  attr _ _ := none
  item _ _ := none
  convert c v := if c = 's' then some v else none
  format v spec := if spec = [] then some v else none

def answer : List Part :=
  [.char '\x7b', .field (plain "context".toList), .char '\x7d', .char ' ', .field (plain "name".toList),
    .char ' ', .field ⟨"context".toList, some 's', none⟩, .char ' ', .field (plain "name".toList)]

def recalled : Dict (List Char) (List Char) :=
  .ofList [("context".toList, "none".toList), ("tools".toList, [])]

theorem name_removed : Agree strings recalled
    "\x7b\x7b\x7bcontext\x7d\x7d\x7d \x7bname\x7d \x7bcontext!s\x7d \x7bname\x7d".toList answer := by
  apply (variables_agree (by decide)).1
  refine ⟨?_, ?_, ?_⟩
  · have hall : ∀ field ∈ fields answer, field.name ∉ recalled.keys → field = plain field.name := by decide
    intro field hfield
    exact hall field (mem_fields.mpr hfield)
  · intro gone m hgone hm hno
    have hall : ∀ m ∈ unmatched recalled answer, m = "name".toList ∧ OnlyPlaced m (without [] answer) := by
      decide
    have hnil : gone = [] := by
      apply List.eq_nil_iff_forall_not_mem.mpr
      intro n hn
      rw [(hall m hm).1, ← (hall n (hgone hn)).1] at hno
      exact hno hn
    rw [hnil]
    exact (hall m hm).2
  · have hall : ∀ field ∈ fields answer, field.name ∈ recalled.keys →
        strings.formatField (matched recalled answer) (strings.vformat (matched recalled answer) 2) field ≠
          none := by
      decide
    intro field hfield
    exact hall field (mem_fields.mpr hfield)

/-- A name in doubled braces is removed from inside them, a placeholder with a conversion stays, and
a variable that only a format spec names is deleted. -/
theorem braces_emptied :
    matchPromptVariables (V := List Char) ["name".toList] .empty "\x7b\x7bname\x7d\x7d \x7bname\x7d".toList =
      some (.empty, "\x7b\x7d ".toList) ∧
    inputVariables "\x7b\x7d ".toList = some [[]] ∧
    matchPromptVariables (V := List Char) ["name".toList] .empty "\x7bname!r\x7d".toList =
      some (.empty, "\x7bname!r\x7d".toList) ∧
    matchPromptVariables ["width".toList]
        (.ofList [("context".toList, "none".toList), ("width".toList, "9".toList)])
        "\x7bcontext:\x7bwidth\x7d\x7d".toList =
      some (.ofList [("context".toList, "none".toList)], "\x7bcontext:\x7bwidth\x7d\x7d".toList) ∧
    ¬ ∀ (promptVariables : Dict (List Char) (List Char)) (template : List Char) (parts : List Part),
      parse template = some parts → Agree strings promptVariables template parts := by
  refine ⟨by decide, by decide, by decide, by decide, ?_⟩
  intro h
  have horder : Mismatches (V := List Char) .empty ["name".toList] ["name".toList] := by
    refine ⟨List.nodup_singleton _, ?_⟩
    intro m
    constructor
    · intro hm
      exact Or.inr ⟨hm, List.not_mem_nil⟩
    · rintro (⟨hm, _⟩ | ⟨hm, _⟩)
      · exact absurd hm List.not_mem_nil
      · exact hm
  obtain ⟨variables', template', parts', _, hmatch, hparse, _, hnames, _⟩ :=
    h .empty "\x7bname!r\x7d".toList [.field ⟨"name".toList, some 'r', none⟩] (by decide) _ horder
  have hreturned : matchPromptVariables (V := List Char) ["name".toList] .empty "\x7bname!r\x7d".toList =
      some (.empty, "\x7bname!r\x7d".toList) := by decide
  rw [hreturned] at hmatch
  cases hmatch
  have hparts : parse "\x7bname!r\x7d".toList = some [.field ⟨"name".toList, some 'r', none⟩] := by decide
  rw [hparts] at hparse
  cases hparse
  exact absurd ((hnames "name".toList).mp List.mem_cons_self).1 List.not_mem_nil

end CheshireCat.Utils
