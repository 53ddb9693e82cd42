import CheshireCat.Base.Dict
import CheshireCat.Base.Replace
import Mathlib.Algebra.GroupWithZero.Nat
import Mathlib.Algebra.Order.BigOperators.Group.List
import Mathlib.Data.List.TakeWhile

/-! Format strings: literal text, in which a brace is written twice, and replacement fields. -/

namespace CheshireCat.Base.Markup

/-- A replacement field as it is written, `{name!conversion:spec}`. -/
structure Field where
  name : List Char
  conversion : Option Char
  spec : Option (List Char)
deriving DecidableEq

inductive Part
  | char (c : Char)
  | field (f : Field)
deriving DecidableEq

def Field.inner (f : Field) : List Char :=
  f.name ++ (f.conversion.elim [] (fun c => ['!', c]) ++ f.spec.elim [] (fun s => ':' :: s))

def Field.text (f : Field) : List Char := '\x7b' :: (f.inner ++ ['\x7d'])

def Part.text : Part → List Char
  | .char c => if c = '\x7b' ∨ c = '\x7d' then [c, c] else [c]
  | .field f => f.text

def textOf (parts : List Part) : List Char := parts.flatMap Part.text

def names (parts : List Part) : List (List Char) :=
  parts.filterMap (fun
    | .char _ => none
    | .field f => some f.name)

/-- A field that is only named. -/
def plain (name : List Char) : Field := ⟨name, none, none⟩

/-! ### The parser -/

inductive State
  | between
  | opened
  | closed
  | name (n : List Char) (bracket : Bool)
  | conversion (n : List Char)
  | converted (n : List Char) (c : Char)
  | spec (n : List Char) (c : Option Char) (s : List Char) (depth : Nat)

def stepName (n : List Char) (c : Char) : Option (State × List Part) :=
  if c = '\x7b' then none
  else if c = '[' then some (.name (n ++ [c]) true, [])
  else if c = '\x7d' then some (.between, [.field (plain n)])
  else if c = ':' then some (.spec n none [] 0, [])
  else if c = '!' then some (.conversion n, [])
  else some (.name (n ++ [c]) false, [])

def State.step : State → Char → Option (State × List Part)
  | .between, c =>
    if c = '\x7b' then some (.opened, [])
    else if c = '\x7d' then some (.closed, [])
    else some (.between, [.char c])
  | .opened, c => if c = '\x7b' then some (.between, [.char c]) else stepName [] c
  | .closed, c => if c = '\x7d' then some (.between, [.char c]) else none
  -- What stands in brackets belongs to the name, whatever it is.
  | .name n true, c => some (.name (n ++ [c]) (c ≠ ']'), [])
  | .name n false, c => stepName n c
  | .conversion n, c => some (.converted n c, [])
  | .converted n v, c =>
    if c = '\x7d' then some (.between, [.field ⟨n, some v, none⟩])
    else if c = ':' then some (.spec n (some v) [] 0, [])
    else none
  | .spec n v s depth, c =>
    if c = '\x7b' then some (.spec n v (s ++ [c]) (depth + 1), [])
    else if c = '\x7d' then
      match depth with
      | 0 => some (.between, [.field ⟨n, v, some s⟩])
      | depth + 1 => some (.spec n v (s ++ [c]) depth, [])
    else some (.spec n v (s ++ [c]) depth, [])

def run : State → List Char → Option (State × List Part)
  | s, [] => some (s, [])
  | s, c :: rest =>
    (s.step c).bind (fun (s', out) => (run s' rest).map (fun (e, parts) => (e, out ++ parts)))

/-- `Formatter().parse(template)`, and nothing where it raises. -/
def parse (text : List Char) : Option (List Part) :=
  match run .between text with
  | some (.between, parts) => some parts
  | _ => none

theorem parse_iff {text : List Char} {parts : List Part} :
    parse text = some parts ↔ run .between text = some (.between, parts) := by
  rw [parse]
  split
  · rename_i parts' hrun
    rw [hrun]
    constructor
    · intro h
      cases h
      rfl
    · intro h
      cases h
      rfl
  · rename_i hno
    constructor
    · intro h
      cases h
    · intro h
      exact absurd h (hno parts)

theorem run_append (s : State) (a b : List Char) :
    run s (a ++ b) = (run s a).bind (fun (s', out) =>
      (run s' b).map (fun (e, parts) => (e, out ++ parts))) := by
  induction a generalizing s with
  | nil =>
    change run s b = (run s b).map (fun r => (r.1, [] ++ r.2))
    cases run s b <;> rfl
  | cons c a ih =>
    rw [List.cons_append, run, run]
    cases s.step c with
    | none => rfl
    | some r =>
      dsimp only [Option.bind_some]
      rw [ih]
      cases run r.1 a with
      | none => rfl
      | some r' =>
        dsimp only [Option.bind_some, Option.map_some]
        rw [Option.map_map]
        congr 1
        funext e
        exact congrArg (Prod.mk e.1) (List.append_assoc _ _ _).symm

/-- What has been read since the last part. -/
def State.text : State → List Char
  | .between => []
  | .opened => ['\x7b']
  | .closed => ['\x7d']
  | .name n _ => '\x7b' :: n
  | .conversion n => '\x7b' :: (n ++ ['!'])
  | .converted n c => '\x7b' :: (n ++ ['!', c])
  | .spec n c s _ => '\x7b' :: (n ++ (c.elim [] (fun c => ['!', c]) ++ ':' :: s))

/-- A character goes on with a part or ends one. -/
theorem step_text {s s' : State} {c : Char} {out : List Part} (h : s.step c = some (s', out)) :
    (out = [] ∧ s'.text = s.text ++ [c]) ∨
    ∃ p, out = [p] ∧ s' = .between ∧ p.text = s.text ++ [c] := by
  have hname {n : List Char} (h : stepName n c = some (s', out)) :
      (out = [] ∧ s'.text = '\x7b' :: n ++ [c]) ∨
      ∃ p, out = [p] ∧ s' = .between ∧ p.text = '\x7b' :: n ++ [c] := by
    unfold stepName at h
    split_ifs at h with hopen hbracket hclose hspec hconversion
    · cases h
      exact Or.inl ⟨rfl, rfl⟩
    · cases h
      subst hclose
      refine Or.inr ⟨_, rfl, rfl, ?_⟩
      simp [Part.text, Field.text, Field.inner, plain]
    · cases h
      subst hspec
      exact Or.inl ⟨rfl, rfl⟩
    · cases h
      subst hconversion
      exact Or.inl ⟨rfl, rfl⟩
    · cases h
      exact Or.inl ⟨rfl, rfl⟩
  cases s with
  | between =>
    simp only [State.step] at h
    split_ifs at h with hopen hclose
    · cases h
      exact Or.inl ⟨rfl, by rw [hopen]; rfl⟩
    · cases h
      exact Or.inl ⟨rfl, by rw [hclose]; rfl⟩
    · cases h
      refine Or.inr ⟨_, rfl, rfl, ?_⟩
      rw [Part.text, if_neg (not_or.mpr ⟨hopen, hclose⟩)]
      rfl
  | opened =>
    simp only [State.step] at h
    split_ifs at h with hopen
    · cases h
      subst hopen
      exact Or.inr ⟨_, rfl, rfl, rfl⟩
    · exact hname h
  | closed =>
    simp only [State.step] at h
    split_ifs at h with hclose
    cases h
    subst hclose
    exact Or.inr ⟨_, rfl, rfl, rfl⟩
  | name n bracket =>
    cases bracket with
    | true =>
      cases h
      exact Or.inl ⟨rfl, rfl⟩
    | false => exact hname h
  | conversion n =>
    cases h
    refine Or.inl ⟨rfl, ?_⟩
    simp [State.text]
  | converted n v =>
    simp only [State.step] at h
    split_ifs at h with hclose hspec
    · cases h
      subst hclose
      refine Or.inr ⟨_, rfl, rfl, ?_⟩
      simp [Part.text, Field.text, Field.inner, State.text]
    · cases h
      subst hspec
      refine Or.inl ⟨rfl, ?_⟩
      simp [State.text]
  | spec n v s depth =>
    have hgoes (depth' : Nat) : (State.spec n v (s ++ [c]) depth').text =
        (State.spec n v s depth).text ++ [c] := by
      simp [State.text]
    simp only [State.step] at h
    split_ifs at h with hopen hclose
    · cases h
      exact Or.inl ⟨rfl, hgoes _⟩
    · cases depth with
      | zero =>
        cases h
        subst hclose
        refine Or.inr ⟨_, rfl, rfl, ?_⟩
        simp [Part.text, Field.text, Field.inner, State.text]
      | succ depth =>
        cases h
        exact Or.inl ⟨rfl, hgoes _⟩
    · cases h
      exact Or.inl ⟨rfl, hgoes _⟩

/-! ### Parts and their texts -/

/-- The name of a field that goes on after it. -/
def State.named : State → Option (List Char)
  | .conversion n => some n
  | .converted n _ => some n
  | .spec n _ _ _ => some n
  | _ => none

/-- The name that is complete once the parts are out. -/
def State.finished (s : State) : List Part → Option (List Char)
  | [.field f] => some f.name
  | _ => s.named

/-- The field could have ended at its name. -/
theorem step_named {s s' : State} {c : Char} {out : List Part} {n : List Char}
    (h : s.step c = some (s', out)) (hn : s'.finished out = some n) :
    s.named = some n ∨
    (s.text = '\x7b' :: n ∧ s.step '\x7d' = some (.between, [.field (plain n)])) := by
  have hname {n' : List Char} (h : stepName n' c = some (s', out)) : n' = n := by
    unfold stepName at h
    split_ifs at h <;> cases h <;> cases hn <;> rfl
  cases s with
  | between =>
    simp only [State.step] at h
    split_ifs at h <;> cases h <;> cases hn
  | opened =>
    simp only [State.step] at h
    split_ifs at h with hopen
    · cases h
      cases hn
    · obtain rfl := hname h
      exact Or.inr ⟨rfl, rfl⟩
  | closed =>
    simp only [State.step] at h
    split_ifs at h
    cases h
    cases hn
  | name n' bracket =>
    cases bracket with
    | true =>
      cases h
      cases hn
    | false =>
      obtain rfl := hname h
      exact Or.inr ⟨rfl, rfl⟩
  | conversion n' =>
    cases h
    exact Or.inl hn
  | converted n' v =>
    simp only [State.step] at h
    split_ifs at h <;> cases h <;> exact Or.inl hn
  | spec n' v t depth =>
    simp only [State.step] at h
    split_ifs at h
    · cases h
      exact Or.inl hn
    · cases depth <;> cases h <;> exact Or.inl hn
    · cases h
      exact Or.inl hn

/-- The text of the part is read as that part, and so is the plain field of its name. -/
structure Closed (p : Part) : Prop where
  whole : run .between p.text = some (.between, [p])
  named : ∀ f, p = .field f → run .between (plain f.name).text = some (.between, [.field (plain f.name)])

structure Reached (s : State) : Prop where
  whole : run .between s.text = some (s, [])
  named : ∀ n, s.named = some n → run .between (plain n).text = some (.between, [.field (plain n)])

theorem run_step {s s' : State} {c : Char} {out : List Part} (hs : run .between s.text = some (s, []))
    (h : s.step c = some (s', out)) : run .between (s.text ++ [c]) = some (s', out) := by
  have hlast : run s [c] = some (s', out) := by
    rw [run, h, Option.bind_some]
    exact congrArg (fun l => some (s', l)) (List.append_nil out)
  rw [run_append, hs]
  change (run s [c]).map _ = _
  rw [hlast]
  rfl

theorem plain_text (n : List Char) : (plain n).text = '\x7b' :: (n ++ ['\x7d']) := by
  rw [Field.text, Field.inner, plain]
  exact congrArg (fun l => '\x7b' :: (l ++ ['\x7d'])) (List.append_nil n)

theorem step_reached {s s' : State} {c : Char} {out : List Part} (hs : Reached s)
    (h : s.step c = some (s', out)) : Reached s' ∧ ∀ p ∈ out, Closed p := by
  have hrun := run_step hs.whole h
  have hnamed (n : List Char) (hn : s'.finished out = some n) :
      run .between (plain n).text = some (.between, [.field (plain n)]) := by
    rcases step_named h hn with hn | ⟨htext, hclose⟩
    · exact hs.named n hn
    · rw [plain_text, ← List.cons_append, ← htext]
      exact run_step hs.whole hclose
  rcases step_text h with ⟨rfl, htext⟩ | ⟨p, rfl, rfl, htext⟩
  · rw [← htext] at hrun
    refine ⟨⟨hrun, hnamed⟩, ?_⟩
    intro p hp
    cases hp
  · rw [← htext] at hrun
    refine ⟨⟨rfl, ?_⟩, ?_⟩
    · intro n hn
      cases hn
    · intro q hq
      obtain rfl := List.mem_singleton.mp hq
      refine ⟨hrun, ?_⟩
      rintro f rfl
      exact hnamed f.name rfl

theorem run_parts {text : List Char} : ∀ {s e : State} {parts : List Part}, Reached s →
    run s text = some (e, parts) →
      s.text ++ text = textOf parts ++ e.text ∧ ∀ p ∈ parts, Closed p := by
  induction text with
  | nil =>
    intro s e parts _ h
    cases h
    refine ⟨List.append_nil _, ?_⟩
    intro p hp
    cases hp
  | cons c rest ih =>
    intro s e parts hs h
    rw [run] at h
    obtain ⟨⟨s', out⟩, hstep, hrest⟩ := Option.bind_eq_some_iff.mp h
    obtain ⟨⟨e', parts'⟩, hrun, heq⟩ := Option.map_eq_some_iff.mp hrest
    cases heq
    obtain ⟨hs', hout⟩ := step_reached hs hstep
    obtain ⟨htext, hparts⟩ := ih hs' hrun
    constructor
    · rw [textOf, List.flatMap_append, List.append_assoc]
      change _ = textOf out ++ (textOf parts' ++ e.text)
      rw [← htext, List.append_cons]
      rcases step_text hstep with ⟨rfl, hgoes⟩ | ⟨p, rfl, rfl, hends⟩
      · rw [hgoes]
        rfl
      · rw [← hends, textOf, List.flatMap_singleton]
        rfl
    · intro p hp
      exact (List.mem_append.mp hp).elim (hout p) (hparts p)

theorem parse_text {text : List Char} {parts : List Part} (h : parse text = some parts) :
    textOf parts = text ∧ ∀ p ∈ parts, Closed p := by
  obtain ⟨htext, hparts⟩ := run_parts (s := .between) ⟨rfl, fun n hn => by cases hn⟩ (parse_iff.mp h)
  refine ⟨?_, hparts⟩
  rw [State.text, List.append_nil] at htext
  exact htext.symm

/-- Parts that are read one by one are read together. -/
theorem parse_parts {parts : List Part} (h : ∀ p ∈ parts, Closed p) : parse (textOf parts) = some parts := by
  rw [parse_iff]
  induction parts with
  | nil => rfl
  | cons p parts ih =>
    rw [textOf, List.flatMap_cons, run_append, (h p List.mem_cons_self).whole, Option.bind_some]
    change (run .between (textOf parts)).map _ = _
    rw [ih (fun q hq => h q (List.mem_cons_of_mem p hq))]
    rfl

theorem mem_names {parts : List Part} {n : List Char} :
    n ∈ names parts ↔ ∃ f, .field f ∈ parts ∧ f.name = n := by
  rw [names, List.mem_filterMap]
  constructor
  · rintro ⟨p, hp, hn⟩
    cases p with
    | char c => cases hn
    | field f => exact ⟨f, hp, Option.some.inj hn⟩
  · rintro ⟨f, hf, hn⟩
    exact ⟨.field f, hf, congrArg some hn⟩

/-! ### Removing a placeholder -/

/-- The name is met in braces only as a field. -/
def OnlyPlaced (m : List Char) (parts : List Part) : Prop :=
  ∀ before after, textOf parts = before ++ ((plain m).text ++ after) →
    ∃ left right, parts = left ++ .field (plain m) :: right ∧ textOf left = before

def onlyPlaced (m : List Char) (parts : List Part) : Bool :=
  (List.range ((textOf parts).length + 1)).all (fun n =>
    ¬ (plain m).text <+: (textOf parts).drop n ∨
    (List.range parts.length).any (fun k =>
      parts[k]? = some (.field (plain m)) ∧ textOf (parts.take k) = (textOf parts).take n))

theorem only_placed_iff (m : List Char) (parts : List Part) :
    onlyPlaced m parts = true ↔ OnlyPlaced m parts := by
  rw [onlyPlaced, List.all_eq_true]
  constructor
  · intro h before after heq
    have hn := h before.length (List.mem_range.mpr (by rw [heq, List.length_append]; omega))
    rw [heq, List.drop_left, List.take_left, decide_eq_true_eq] at hn
    obtain ⟨k, _, hk⟩ := List.any_eq_true.mp (hn.resolve_left (not_not_intro (List.prefix_append _ _)))
    rw [decide_eq_true_eq] at hk
    refine ⟨parts.take k, parts.drop (k + 1), ?_, hk.2⟩
    rw [← List.take_append_drop k parts, List.take_append_drop]
    conv_lhs => rw [← List.take_append_drop k parts, List.drop_eq_getElem?_toList_append, hk.1]
    rfl
  · intro h n _
    rw [decide_eq_true_eq]
    by_cases hstarts : (plain m).text <+: (textOf parts).drop n
    · right
      obtain ⟨after, hafter⟩ := hstarts
      obtain ⟨left, right, rfl, hleft⟩ := h ((textOf parts).take n) after (by
        rw [hafter, List.take_append_drop])
      rw [List.any_eq_true]
      refine ⟨left.length, List.mem_range.mpr (by simp), ?_⟩
      rw [decide_eq_true_eq]
      refine ⟨?_, ?_⟩
      · simp
      · rw [List.take_left]
        exact hleft
    · exact Or.inl hstarts

instance (m : List Char) (parts : List Part) : Decidable (OnlyPlaced m parts) :=
  decidable_of_iff _ (only_placed_iff m parts)

def without (gone : List (List Char)) (parts : List Part) : List Part :=
  parts.filter (fun p => ∀ m ∈ gone, p ≠ .field (plain m))

theorem text_cons (p : Part) (parts : List Part) : textOf (p :: parts) = p.text ++ textOf parts := rfl

theorem plain_ne_nil (m : List Char) : (plain m).text ≠ [] := List.cons_ne_nil _ _

theorem part_text_ne_nil (p : Part) : p.text ≠ [] := by
  cases p with
  | char c =>
    rw [Part.text]
    split <;> exact List.cons_ne_nil _ _
  | field f => exact List.cons_ne_nil _ _

/-- Where the name is only a field, an occurrence stands at a part. -/
theorem placed_start {m : List Char} {p : Part} {parts : List Part} (h : OnlyPlaced m (p :: parts))
    (hp : p ≠ .field (plain m)) {done todo : List Char} (htext : p.text = done ++ todo)
    (htodo : todo ≠ []) : ¬ (plain m).text <+: todo ++ textOf parts := by
  rintro ⟨after, hafter⟩
  obtain ⟨left, right, heq, hleft⟩ := h done after (by rw [text_cons, htext, List.append_assoc, hafter])
  cases left with
  | nil => exact hp (List.cons.inj heq).1
  | cons q left =>
    obtain rfl := (List.cons.inj heq).1
    have hlength := congrArg List.length hleft
    have hpos := List.length_pos_iff.mpr htodo
    rw [text_cons, htext, List.append_assoc, List.length_append, List.length_append] at hlength
    omega

theorem placed_tail {m : List Char} {p : Part} {parts : List Part} (h : OnlyPlaced m (p :: parts)) :
    OnlyPlaced m parts := by
  intro before after heq
  obtain ⟨left, right, hparts, hleft⟩ := h (p.text ++ before) after (by
    rw [text_cons, heq, List.append_assoc])
  cases left with
  | nil =>
    have hnil := List.append_eq_nil_iff.mp hleft.symm
    exact absurd hnil.1 (part_text_ne_nil p)
  | cons q left =>
    obtain ⟨rfl, rfl⟩ := List.cons.inj hparts
    exact ⟨left, right, rfl, List.append_cancel_left hleft⟩

/-- Where the name is only a field, its fields are removed and nothing else. -/
theorem replace_placed {m : List Char} {parts : List Part} (h : OnlyPlaced m parts) :
    replaceAll (plain m).text [] (textOf parts) = textOf (without [m] parts) := by
  induction parts with
  | nil => rfl
  | cons p parts ih =>
    by_cases hp : p = .field (plain m)
    · subst hp
      rw [text_cons]
      change replaceAll (plain m).text [] ((plain m).text ++ textOf parts) = _
      have hgone : without [m] (.field (plain m) :: parts) = without [m] parts := by
        apply List.filter_cons_of_neg
        simp
      rw [replace_match (plain_ne_nil m), ih (placed_tail h), hgone]
      rfl
    · have hkept : without [m] (p :: parts) = p :: without [m] parts := by
        apply List.filter_cons_of_pos
        simpa using hp
      rw [text_cons, replace_pass (fun done todo => placed_start h hp), ih (placed_tail h), hkept]
      rfl

theorem without_without (gone gone' : List (List Char)) (parts : List Part) :
    without gone (without gone' parts) = without (gone' ++ gone) parts := by
  rw [without, without, List.filter_filter]
  apply List.filter_congr
  intro p _
  rw [Bool.eq_iff_iff, Bool.and_eq_true, decide_eq_true_eq, decide_eq_true_eq, decide_eq_true_eq]
  constructor
  · rintro ⟨h, h'⟩ m hm
    exact (List.mem_append.mp hm).elim (h' m) (h m)
  · intro h
    exact ⟨fun m hm => h m (List.mem_append_right _ hm), fun m hm => h m (List.mem_append_left _ hm)⟩

theorem mem_without {gone : List (List Char)} {parts : List Part} {p : Part} :
    p ∈ without gone parts ↔ p ∈ parts ∧ ∀ m ∈ gone, p ≠ .field (plain m) := by
  rw [without, List.mem_filter, decide_eq_true_eq]

/-! ### Fields without inner braces -/

def Bare (l : List Char) : Prop := '\x7b' ∉ l ∧ '\x7d' ∉ l

instance (l : List Char) : Decidable (Bare l) := inferInstanceAs (Decidable (_ ∧ _))

def Flat (parts : List Part) : Prop := ∀ f, .field f ∈ parts → Bare f.inner

def fields (parts : List Part) : List Field :=
  parts.filterMap (fun
    | .char _ => none
    | .field f => some f)

theorem mem_fields {parts : List Part} {f : Field} : f ∈ fields parts ↔ .field f ∈ parts := by
  rw [fields, List.mem_filterMap]
  constructor
  · rintro ⟨p, hp, heq⟩
    cases p with
    | char c => cases heq
    | field f' =>
      cases heq
      exact hp
  · intro hf
    exact ⟨_, hf, rfl⟩

def chars (parts : List Part) : Nat := parts.countP (fun
  | .char _ => true
  | .field _ => false)

theorem chars_without (gone : List (List Char)) (parts : List Part) :
    chars (without gone parts) = chars parts := by
  induction parts with
  | nil => rfl
  | cons p parts ih =>
    cases p with
    | char c =>
      have hkept : without gone (.char c :: parts) = .char c :: without gone parts := by
        apply List.filter_cons_of_pos
        simp
      rw [hkept, chars, chars, List.countP_cons, List.countP_cons]
      exact congrArg (· + 1) ih
    | field field =>
      have hskip : chars (.field field :: parts) = chars parts :=
        List.countP_cons_of_neg Bool.false_ne_true
      rw [hskip, ← ih, without, List.filter_cons]
      split
      · exact List.countP_cons_of_neg Bool.false_ne_true
      · rfl

theorem fields_without (gone : List (List Char)) (parts : List Part) :
    fields (without gone parts) = (fields parts).filter (fun f => f ∉ gone.map plain) := by
  induction parts with
  | nil => rfl
  | cons p parts ih =>
    cases p with
    | char c =>
      have hkept : without gone (.char c :: parts) = .char c :: without gone parts := by
        apply List.filter_cons_of_pos
        simp
      rw [hkept]
      exact ih
    | field field =>
      have hfields : fields (.field field :: parts) = field :: fields parts := rfl
      have hmem : (∀ m ∈ gone, Part.field field ≠ .field (plain m)) ↔ field ∉ gone.map plain := by
        constructor
        · intro h hmap
          obtain ⟨m, hm, rfl⟩ := List.mem_map.mp hmap
          exact h m hm rfl
        · intro h m hm heq
          cases heq
          exact h (List.mem_map_of_mem hm)
      rw [hfields, List.filter_cons, ← ih, without, List.filter_cons]
      by_cases hgone : field ∈ gone.map plain
      · rw [if_neg (by rw [decide_eq_true_eq]; exact fun h => hmem.mp h hgone),
          if_neg (by rw [decide_eq_true_eq]; exact fun h => h hgone)]
        rfl
      · rw [if_pos (decide_eq_true (hmem.mpr hgone)), if_pos (decide_eq_true hgone)]
        rfl

/-- What removing a name does: its fields go, and a name in doubled braces leaves an empty field. -/
inductive Strips (m : List Char) : List Part → List Part → Prop
  | nil : Strips m [] []
  | gone {parts parts'} : Strips m parts parts' → Strips m (.field (plain m) :: parts) parts'
  | keep {p parts parts'} : p ≠ .field (plain m) → Strips m parts parts' →
      Strips m (p :: parts) (p :: parts')
  | braces {parts parts'} : Strips m parts parts' →
      Strips m (.char '\x7b' :: (m.map .char ++ .char '\x7d' :: parts)) (.field (plain []) :: parts')

theorem bare_prefix {m : List Char} (hm : Bare m) : ∀ {parts : List Part},
    m ++ ['\x7d'] <+: textOf parts → ∃ rest, parts = m.map .char ++ .char '\x7d' :: rest := by
  induction m with
  | nil =>
    intro parts h
    cases parts with
    | nil => exact absurd (List.prefix_nil.mp h) (List.cons_ne_nil _ _)
    | cons p rest =>
      refine ⟨rest, ?_⟩
      rw [text_cons] at h
      cases p with
      | char c =>
        rw [Part.text] at h
        split at h
        · rw [← (List.cons_prefix_cons.mp h).1]
          rfl
        · rename_i hno
          exact absurd (Or.inr (List.cons_prefix_cons.mp h).1.symm) hno
      | field f => exact absurd (List.cons_prefix_cons.mp h).1 (by decide)
  | cons d m ih =>
    intro parts h
    have hd : ¬ (d = '\x7b' ∨ d = '\x7d') := by
      rintro (rfl | rfl)
      · exact hm.1 List.mem_cons_self
      · exact hm.2 List.mem_cons_self
    have hm' : Bare m := ⟨fun h => hm.1 (List.mem_cons_of_mem d h), fun h => hm.2 (List.mem_cons_of_mem d h)⟩
    cases parts with
    | nil => exact absurd (List.prefix_nil.mp h) (List.cons_ne_nil _ _)
    | cons p rest =>
      rw [text_cons] at h
      cases p with
      | char c =>
        rw [Part.text] at h
        split at h
        · rename_i hc
          rw [← (List.cons_prefix_cons.mp h).1] at hc
          exact absurd hc hd
        · obtain ⟨hc, hrest⟩ := List.cons_prefix_cons.mp h
          obtain ⟨rest', rfl⟩ := ih hm' hrest
          exact ⟨rest', by rw [hc]; rfl⟩
      | field f => exact absurd (Or.inl (List.cons_prefix_cons.mp h).1) hd

theorem text_chars {m : List Char} (hm : Bare m) (parts : List Part) :
    textOf (m.map .char ++ .char '\x7d' :: parts) = m ++ '\x7d' :: '\x7d' :: textOf parts := by
  induction m with
  | nil => rfl
  | cons d m ih =>
    have hd : ¬ (d = '\x7b' ∨ d = '\x7d') := by
      rintro (rfl | rfl)
      · exact hm.1 List.mem_cons_self
      · exact hm.2 List.mem_cons_self
    have htail := ih ⟨fun h => hm.1 (List.mem_cons_of_mem d h), fun h => hm.2 (List.mem_cons_of_mem d h)⟩
    rw [List.map_cons, List.cons_append, text_cons, htail, Part.text, if_neg hd]
    rfl

theorem bare_ends {a b rest : List Char} (ha : Bare a) (hb : Bare b)
    (h : a ++ ['\x7d'] <+: b ++ '\x7d' :: rest) : a = b := by
  induction a generalizing b with
  | nil =>
    cases b with
    | nil => rfl
    | cons d b =>
      obtain rfl := (List.cons_prefix_cons.mp h).1
      exact absurd List.mem_cons_self hb.2
  | cons c a ih =>
    cases b with
    | nil =>
      obtain rfl := (List.cons_prefix_cons.mp h).1
      exact absurd List.mem_cons_self ha.2
    | cons d b =>
      obtain ⟨rfl, hrest⟩ := List.cons_prefix_cons.mp h
      rw [ih ⟨fun h => ha.1 (List.mem_cons_of_mem c h), fun h => ha.2 (List.mem_cons_of_mem c h)⟩
        ⟨fun h => hb.1 (List.mem_cons_of_mem c h), fun h => hb.2 (List.mem_cons_of_mem c h)⟩ hrest]

/-- An occurrence starts at the field of the name or in a doubled brace. -/
theorem flat_start {m : List Char} (hm : Bare m) (hplain : Closed (.field (plain m))) {p : Part}
    {parts : List Part} (hp : Closed p) (hflat : Flat (p :: parts)) {done todo : List Char}
    (htext : p.text = done ++ todo) (htodo : todo ≠ [])
    (hstart : (plain m).text <+: todo ++ textOf parts) :
    (p = .field (plain m) ∧ done = []) ∨ (p = .char '\x7b' ∧ m ++ ['\x7d'] <+: textOf parts) := by
  obtain ⟨c, todo, rfl⟩ := List.exists_cons_of_ne_nil htodo
  rw [plain_text, List.cons_append, List.cons_prefix_cons] at hstart
  obtain ⟨rfl, hstart⟩ := hstart
  cases p with
  | field f =>
    have hinner := hflat f List.mem_cons_self
    cases done with
    | cons d done =>
      have hmem : '\x7b' ∈ f.inner ++ ['\x7d'] := by
        rw [(List.cons.inj htext).2]
        exact List.mem_append_right _ List.mem_cons_self
      rcases List.mem_append.mp hmem with hmem | hmem
      · exact absurd hmem hinner.1
      · exact absurd hmem (by decide)
    | nil =>
      obtain rfl := (List.cons.inj htext).2
      rw [List.append_assoc] at hstart
      have hsame := bare_ends hm hinner hstart
      have hwhole := hp.whole
      have htexts : Part.text (.field f) = (plain m).text := by
        rw [plain_text, hsame]
        rfl
      rw [htexts] at hwhole
      have hparts := hplain.whole.symm.trans hwhole
      cases hparts
      exact Or.inl ⟨rfl, rfl⟩
  | char c =>
    rw [Part.text] at htext
    split at htext
    · rename_i hc
      cases done with
      | nil =>
        obtain ⟨rfl, htodo⟩ := List.cons.inj htext
        subst htodo
        cases m with
        | nil => exact absurd (List.cons_prefix_cons.mp hstart).1 (by decide)
        | cons d m =>
          obtain rfl := (List.cons_prefix_cons.mp hstart).1
          exact absurd List.mem_cons_self hm.1
      | cons d done =>
        have hrest : [c] = done ++ '\x7b' :: todo := (List.cons.inj htext).2
        cases done with
        | nil =>
          obtain ⟨rfl, hnil⟩ := List.cons.inj hrest
          subst hnil
          exact Or.inr ⟨rfl, hstart⟩
        | cons e done =>
          have hlength := congrArg List.length hrest
          simp at hlength
    · rename_i hc
      have hmem : '\x7b' ∈ [c] := by
        rw [htext]
        exact List.mem_append_right _ List.mem_cons_self
      exact absurd (Or.inl (List.mem_singleton.mp hmem).symm) hc

theorem placed_cons {m : List Char} {p : Part} {parts : List Part} (h : OnlyPlaced m parts)
    (hstart : ∀ done todo, p.text = done ++ todo → todo ≠ [] →
      (plain m).text <+: todo ++ textOf parts → p = .field (plain m) ∧ done = []) :
    OnlyPlaced m (p :: parts) := by
  intro before after heq
  rw [text_cons] at heq
  rcases List.append_eq_append_iff.mp heq with ⟨more, rfl, hrest⟩ | ⟨todo, htext, hrest⟩
  · obtain ⟨left, right, rfl, rfl⟩ := h more after hrest
    exact ⟨p :: left, right, rfl, rfl⟩
  · by_cases htodo : todo = []
    · subst htodo
      obtain ⟨left, right, rfl, hleft⟩ := h [] after hrest.symm
      refine ⟨p :: left, right, rfl, ?_⟩
      rw [text_cons, hleft, htext, List.append_nil, List.append_nil]
    · obtain ⟨rfl, rfl⟩ := hstart before todo htext htodo ⟨after, hrest⟩
      exact ⟨[], parts, rfl, rfl⟩

theorem flat_tail {p : Part} {parts : List Part} (h : Flat (p :: parts)) : Flat parts :=
  fun f hf => h f (List.mem_cons_of_mem p hf)

theorem strips_chars {m : List Char} {parts parts' : List Part} (h : Strips m parts parts') :
    chars parts' ≤ chars parts := by
  induction h with
  | nil => exact Nat.le_refl _
  | gone _ ih => exact ih
  | keep hp _ ih =>
    rename_i p parts parts' _
    rw [chars, chars, List.countP_cons, List.countP_cons]
    exact Nat.add_le_add_right ih _
  | braces _ ih =>
    rename_i parts parts' _
    rw [chars, chars, List.countP_cons, List.countP_cons, List.countP_append, List.countP_cons]
    exact Nat.le_add_right_of_le (Nat.le_add_left_of_le (Nat.le_add_right_of_le ih))

/-- In a flat template a removal takes the fields, and where no character goes it takes nothing else. -/
theorem replace_strips {m : List Char} (hm : Bare m) (hplain : Closed (.field (plain m))) (n : Nat) :
    ∀ parts : List Part, parts.length ≤ n → (∀ p ∈ parts, Closed p) → Flat parts →
      ∃ parts', Strips m parts parts' ∧
        replaceAll (plain m).text [] (textOf parts) = textOf parts' ∧
        (chars parts' = chars parts → OnlyPlaced m parts) := by
  induction n with
  | zero =>
    intro parts hlength _ _
    obtain rfl := List.length_eq_zero_iff.mp (Nat.le_zero.mp hlength)
    refine ⟨[], .nil, rfl, ?_⟩
    intro _ before after heq
    have hnil := (List.append_eq_nil_iff.mp heq.symm).2
    exact absurd (List.append_eq_nil_iff.mp hnil).1 (plain_ne_nil m)
  | succ n ih =>
    intro parts hlength hclosed hflat
    cases parts with
    | nil =>
      refine ⟨[], .nil, rfl, ?_⟩
      intro _ before after heq
      have hnil := (List.append_eq_nil_iff.mp heq.symm).2
      exact absurd (List.append_eq_nil_iff.mp hnil).1 (plain_ne_nil m)
    | cons p rest =>
      have hrest : ∀ q ∈ rest, Closed q := fun q hq => hclosed q (List.mem_cons_of_mem p hq)
      have hstart (done todo : List Char) (htext : p.text = done ++ todo) (htodo : todo ≠ []) :=
        flat_start hm hplain (hclosed p List.mem_cons_self) hflat htext htodo
      by_cases hbraces : p = .char '\x7b' ∧ m ++ ['\x7d'] <+: textOf rest
      · obtain ⟨rfl, hstarts⟩ := hbraces
        obtain ⟨rest, rfl⟩ := bare_prefix hm hstarts
        have hshort : rest.length ≤ n := by
          simp only [List.length_cons, List.length_append] at hlength
          omega
        obtain ⟨parts', hstrips, htext, _⟩ := ih rest hshort
          (fun q hq => hrest q (List.mem_append_right _ (List.mem_cons_of_mem _ hq)))
          (fun f hf => hflat f (List.mem_cons_of_mem _
            (List.mem_append_right _ (List.mem_cons_of_mem _ hf))))
        refine ⟨.field (plain []) :: parts', .braces hstrips, ?_, ?_⟩
        · have hfirst : ¬ (plain m).text <+: '\x7b' :: ((plain m).text ++ '\x7d' :: textOf rest) := by
            intro h
            rw [plain_text, List.cons_prefix_cons] at h
            cases m with
            | nil => exact absurd (List.cons_prefix_cons.mp h.2).1 (by decide)
            | cons d m =>
              obtain rfl := (List.cons_prefix_cons.mp h.2).1
              exact hm.1 List.mem_cons_self
          have hlast : ¬ (plain m).text <+: '\x7d' :: textOf rest := by
            intro h
            exact absurd (List.cons_prefix_cons.mp h).1 (by decide)
          have hwhole : textOf (.char '\x7b' :: (m.map .char ++ .char '\x7d' :: rest)) =
              '\x7b' :: ((plain m).text ++ '\x7d' :: textOf rest) := by
            rw [text_cons, text_chars hm, plain_text, List.cons_append, List.append_assoc]
            rfl
          rw [hwhole, replace_step hfirst, replace_match (plain_ne_nil m), List.nil_append,
            replace_step hlast, htext]
          rfl
        · intro hsame
          have hle := strips_chars hstrips
          simp only [chars, List.countP_cons, List.countP_append] at hsame hle
          simp at hsame
          omega
      · obtain ⟨parts', hstrips, htext, hplaced⟩ := ih rest (Nat.le_of_succ_le_succ hlength) hrest
          (flat_tail hflat)
        have hstart' (done todo : List Char) (h : p.text = done ++ todo) (htodo : todo ≠ [])
            (hstarts : (plain m).text <+: todo ++ textOf rest) : p = .field (plain m) ∧ done = [] :=
          (hstart done todo h htodo hstarts).resolve_right hbraces
        by_cases hp : p = .field (plain m)
        · refine ⟨parts', ?_, ?_, fun hsame => placed_cons (hplaced ?_) hstart'⟩
          · rw [hp]
            exact .gone hstrips
          · rw [text_cons, hp]
            change replaceAll (plain m).text [] ((plain m).text ++ textOf rest) = _
            rw [replace_match (plain_ne_nil m), htext]
            rfl
          · rw [hp] at hsame
            exact hsame
        · refine ⟨p :: parts', .keep hp hstrips, ?_, fun hsame => placed_cons (hplaced ?_) hstart'⟩
          · rw [text_cons, replace_pass, htext]
            · rfl
            · intro done todo h htodo hstarts
              exact hp (hstart' done todo h htodo hstarts).1
          · rw [chars, chars, List.countP_cons, List.countP_cons] at hsame
            exact Nat.add_right_cancel hsame

theorem strips_placed {m : List Char} {parts parts' : List Part} (h : Strips m parts parts')
    (hsame : chars parts' = chars parts) : parts' = without [m] parts := by
  induction h with
  | nil => rfl
  | gone h ih =>
    rename_i parts parts'
    have hgone : without [m] (.field (plain m) :: parts) = without [m] parts := by
      apply List.filter_cons_of_neg
      simp
    rw [hgone]
    exact ih hsame
  | keep hp h ih =>
    rename_i p parts parts'
    have hkept : without [m] (p :: parts) = p :: without [m] parts := by
      apply List.filter_cons_of_pos
      simpa using hp
    rw [hkept]
    rw [chars, chars, List.countP_cons, List.countP_cons] at hsame
    rw [ih (Nat.add_right_cancel hsame)]
  | braces h ih =>
    have hle := strips_chars h
    simp only [chars, List.countP_cons, List.countP_append] at hsame hle
    simp at hsame
    omega

/-- What is left are parts that were there and empty fields. -/
theorem mem_strips {m : List Char} {parts parts' : List Part} (h : Strips m parts parts') {p : Part}
    (hp : p ∈ parts') : p ∈ parts ∨ p = .field (plain []) := by
  induction h with
  | nil => cases hp
  | gone _ ih => exact (ih hp).imp_left (List.mem_cons_of_mem _)
  | keep _ _ ih =>
    rcases List.mem_cons.mp hp with rfl | hp
    · exact Or.inl List.mem_cons_self
    · exact (ih hp).imp_left (List.mem_cons_of_mem _)
  | braces _ ih =>
    rcases List.mem_cons.mp hp with rfl | hp
    · exact Or.inr rfl
    · exact (ih hp).imp_left (fun h =>
        List.mem_cons_of_mem _ (List.mem_append_right _ (List.mem_cons_of_mem _ h)))

/-- The fields that are left, but for the empty ones, are those that were not removed. -/
theorem strips_fields {m : List Char} {parts parts' : List Part} (h : Strips m parts parts') :
    (fields parts').filter (fun f => f ≠ plain []) =
      (fields (without [m] parts)).filter (fun f => f ≠ plain []) := by
  induction h with
  | nil => rfl
  | gone h ih =>
    rename_i parts parts'
    have hgone : without [m] (.field (plain m) :: parts) = without [m] parts := by
      apply List.filter_cons_of_neg
      simp
    rw [hgone]
    exact ih
  | keep hp h ih =>
    rename_i p parts parts'
    have hkept : without [m] (p :: parts) = p :: without [m] parts := by
      apply List.filter_cons_of_pos
      simpa using hp
    rw [hkept]
    cases p with
    | char c => exact ih
    | field f =>
      change List.filter _ (f :: fields parts') = List.filter _ (f :: fields (without [m] parts))
      rw [List.filter_cons, List.filter_cons, ih]
  | braces h ih =>
    rename_i parts parts'
    have hchars : fields (without [m] (.char '\x7b' :: (m.map .char ++ .char '\x7d' :: parts))) =
        fields (without [m] parts) := by
      have hnone (l : List Char) : fields (without [m] (l.map .char ++ .char '\x7d' :: parts)) =
          fields (without [m] parts) := by
        induction l with
        | nil => rfl
        | cons c l ih => exact ih
      exact hnone m
    rw [hchars, ← ih]
    rfl

/-! ### Rendering -/

/-- What formatting does with a value. -/
structure Values (V : Type) where
  isDecimal : Char → Bool
  attr : V → List Char → Option V
  item : V → List Char → Option V
  convert : Char → V → Option V
  format : V → List Char → Option (List Char)

inductive Access
  | attr (n : List Char)
  | item (n : List Char)

/-- The attributes and items of a field name, from the first dot or bracket on. -/
def readAccess : Option Access → List Char → Option (List Access)
  | none, [] => some []
  | none, c :: rest =>
    if c = '.' then readAccess (some (.attr [])) rest
    else if c = '[' then readAccess (some (.item [])) rest
    else none
  | some (.attr n), [] => if n = [] then none else some [.attr n]
  | some (.attr n), c :: rest =>
    if c = '.' ∨ c = '[' then
      if n = [] then none
      else (readAccess (some (if c = '.' then .attr [] else .item [])) rest).map (.attr n :: ·)
    else readAccess (some (.attr (n ++ [c]))) rest
  | some (.item _), [] => none
  | some (.item n), c :: rest =>
    if c = ']' then
      if n = [] then none else (readAccess none rest).map (.item n :: ·)
    else readAccess (some (.item (n ++ [c]))) rest

variable {V : Type} (f : Values V) (kwargs : Dict (List Char) V)

def Values.access (v : V) : Access → Option V
  | .attr n => f.attr v n
  | .item n => f.item v n

/-- The value of a field. An empty name and a number stand for positional arguments, and there
are none. -/
def Values.getField (name : List Char) : Option V :=
  let first := name.takeWhile (fun c => c ≠ '.' ∧ c ≠ '[')
  let rest := name.dropWhile (fun c => c ≠ '.' ∧ c ≠ '[')
  if name = [] ∨ (first ≠ [] ∧ first.all f.isDecimal) then none
  else
    (kwargs.get? first).bind (fun v => (readAccess none rest).bind (fun path => path.foldlM f.access v))

def Values.convertField (v : V) : Option Char → Option V
  | none => some v
  | some c => f.convert c v

/-- The text of a field, whose spec is a format string itself. -/
def Values.formatField (expand : List Char → Option (List Char)) (field : Field) : Option (List Char) :=
  (f.getField kwargs field.name).bind (fun v => (f.convertField v field.conversion).bind (fun v =>
    (expand (field.spec.getD [])).bind (f.format v)))

def formatParts (fieldText : Field → Option (List Char)) : List Part → Option (List Char)
  | [] => some []
  | .char c :: parts => (formatParts fieldText parts).map (c :: ·)
  | .field field :: parts =>
    (fieldText field).bind (fun text => (formatParts fieldText parts).map (text ++ ·))

/-- `Formatter().vformat`, with the specs that may still be nested. -/
def Values.vformat : Nat → List Char → Option (List Char)
  | 0, _ => none
  | depth + 1, template =>
    (parse template).bind (formatParts (f.formatField kwargs (vformat depth)))

theorem field_unnamed (expand : List Char → Option (List Char)) :
    f.formatField kwargs expand (plain []) = none := by
  have hfield : f.getField kwargs [] = none := by
    rw [Values.getField]
    exact if_pos (Or.inl rfl)
  rw [Values.formatField, plain, hfield]
  rfl

theorem format_grow {g g' : Field → Option (List Char)}
    (hg : ∀ field text, g field = some text → g' field = some text) {parts : List Part} {text : List Char}
    (h : formatParts g parts = some text) : formatParts g' parts = some text := by
  induction parts generalizing text with
  | nil => exact h
  | cons p parts ih =>
    cases p with
    | char c =>
      obtain ⟨rest, hrest, rfl⟩ := Option.map_eq_some_iff.mp h
      rw [formatParts, ih hrest]
      rfl
    | field field =>
      obtain ⟨first, hfirst, h⟩ := Option.bind_eq_some_iff.mp h
      obtain ⟨rest, hrest, rfl⟩ := Option.map_eq_some_iff.mp h
      rw [formatParts, hg field first hfirst, ih hrest]
      rfl

/-- More variables change nothing where the rendering succeeds. -/
theorem field_grow {kwargs kwargs' : Dict (List Char) V}
    (hmore : ∀ k v, kwargs.get? k = some v → kwargs'.get? k = some v)
    {expand expand' : List Char → Option (List Char)}
    (hexpand : ∀ spec text, expand spec = some text → expand' spec = some text)
    {field : Field} {text : List Char} (h : f.formatField kwargs expand field = some text) :
    f.formatField kwargs' expand' field = some text := by
  obtain ⟨v, hv, h⟩ := Option.bind_eq_some_iff.mp h
  obtain ⟨v', hv', h⟩ := Option.bind_eq_some_iff.mp h
  obtain ⟨spec, hspec, h⟩ := Option.bind_eq_some_iff.mp h
  have hfield : f.getField kwargs' field.name = some v := by
    rw [Values.getField] at hv ⊢
    split_ifs at hv ⊢ with hpositional
    obtain ⟨first, hfirst, hv⟩ := Option.bind_eq_some_iff.mp hv
    rw [hmore _ _ hfirst]
    exact hv
  rw [Values.formatField, hfield, Option.bind_some, hv', Option.bind_some, hexpand _ _ hspec, Option.bind_some,
    h]

theorem vformat_grow {kwargs kwargs' : Dict (List Char) V}
    (hmore : ∀ k v, kwargs.get? k = some v → kwargs'.get? k = some v) (depth : Nat) :
    ∀ template text, f.vformat kwargs depth template = some text →
      f.vformat kwargs' depth template = some text := by
  induction depth with
  | zero =>
    intro template text h
    cases h
  | succ depth ih =>
    intro template text h
    obtain ⟨parts, hparts, h⟩ := Option.bind_eq_some_iff.mp h
    rw [Values.vformat, hparts]
    exact format_grow (fun field text => field_grow f hmore ih) h

theorem format_length {g : Field → Option (List Char)} {parts : List Part} {text : List Char}
    (h : formatParts g parts = some text) :
    text.length = chars parts + ((fields parts).map (fun f => ((g f).getD []).length)).sum := by
  induction parts generalizing text with
  | nil =>
    cases h
    rfl
  | cons p parts ih =>
    cases p with
    | char c =>
      obtain ⟨rest, hrest, rfl⟩ := Option.map_eq_some_iff.mp h
      have hchars : chars (.char c :: parts) = chars parts + 1 := List.countP_cons_of_pos rfl
      rw [hchars, List.length_cons, ih hrest]
      exact Nat.add_right_comm _ _ _
    | field field =>
      obtain ⟨first, hfirst, h⟩ := Option.bind_eq_some_iff.mp h
      obtain ⟨rest, hrest, rfl⟩ := Option.map_eq_some_iff.mp h
      have hchars : chars (.field field :: parts) = chars parts :=
        List.countP_cons_of_neg Bool.false_ne_true
      have hfields : fields (.field field :: parts) = field :: fields parts := rfl
      rw [hchars, hfields, List.map_cons, List.sum_cons, List.length_append, hfirst, ih hrest]
      exact Nat.add_left_comm _ _ _

theorem format_defined {g : Field → Option (List Char)} {parts : List Part} {text : List Char}
    (h : formatParts g parts = some text) {field : Field} (hfield : .field field ∈ parts) :
    g field ≠ none := by
  induction parts generalizing text with
  | nil => cases hfield
  | cons p parts ih =>
    cases p with
    | char c =>
      obtain ⟨rest, hrest, rfl⟩ := Option.map_eq_some_iff.mp h
      rcases List.mem_cons.mp hfield with hfield | hfield
      · cases hfield
      · exact ih hrest hfield
    | field field' =>
      obtain ⟨first, hfirst, h⟩ := Option.bind_eq_some_iff.mp h
      obtain ⟨rest, hrest, rfl⟩ := Option.map_eq_some_iff.mp h
      rcases List.mem_cons.mp hfield with hfield | hfield
      · cases hfield
        rw [hfirst]
        exact Option.some_ne_none first
      · exact ih hrest hfield

/-- Fields that are rendered as nothing can as well be removed. -/
theorem format_without {g g' : Field → Option (List Char)} {gone : List (List Char)} {parts : List Part}
    (hgone : ∀ field, .field field ∈ parts → field ∈ gone.map plain → g' field = some [])
    (hkept : ∀ field, .field field ∈ parts → field ∉ gone.map plain → g' field = g field) :
    formatParts g' parts = formatParts g (without gone parts) := by
  induction parts with
  | nil => rfl
  | cons p parts ih =>
    have ih := ih (fun field h => hgone field (List.mem_cons_of_mem p h))
      (fun field h => hkept field (List.mem_cons_of_mem p h))
    cases p with
    | char c =>
      have hsame : without gone (.char c :: parts) = .char c :: without gone parts := by
        apply List.filter_cons_of_pos
        simp
      rw [hsame, formatParts, formatParts, ih]
    | field field =>
      by_cases hmem : field ∈ gone.map plain
      · have hfield : without gone (.field field :: parts) = without gone parts := by
          apply List.filter_cons_of_neg
          obtain ⟨m, hm, rfl⟩ := List.mem_map.mp hmem
          rw [decide_eq_true_eq]
          exact fun h => h m hm rfl
        rw [hfield, formatParts, hgone field List.mem_cons_self hmem, Option.bind_some, ih]
        cases formatParts g (without gone parts) <;> rfl
      · have hfield : without gone (.field field :: parts) = .field field :: without gone parts := by
          apply List.filter_cons_of_pos
          rw [decide_eq_true_eq]
          intro m hm heq
          cases heq
          exact hmem (List.mem_map.mpr ⟨m, hm, rfl⟩)
        rw [hfield, formatParts, formatParts, hkept field List.mem_cons_self hmem, ih]

/-! ### Plain fields -/

theorem parse_append {a b : List Char} {parts parts' : List Part} (ha : parse a = some parts)
    (hb : parse b = some parts') : parse (a ++ b) = some (parts ++ parts') := by
  rw [parse_iff] at ha hb ⊢
  rw [run_append, ha, Option.bind_some]
  simp only [hb, Option.map_some]

/-- A text without braces stands for itself. -/
theorem parse_bare {text : List Char} (h : Bare text) : parse text = some (text.map .char) := by
  rw [parse_iff]
  induction text with
  | nil => rfl
  | cons c text ih =>
    have hc : c ≠ '\x7b' ∧ c ≠ '\x7d' :=
      ⟨fun heq => h.1 (heq ▸ List.mem_cons_self), fun heq => h.2 (heq ▸ List.mem_cons_self)⟩
    have hrest := ih ⟨fun hmem => h.1 (List.mem_cons_of_mem c hmem), fun hmem => h.2 (List.mem_cons_of_mem c hmem)⟩
    have hstep : State.step .between c = some (.between, [.char c]) := by
      rw [State.step, if_neg hc.1, if_neg hc.2]
    rw [run, hstep, Option.bind_some]
    simp only [hrest, Option.map_some]
    rfl

/-- A name without attributes and items, which is no number. -/
structure Values.Simple (n : List Char) : Prop where
  ne_nil : n ≠ []
  no_attr : '.' ∉ n
  no_item : '[' ∉ n
  no_number : n.all f.isDecimal = false

/-- The parts with the texts of their fields. -/
def fill (texts : List Char → List Char) (parts : List Part) : List Char :=
  parts.flatMap (fun
    | .char c => [c]
    | .field field => texts field.name)

theorem fill_append (texts : List Char → List Char) (parts parts' : List Part) :
    fill texts (parts ++ parts') = fill texts parts ++ fill texts parts' := List.flatMap_append

theorem fill_cons_field (texts : List Char → List Char) (n : List Char) (parts : List Part) :
    fill texts (.field (plain n) :: parts) = texts n ++ fill texts parts := rfl

theorem fill_chars (texts : List Char → List Char) (l : List Char) : fill texts (l.map .char) = l := by
  induction l with
  | nil => rfl
  | cons c l ih => exact congrArg (c :: ·) ih

/-- The fields are plain, and have the texts. -/
def Values.Reads (texts : List Char → List Char) (parts : List Part) : Prop :=
  ∀ field, .field field ∈ parts → field = plain field.name ∧ f.Simple field.name ∧
    ∃ v, kwargs.get? field.name = some v ∧ f.format v [] = some (texts field.name)

theorem get_field_simple {n : List Char} (h : f.Simple n) : f.getField kwargs n = kwargs.get? n := by
  have hchars : ∀ c ∈ n, decide (c ≠ '.' ∧ c ≠ '[') = true := by
    intro c hc
    rw [decide_eq_true_eq]
    refine ⟨?_, ?_⟩
    · rintro rfl
      exact h.no_attr hc
    · rintro rfl
      exact h.no_item hc
  have hfirst : n.takeWhile (fun c => c ≠ '.' ∧ c ≠ '[') = n := List.takeWhile_eq_self_iff.mpr hchars
  have hrest : n.dropWhile (fun c => c ≠ '.' ∧ c ≠ '[') = [] := List.dropWhile_eq_nil_iff.mpr hchars
  rw [Values.getField]
  simp only [hfirst, hrest, h.ne_nil, h.no_number, readAccess, Bool.false_eq_true, and_false, or_false,
    if_false]
  cases kwargs.get? n <;> rfl

theorem format_plain {n text : List Char} {v : V} (hn : f.Simple n) (hv : kwargs.get? n = some v)
    (htext : f.format v [] = some text) (depth : Nat) :
    f.formatField kwargs (f.vformat kwargs (depth + 1)) (plain n) = some text := by
  have hspec : f.vformat kwargs (depth + 1) [] = some [] := rfl
  have hget : f.getField kwargs (plain n).name = some v := (get_field_simple f kwargs hn).trans hv
  rw [Values.formatField, hget]
  simp [plain, Values.convertField, hspec, htext]

theorem format_fill {g : Field → Option (List Char)} {texts : List Char → List Char} {parts : List Part}
    (h : ∀ field, .field field ∈ parts → g field = some (texts field.name)) :
    formatParts g parts = some (fill texts parts) := by
  induction parts with
  | nil => rfl
  | cons p parts ih =>
    have hrest := ih (fun field hfield => h field (List.mem_cons_of_mem p hfield))
    cases p with
    | char c =>
      rw [formatParts, hrest]
      rfl
    | field field =>
      rw [formatParts, h field List.mem_cons_self, hrest]
      rfl

end CheshireCat.Base.Markup
