import Mathlib.Data.List.Nodup

namespace CheshireCat.Base

/-- The memberships of texts in lists share one proof that texts are compared lawfully. -/
instance lawfulText : LawfulBEq (List Char) := inferInstance

/-- A dictionary that iterates in insertion order. Assigning to a key that is
present keeps its place. -/
structure Dict (κ α : Type) where
  entries : List (κ × α)
  distinct : (entries.map Prod.fst).Nodup

namespace Dict

variable {κ α : Type}

@[ext]
theorem ext {d e : Dict κ α} (h : d.entries = e.entries) : d = e := by
  cases d; cases e; cases h; rfl

instance [DecidableEq κ] [DecidableEq α] : DecidableEq (Dict κ α) :=
  fun d e => decidable_of_iff (d.entries = e.entries) ⟨ext, congrArg entries⟩

def empty : Dict κ α := ⟨[], List.nodup_nil⟩

instance : Inhabited (Dict κ α) := ⟨empty⟩

def keys (d : Dict κ α) : List κ := d.entries.map Prod.fst

def values (d : Dict κ α) : List α := d.entries.map Prod.snd

variable [DecidableEq κ]

def get? (d : Dict κ α) (k : κ) : Option α :=
  (d.entries.find? (fun p => p.1 == k)).map Prod.snd

/-- Assignment on the bare list of entries. -/
def assign (k : κ) (v : α) (l : List (κ × α)) : List (κ × α) :=
  if k ∈ l.map Prod.fst then l.map (fun p => if p.1 = k then (k, v) else p) else l ++ [(k, v)]

theorem assign_keys (k : κ) (v : α) (l : List (κ × α)) :
    (assign k v l).map Prod.fst =
      if k ∈ l.map Prod.fst then l.map Prod.fst else l.map Prod.fst ++ [k] := by
  unfold assign
  split
  · rw [List.map_map]
    apply List.map_congr_left
    intro p _
    by_cases h : p.1 = k <;> simp [h]
  · simp

def set (d : Dict κ α) (k : κ) (v : α) : Dict κ α where
  entries := assign k v d.entries
  distinct := by
    rw [assign_keys]
    split
    · exact d.distinct
    · rename_i h
      exact List.nodup_append.mpr ⟨d.distinct, List.nodup_singleton k, by
        intro a ha b hb hab
        rw [List.mem_singleton.mp hb] at hab
        exact h (hab ▸ ha)⟩

def erase (d : Dict κ α) (k : κ) : Dict κ α where
  entries := d.entries.filter (fun p => p.1 ≠ k)
  distinct := d.distinct.sublist (List.filter_sublist.map Prod.fst)

/-- The entries whose key satisfies `p`. -/
def restrict (d : Dict κ α) (p : κ → Bool) : Dict κ α where
  entries := d.entries.filter (fun e => p e.1)
  distinct := d.distinct.sublist (List.filter_sublist.map Prod.fst)

/-- The entries whose value does not satisfy `p`. -/
def removeWhere (d : Dict κ α) (p : α → Bool) : Dict κ α where
  entries := d.entries.filter (fun e => ¬ p e.2)
  distinct := d.distinct.sublist (List.filter_sublist.map Prod.fst)

def mapValues {β : Type} (f : α → β) (d : Dict κ α) : Dict κ β where
  entries := d.entries.map (fun p => (p.1, f p.2))
  distinct := by
    rw [List.map_map]
    exact d.distinct

/-- `d | e`: the entries of `e` are assigned one after the other. -/
def update (d e : Dict κ α) : Dict κ α :=
  e.entries.foldl (fun acc p => acc.set p.1 p.2) d

/-- `d[k].append(v)`, on a dictionary of lists that starts with empty ones. -/
def push (d : Dict κ (List α)) (k : κ) (v : α) : Dict κ (List α) :=
  d.set k ((d.get? k).getD [] ++ [v])

def ofList (l : List (κ × α)) : Dict κ α :=
  l.foldl (fun acc p => acc.set p.1 p.2) empty

@[simp] theorem get?_empty (k : κ) : (empty : Dict κ α).get? k = none := rfl

theorem keys_set (d : Dict κ α) (k : κ) (v : α) :
    (d.set k v).keys = if k ∈ d.keys then d.keys else d.keys ++ [k] :=
  assign_keys k v d.entries

@[simp] theorem mem_keys_set (d : Dict κ α) (k k' : κ) (v : α) :
    k' ∈ (d.set k v).keys ↔ k' = k ∨ k' ∈ d.keys := by
  rw [keys_set]
  split
  · rename_i h
    constructor
    · exact Or.inr
    · intro hx
      rcases hx with rfl | hk
      · exact h
      · exact hk
  · simp [or_comm]

theorem entries_set_new (d : Dict κ α) {k : κ} (v : α) (h : k ∉ d.keys) :
    (d.set k v).entries = d.entries ++ [(k, v)] :=
  if_neg h

theorem mem_assign (k : κ) (v : α) (l : List (κ × α)) (k' : κ) (v' : α) :
    (k', v') ∈ assign k v l ↔ (k' = k ∧ v' = v) ∨ (k' ≠ k ∧ (k', v') ∈ l) := by
  unfold assign
  split
  · rename_i h
    rw [List.mem_map]
    constructor
    · intro hx
      obtain ⟨p, hp, he⟩ := hx
      by_cases hk : p.1 = k
      · rw [if_pos hk, Prod.mk.injEq] at he
        exact Or.inl ⟨he.1.symm, he.2.symm⟩
      · rw [if_neg hk] at he
        subst he
        exact Or.inr ⟨hk, hp⟩
    · intro hx
      rcases hx with ⟨rfl, rfl⟩ | ⟨hk, hm⟩
      · obtain ⟨p, hp, he⟩ := List.mem_map.mp h
        exact ⟨p, hp, if_pos he⟩
      · exact ⟨_, hm, if_neg hk⟩
  · rename_i h
    rw [List.mem_append, List.mem_singleton, Prod.mk.injEq]
    constructor
    · intro hx
      rcases hx with hm | he
      · exact Or.inr ⟨fun e => h (e ▸ List.mem_map_of_mem hm), hm⟩
      · exact Or.inl he
    · intro hx
      rcases hx with he | ⟨_, hm⟩
      · exact Or.inr he
      · exact Or.inl hm

/-- A lookup on the bare list finds the assigned value, also where a key is repeated. -/
theorem lookup_assign (k : κ) (v : α) (l : List (κ × α)) (k' : κ) :
    ((assign k v l).find? (fun p => p.1 == k')).map Prod.snd =
      if k' = k then some v else (l.find? (fun p => p.1 == k')).map Prod.snd := by
  have missing : k ∉ l.map Prod.fst → l.find? (fun p => p.1 == k) = none := by
    intro h
    rw [List.find?_eq_none]
    intro p hp he
    exact h (List.mem_map.mpr ⟨p, hp, by simpa using he⟩)
  unfold assign
  split
  · rename_i h
    -- the assignment changes no key
    have hkeys : (fun p : κ × α => p.1 == k') ∘ (fun p => if p.1 = k then (k, v) else p) =
        fun p => p.1 == k' := by
      funext p
      by_cases hp : p.1 = k <;> simp [hp]
    rw [List.find?_map, hkeys]
    cases hf : l.find? (fun p => p.1 == k') with
    | none =>
      have hne : k' ≠ k := by
        rintro rfl
        obtain ⟨p, hp, he⟩ := List.mem_map.mp h
        exact List.find?_eq_none.mp hf p hp (by simpa using he)
      simp [hne]
    | some q =>
      have hq : q.1 = k' := by simpa using List.find?_some hf
      by_cases hk : k' = k <;> simp [hq, hk]
  · rename_i h
    rw [List.find?_append]
    by_cases hk : k' = k
    · subst hk
      simp [missing h]
    · simp [hk, Ne.symm hk]

theorem get?_eq_some_iff (d : Dict κ α) (k : κ) (v : α) :
    d.get? k = some v ↔ (k, v) ∈ d.entries := by
  constructor
  · intro h
    obtain ⟨⟨k', v'⟩, hf, rfl⟩ := Option.map_eq_some_iff.mp h
    have hk : k' = k := by simpa using List.find?_some hf
    exact hk ▸ List.mem_of_find?_eq_some hf
  · intro h
    obtain ⟨l, hd⟩ := d
    change (k, v) ∈ l at h
    change (l.find? (fun p => p.1 == k)).map Prod.snd = some v
    induction l with
    | nil => cases h
    | cons p ps ih =>
      have hn := List.nodup_cons.mp hd
      rcases List.mem_cons.mp h with rfl | hm
      · simp
      · have hne : p.1 ≠ k := by
          intro he
          exact hn.1 (he ▸ List.mem_map.mpr ⟨(k, v), hm, rfl⟩)
        rw [List.find?_cons, beq_eq_false_iff_ne.mpr hne]
        exact ih hn.2 hm

theorem get?_set (d : Dict κ α) (k k' : κ) (v : α) :
    (d.set k v).get? k' = if k' = k then some v else d.get? k' := by
  apply Option.ext
  intro w
  rw [get?_eq_some_iff]
  change (k', w) ∈ assign k v d.entries ↔ _
  rw [mem_assign]
  by_cases h : k' = k
  · simp [h, eq_comm]
  · simp [h, get?_eq_some_iff]

@[simp] theorem get?_set_self (d : Dict κ α) (k : κ) (v : α) : (d.set k v).get? k = some v := by
  simp [get?_set]

theorem get?_set_other (d : Dict κ α) {k k' : κ} (v : α) (h : k' ≠ k) :
    (d.set k v).get? k' = d.get? k' := by
  simp [get?_set, h]

theorem mem_keys_iff (d : Dict κ α) (k : κ) : k ∈ d.keys ↔ ∃ v, d.get? k = some v := by
  constructor
  · intro h
    obtain ⟨⟨k', v⟩, hp, rfl⟩ := List.mem_map.mp h
    exact ⟨v, (d.get?_eq_some_iff k' v).mpr hp⟩
  · intro hx
    obtain ⟨v, h⟩ := hx
    exact List.mem_map.mpr ⟨(k, v), (d.get?_eq_some_iff k v).mp h, rfl⟩

theorem mem_values_of_get? {d : Dict κ α} {k : κ} {v : α} (h : d.get? k = some v) :
    v ∈ d.values :=
  List.mem_map.mpr ⟨(k, v), (d.get?_eq_some_iff k v).mp h, rfl⟩

theorem assign_assign (k : κ) (v v' : α) (l : List (κ × α)) :
    assign k v' (assign k v l) = assign k v' l := by
  have hk : k ∈ (assign k v l).map Prod.fst := by
    rw [assign_keys]
    split <;> simp_all
  rw [assign, if_pos hk]
  unfold assign
  split
  · rw [List.map_map]
    apply List.map_congr_left
    intro p _
    by_cases h : p.1 = k <;> simp [h]
  · rename_i h
    have hmap : l.map (fun p => if p.1 = k then (k, v') else p) = l.map id := by
      apply List.map_congr_left
      intro p hp
      have hne : p.1 ≠ k := fun he => h (he ▸ List.mem_map_of_mem hp)
      exact if_neg hne
    rw [List.map_append, hmap]
    simp

theorem set_set (d : Dict κ α) (k : κ) (v v' : α) : (d.set k v).set k v' = d.set k v' :=
  ext (assign_assign k v v' d.entries)

theorem mem_keys_foldl_set {β : Type} (key : β → κ) (value : β → α) (l : List β) (d : Dict κ α)
    (k : κ) : k ∈ (l.foldl (fun acc b => acc.set (key b) (value b)) d).keys ↔
      (∃ b ∈ l, key b = k) ∨ k ∈ d.keys := by
  induction l generalizing d with
  | nil => simp
  | cons b bs ih =>
    rw [List.foldl_cons, ih, mem_keys_set, List.exists_mem_cons_iff, eq_comm (a := k),
      or_left_comm, or_assoc]

/-- A key that is found after a series of assignments was assigned, or was
there before. -/
theorem get?_foldl_set {β : Type} (key : β → κ) (value : β → α) {l : List β} {d : Dict κ α} {k : κ}
    {v : α} (h : (l.foldl (fun acc b => acc.set (key b) (value b)) d).get? k = some v) :
    (∃ b ∈ l, key b = k ∧ value b = v) ∨ d.get? k = some v := by
  induction l generalizing d with
  | nil => exact Or.inr h
  | cons b bs ih =>
    rcases ih h with ⟨c, hc, hk⟩ | hd
    · exact Or.inl ⟨c, List.mem_cons_of_mem b hc, hk⟩
    · rw [get?_set] at hd
      split at hd
      · rename_i hk
        exact Or.inl ⟨b, List.mem_cons_self, hk.symm, Option.some.inj hd⟩
      · exact Or.inr hd

theorem get?_foldl_set_other {β : Type} (key : β → κ) (value : β → α) {l : List β} {d : Dict κ α}
    {k : κ} (h : ∀ b ∈ l, key b ≠ k) :
    (l.foldl (fun acc b => acc.set (key b) (value b)) d).get? k = d.get? k := by
  induction l generalizing d with
  | nil => rfl
  | cons b bs ih =>
    rw [List.foldl_cons, ih (fun c hc => h c (List.mem_cons_of_mem b hc)),
      get?_set_other d (value b) (h b List.mem_cons_self).symm]

/-- A list of entries with distinct keys is found entry by entry. -/
theorem get?_ofList {l : List (κ × α)} (h : (l.map Prod.fst).Nodup) {k : κ} {v : α} (hmem : (k, v) ∈ l) :
    (ofList l).get? k = some v := by
  have hfrom : ∀ d : Dict κ α, (l.foldl (fun acc p => acc.set p.1 p.2) d).get? k = some v := by
    induction l with
    | nil => cases hmem
    | cons p l ih =>
      intro d
      rw [List.map_cons, List.nodup_cons] at h
      rcases List.mem_cons.mp hmem with rfl | hmem
      · have hrest : ∀ q ∈ l, q.1 ≠ k := by
          intro q hq heq
          exact h.1 (List.mem_map.mpr ⟨q, hq, heq⟩)
        rw [List.foldl_cons, get?_foldl_set_other Prod.fst Prod.snd hrest, get?_set_self]
      · exact ih h.2 hmem _
  exact hfrom empty

theorem get?_erase (d : Dict κ α) (k k' : κ) :
    (d.erase k).get? k' = if k' = k then none else d.get? k' := by
  apply Option.ext
  intro w
  rw [get?_eq_some_iff]
  change (k', w) ∈ d.entries.filter (fun p => p.1 ≠ k) ↔ _
  rw [List.mem_filter]
  by_cases h : k' = k <;> simp [h, get?_eq_some_iff]

/-- What holds of every item holds after one more that it holds of. -/
theorem forall_set {P : κ → α → Prop} {d : Dict κ α} (h : ∀ k v, d.get? k = some v → P k v)
    {k : κ} {v : α} (hv : P k v) (k' : κ) (v' : α) (hget : (d.set k v).get? k' = some v') :
    P k' v' := by
  rw [get?_set] at hget
  split at hget
  · rename_i he
    rw [← Option.some.inj hget, he]
    exact hv
  · exact h k' v' hget

theorem forall_erase {P : κ → α → Prop} {d : Dict κ α} (h : ∀ k v, d.get? k = some v → P k v)
    (k k' : κ) (v' : α) (hget : (d.erase k).get? k' = some v') : P k' v' := by
  rw [get?_erase] at hget
  split at hget
  · cases hget
  · exact h k' v' hget

theorem erase_absent (d : Dict κ α) {k : κ} (h : k ∉ d.keys) : d.erase k = d := by
  apply ext
  apply List.filter_eq_self.mpr
  intro p hp
  have hne : p.1 ≠ k := fun he => h (he ▸ List.mem_map_of_mem hp)
  exact decide_eq_true hne

theorem erase_eq_self_iff (d : Dict κ α) (k : κ) : d.erase k = d ↔ k ∉ d.keys := by
  refine ⟨?_, d.erase_absent⟩
  intro h hk
  obtain ⟨v, hv⟩ := (d.mem_keys_iff k).mp hk
  rw [← h, get?_erase, if_pos rfl] at hv
  cases hv

omit [DecidableEq κ] in
theorem removeWhere_eq_self_iff (d : Dict κ α) (p : α → Bool) :
    d.removeWhere p = d ↔ ∀ v ∈ d.values, p v = false := by
  rw [Dict.ext_iff, values]
  change d.entries.filter _ = d.entries ↔ _
  simp only [List.filter_eq_self, List.mem_map, Prod.exists, Bool.not_eq_true, decide_eq_true_eq]
  constructor
  · rintro h v ⟨k, v', hmem, rfl⟩
    exact h ⟨k, v'⟩ hmem
  · intro h e hmem
    exact h e.2 ⟨e.1, e.2, hmem, rfl⟩

theorem length_set_le (d : Dict κ α) (k : κ) (v : α) :
    (d.set k v).entries.length ≤ d.entries.length + 1 := by
  change (assign k v d.entries).length ≤ d.entries.length + 1
  unfold assign
  split
  · rw [List.length_map]
    omega
  · rw [List.length_append]
    exact Nat.le_refl _

/-- Erasing the keys of some of the entries leaves the others. -/
theorem foldl_erase_perm (d : Dict κ α) {gone stay : List (κ × α)}
    (h : (gone ++ stay).Perm d.entries) :
    stay.Perm (gone.foldl (fun d p => d.erase p.1) d).entries := by
  induction gone generalizing d with
  | nil => exact h
  | cons p gone ih =>
    apply ih
    have hnodup : ((p :: (gone ++ stay)).map Prod.fst).Nodup :=
      (h.map Prod.fst).nodup_iff.mpr d.distinct
    have hp : p.1 ∉ (gone ++ stay).map Prod.fst := (List.nodup_cons.mp hnodup).1
    have hfilter : (p :: (gone ++ stay)).filter (fun q => q.1 ≠ p.1) = gone ++ stay := by
      rw [List.filter_cons_of_neg (by simp)]
      apply List.filter_eq_self.mpr
      intro q hq
      have hne : q.1 ≠ p.1 := fun he => hp (he ▸ List.mem_map_of_mem hq)
      exact decide_eq_true hne
    rw [← hfilter]
    exact h.filter _

theorem get?_restrict (d : Dict κ α) (p : κ → Bool) (k : κ) :
    (d.restrict p).get? k = if p k then d.get? k else none := by
  apply Option.ext
  intro v
  rw [get?_eq_some_iff]
  change (k, v) ∈ d.entries.filter (fun e => p e.1) ↔ _
  rw [List.mem_filter]
  by_cases h : p k <;> simp [h, get?_eq_some_iff]

theorem get?_mapValues {β : Type} (f : α → β) (d : Dict κ α) (k : κ) :
    (d.mapValues f).get? k = (d.get? k).map f := by
  obtain ⟨l, hd⟩ := d
  change ((l.map (fun p => (p.1, f p.2))).find? (fun p => p.1 == k)).map Prod.snd =
    ((l.find? (fun p => p.1 == k)).map Prod.snd).map f
  rw [List.find?_map, Option.map_map, Option.map_map]
  rfl

/-- Grouping a list by a key keeps the order in each group. -/
theorem get?_foldl_push (key : α → κ) (l : List α) (d : Dict κ (List α)) (k : κ) :
    (l.foldl (fun acc a => acc.push (key a) a) d).get? k =
      if ∃ a ∈ l, key a = k then some ((d.get? k).getD [] ++ l.filter (fun a => key a = k))
      else d.get? k := by
  induction l generalizing d with
  | nil => simp
  | cons a l ih =>
    rw [List.foldl_cons, ih, push, get?_set]
    by_cases h : key a = k
    · subst h
      by_cases hl : ∃ b ∈ l, key b = key a
      · simp [hl]
      · have hnil : l.filter (fun b => key b = key a) = [] := by
          rw [List.filter_eq_nil_iff]
          intro b hb
          simpa using fun hk => hl ⟨b, hb, hk⟩
        simp [hl, hnil]
    · simp [h, Ne.symm h]

theorem mem_entries_set (d : Dict κ α) (k : κ) (v : α) (p : κ × α) :
    p ∈ (d.set k v).entries ↔ p = (k, v) ∨ (p.1 ≠ k ∧ p ∈ d.entries) := by
  rw [Prod.ext_iff]
  exact mem_assign k v d.entries p.1 p.2

theorem mem_entries_erase (d : Dict κ α) (k : κ) (p : κ × α) :
    p ∈ (d.erase k).entries ↔ p.1 ≠ k ∧ p ∈ d.entries := by
  rw [erase, List.mem_filter, and_comm, decide_eq_true_iff]

omit [DecidableEq κ] in
theorem entries_nodup (d : Dict κ α) : d.entries.Nodup := List.Nodup.of_map _ d.distinct

/-- Up to the order, an assignment puts one entry in the place of those of its key. -/
theorem set_perm_erase (d : Dict κ α) (k : κ) (v : α) :
    (d.set k v).entries.Perm ((k, v) :: (d.erase k).entries) := by
  have hnew : (k, v) ∉ (d.erase k).entries := fun h => ((mem_entries_erase d k _).mp h).1 rfl
  rw [List.perm_ext_iff_of_nodup (entries_nodup _)
    (List.nodup_cons.mpr ⟨hnew, entries_nodup (d.erase k)⟩)]
  intro p
  rw [mem_entries_set, List.mem_cons, mem_entries_erase]

theorem erase_set (d : Dict κ α) (k : κ) (v : α) : (d.set k v).erase k = d.erase k := by
  apply ext
  change (assign k v d.entries).filter _ = d.entries.filter _
  unfold assign
  split
  · rw [List.filter_map]
    have hsame : (fun p : κ × α => decide (p.1 ≠ k)) ∘ (fun p => if p.1 = k then (k, v) else p) =
        fun p => decide (p.1 ≠ k) := by
      funext p
      by_cases hp : p.1 = k <;> simp [hp]
    rw [hsame]
    conv_rhs => rw [← List.map_id (d.entries.filter _)]
    apply List.map_congr_left
    intro p hp
    exact if_neg (of_decide_eq_true (List.mem_filter.mp hp).2)
  · simp

theorem erase_erase (d : Dict κ α) (k : κ) : (d.erase k).erase k = d.erase k :=
  erase_absent _ (fun h => by simp [mem_keys_iff, get?_erase] at h)

end Dict

end CheshireCat.Base
