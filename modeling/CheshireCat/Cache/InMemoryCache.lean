import CheshireCat.Base.StableSort
import CheshireCat.Cache.BaseCache

namespace CheshireCat.Cache
open Base

variable {κ ν : Type} [DecidableEq κ]

structure InMemoryCache (κ ν : Type) where
  items : Dict κ (CacheItem κ ν)

namespace InMemoryCache

def maxItems : Nat := 100

def create : InMemoryCache κ ν := ⟨Dict.empty⟩

def delete (cache : InMemoryCache κ ν) (key : κ) : InMemoryCache κ ν :=
  if key ∈ cache.items.keys then ⟨cache.items.erase key⟩ else cache

def sortedItems (cache : InMemoryCache κ ν) : List (κ × CacheItem κ ν) :=
  sortAscending (fun x => x.2.createdAt) cache.items.entries

def insert (cache : InMemoryCache κ ν) (cacheItem : CacheItem κ ν) : InMemoryCache κ ν :=
  let cache : InMemoryCache κ ν := ⟨cache.items.set cacheItem.key cacheItem⟩
  if cache.items.entries.length ≥ maxItems then
    (cache.sortedItems.take (maxItems / 10)).foldl (fun cache e => cache.delete e.1) cache
  else cache

def getItem (cache : InMemoryCache κ ν) (key : κ) (now : Rat) :
    Option (CacheItem κ ν) × InMemoryCache κ ν :=
  match cache.items.get? key with
  | none => (none, cache)
  | some item => if item.isExpired now then (none, ⟨cache.items.erase key⟩) else (some item, cache)

def getValue (cache : InMemoryCache κ ν) (key : κ) (now : Rat) :
    Option ν × InMemoryCache κ ν :=
  match cache.getItem key now with
  | (some item, cache) => (some item.value, cache)
  | (none, cache) => (none, cache)

def step (cache : InMemoryCache κ ν) : Call κ ν → Answer κ ν × InMemoryCache κ ν
  | .insert cacheItem => (.done, cache.insert cacheItem)
  | .getItem key now => ((.item (cache.getItem key now).1), (cache.getItem key now).2)
  | .getValue key now => ((.value (cache.getValue key now).1), (cache.getValue key now).2)
  | .delete key => (.done, cache.delete key)

/-! ### Bound and eviction -/

/-- The entries that are left out are `n`, and none was created after one that stays. -/
def EvictsOldest (n : Nat) (before after : Dict κ (CacheItem κ ν)) : Prop :=
  ∃ evicted : List (κ × CacheItem κ ν), evicted.length = n ∧
    (evicted ++ after.entries).Perm before.entries ∧
    ∀ e ∈ evicted, ∀ e' ∈ after.entries, e.2.createdAt ≤ e'.2.createdAt

/-- There is room for one more item, and every item is under its own key. -/
structure Bounded (cache : InMemoryCache κ ν) : Prop where
  room : cache.items.entries.length < maxItems
  keyed : ∀ e ∈ cache.items.entries, e.2.key = e.1

theorem delete_items (cache : InMemoryCache κ ν) (key : κ) :
    (cache.delete key).items = cache.items.erase key := by
  unfold delete
  split
  · rfl
  · rename_i h
    exact (Dict.erase_absent _ h).symm

theorem delete_all_items (cache : InMemoryCache κ ν) (l : List (κ × CacheItem κ ν)) :
    (l.foldl (fun cache e => cache.delete e.1) cache).items =
      l.foldl (fun d e => d.erase e.1) cache.items := by
  induction l generalizing cache with
  | nil => rfl
  | cons e l ih => rw [List.foldl_cons, ih, delete_items, List.foldl_cons]

theorem get_item_items (cache : InMemoryCache κ ν) (key : κ) (now : Rat) :
    cache.getItem key now = ((lookup cache.items key now).1, ⟨(lookup cache.items key now).2⟩) := by
  unfold getItem lookup
  cases cache.items.get? key with
  | none => rfl
  | some item =>
    dsimp only
    split <;> rfl

theorem get_value_items (cache : InMemoryCache κ ν) (key : κ) (now : Rat) :
    cache.getValue key now =
      ((lookup cache.items key now).1.map CacheItem.value, ⟨(lookup cache.items key now).2⟩) := by
  unfold getValue
  rw [get_item_items]
  cases (lookup cache.items key now).1 <;> rfl

/-- The oldest items are those at the front of the sorted list. -/
theorem sorted_items_evicted (cache : InMemoryCache κ ν) {n : Nat}
    (h : n ≤ cache.items.entries.length) :
    EvictsOldest n cache.items
      ((cache.sortedItems.take n).foldl (fun cache e => cache.delete e.1) cache).items := by
  have hperm : (cache.sortedItems.take n ++ cache.sortedItems.drop n).Perm cache.items.entries := by
    rw [List.take_append_drop]
    exact sort_ascending_perm _ _
  have hstay := Dict.foldl_erase_perm cache.items hperm
  rw [← delete_all_items] at hstay
  refine ⟨cache.sortedItems.take n, ?_, (hstay.symm.append_left _).trans hperm, ?_⟩
  · rw [List.length_take, sortedItems, (sort_ascending_perm _ _).length_eq, Nat.min_eq_left h]
  · intro e he e' he'
    have hsorted := sort_ascending_pairwise (fun x : κ × CacheItem κ ν => x.2.createdAt)
      cache.items.entries
    rw [← List.take_append_drop n (sortAscending _ _), List.pairwise_append] at hsorted
    exact hsorted.2.2 e he e' (hstay.mem_iff.mpr he')

/-- An insert evicts nothing where there is room, and a tenth otherwise. -/
theorem insert_items (cache : InMemoryCache κ ν) (cacheItem : CacheItem κ ν) :
    ((cache.items.set cacheItem.key cacheItem).entries.length < maxItems ∧
      (cache.insert cacheItem).items = cache.items.set cacheItem.key cacheItem) ∨
    (maxItems ≤ (cache.items.set cacheItem.key cacheItem).entries.length ∧
      EvictsOldest 10 (cache.items.set cacheItem.key cacheItem)
        (cache.insert cacheItem).items) := by
  unfold insert
  dsimp only
  split
  · rename_i hfull
    refine Or.inr ⟨hfull, sorted_items_evicted ⟨cache.items.set cacheItem.key cacheItem⟩ ?_⟩
    exact le_trans (by decide) hfull
  · rename_i hroom
    exact Or.inl ⟨Nat.lt_of_not_le hroom, rfl⟩

theorem set_keyed {items : Dict κ (CacheItem κ ν)} (h : ∀ e ∈ items.entries, e.2.key = e.1)
    (cacheItem : CacheItem κ ν) :
    ∀ e ∈ (items.set cacheItem.key cacheItem).entries, e.2.key = e.1 := by
  intro e he
  rcases (Dict.mem_assign cacheItem.key cacheItem items.entries e.1 e.2).mp he with
    ⟨hkey, hitem⟩ | ⟨_, hold⟩
  · rw [hkey, hitem]
  · exact h e hold

omit [DecidableEq κ] in
/-- A part of a bounded cache is bounded. -/
theorem Bounded.part {cache cache' : InMemoryCache κ ν} (h : cache.Bounded)
    (hpart : cache'.items.entries.Sublist cache.items.entries) : cache'.Bounded :=
  ⟨lt_of_le_of_lt hpart.length_le h.room, fun e he => h.keyed e (hpart.subset he)⟩

theorem Bounded.insert {cache : InMemoryCache κ ν} (h : cache.Bounded)
    (cacheItem : CacheItem κ ν) : (cache.insert cacheItem).Bounded := by
  have hkeyed := set_keyed h.keyed cacheItem
  rcases cache.insert_items cacheItem with ⟨hroom, hitems⟩ | ⟨_, evicted, hlength, hperm, _⟩
  · exact ⟨by rw [hitems]; exact hroom, by rw [hitems]; exact hkeyed⟩
  · refine ⟨?_, fun e he => hkeyed e (hperm.subset (List.mem_append_right _ he))⟩
    have hset := Dict.length_set_le cache.items cacheItem.key cacheItem
    have hall := hperm.length_eq
    have hroom := h.room
    rw [List.length_append] at hall
    omega

theorem lookup_part (items : Dict κ (CacheItem κ ν)) (key : κ) (now : Rat) :
    (lookup items key now).2.entries.Sublist items.entries := by
  unfold lookup
  split
  · exact List.Sublist.refl _
  · split
    · exact List.filter_sublist
    · exact List.Sublist.refl _

theorem Bounded.step {cache : InMemoryCache κ ν} (h : cache.Bounded) (call : Call κ ν) :
    (cache.step call).2.Bounded := by
  cases call with
  | insert cacheItem => exact h.insert cacheItem
  | getItem key now =>
    apply h.part
    rw [InMemoryCache.step, get_item_items]
    exact lookup_part cache.items key now
  | getValue key now =>
    apply h.part
    rw [InMemoryCache.step, get_value_items]
    exact lookup_part cache.items key now
  | delete key =>
    apply h.part
    rw [InMemoryCache.step, delete_items]
    exact List.filter_sublist

omit [DecidableEq κ] in
theorem create_bounded : (create : InMemoryCache κ ν).Bounded :=
  ⟨Nat.zero_lt_succ 99, fun _ he => absurd he List.not_mem_nil⟩

/-- After any calls the cache holds at most 99 items, each under its own key, and an
insert evicts nothing or the ten oldest. -/
theorem bounded_evicts_oldest (calls : List (Call κ ν)) :
    (after step create calls).items.entries.length ≤ 99 ∧
    (∀ key item, (after step create calls).items.get? key = some item → item.key = key) ∧
    ∀ cacheItem : CacheItem κ ν,
      ((after step create calls).insert cacheItem).items =
        (after step create calls).items.set cacheItem.key cacheItem ∨
      EvictsOldest 10 ((after step create calls).items.set cacheItem.key cacheItem)
        ((after step create calls).insert cacheItem).items := by
  have hbounded : (after step (create : InMemoryCache κ ν) calls).Bounded :=
    after_keeps (I := Bounded) (fun _ call h => Bounded.step h call) calls create_bounded
  refine ⟨Nat.le_of_lt_succ hbounded.room, ?_, ?_⟩
  · intro key item hget
    exact hbounded.keyed _ ((Dict.get?_eq_some_iff _ _ _).mp hget)
  · intro cacheItem
    exact (insert_items _ cacheItem).imp And.right And.right

/-! ### Reading what was inserted -/

/-- The item is read back under its key, and the keys that stay keep their items. -/
structure Inserted (cache : InMemoryCache κ ν) (cacheItem : CacheItem κ ν) (now : Rat) : Prop where
  item : ((cache.insert cacheItem).getItem cacheItem.key now).1 = some cacheItem
  value : ((cache.insert cacheItem).getValue cacheItem.key now).1 = some cacheItem.value
  others : ∀ key ∈ (cache.insert cacheItem).items.keys, key ≠ cacheItem.key →
    (cache.insert cacheItem).items.get? key = cache.items.get? key

theorem lookup_fresh {cacheItem : CacheItem κ ν} {now : Rat} (h : cacheItem.isExpired now = false)
    (items : Dict κ (CacheItem κ ν)) (key : κ) :
    (lookup items key now).1 = some cacheItem ↔ items.get? key = some cacheItem := by
  unfold lookup
  cases items.get? key with
  | none => exact Iff.rfl
  | some item =>
    dsimp only
    split
    · rename_i hexpired
      apply iff_of_false (fun hnone => by cases hnone)
      intro hitem
      rw [Option.some.inj hitem, h] at hexpired
      cases hexpired
    · exact Iff.rfl

/-- What stays was there, or has just been inserted. -/
theorem insert_subset (cache : InMemoryCache κ ν) (cacheItem : CacheItem κ ν) :
    (cache.insert cacheItem).items.entries ⊆ (cache.items.set cacheItem.key cacheItem).entries := by
  rcases cache.insert_items cacheItem with ⟨_, hitems⟩ | ⟨_, evicted, _, hperm, _⟩
  · rw [hitems]
    exact List.Subset.refl _
  · exact fun e he => hperm.subset (List.mem_append_right _ he)

theorem inserted_iff {cacheItem : CacheItem κ ν} {now : Rat} (h : cacheItem.isExpired now = false)
    (cache : InMemoryCache κ ν) :
    cache.Inserted cacheItem now ↔
      (cacheItem.key, cacheItem) ∈ (cache.insert cacheItem).items.entries := by
  rw [← Dict.get?_eq_some_iff, ← lookup_fresh h]
  constructor
  · intro hinserted
    have hitem := hinserted.item
    rw [get_item_items] at hitem
    exact hitem
  · intro hlookup
    refine ⟨?_, ?_, ?_⟩
    · rw [get_item_items]
      exact hlookup
    · rw [get_value_items, hlookup]
      rfl
    · intro key hkey hother
      obtain ⟨item, hget⟩ := (Dict.mem_keys_iff _ key).mp hkey
      have hmem := insert_subset cache cacheItem ((Dict.get?_eq_some_iff _ _ _).mp hget)
      rw [hget, ← Dict.get?_set_other cache.items cacheItem hother]
      exact ((Dict.get?_eq_some_iff _ _ _).mpr hmem).symm

theorem mem_drop_middle {α : Type} {pre post : List α} {a : α} (h : a ∉ pre ++ post) (n : Nat) :
    a ∈ (pre ++ a :: post).drop n ↔ n ≤ pre.length := by
  rw [List.mem_append, not_or] at h
  rw [List.drop_append, List.mem_append, or_iff_right (fun hmem => h.1 (List.mem_of_mem_drop hmem))]
  by_cases hn : n ≤ pre.length
  · rw [Nat.sub_eq_zero_of_le hn]
    exact iff_of_true (List.mem_cons_self ..) hn
  · refine iff_of_false ?_ hn
    obtain ⟨k, hk⟩ : ∃ k, n - pre.length = k + 1 := ⟨n - pre.length - 1, by omega⟩
    rw [hk, List.drop_succ_cons]
    exact fun hmem => h.2 (List.mem_of_mem_drop hmem)

/-- An item with a new key stays in a full cache where ten are not younger. -/
theorem stays_in_full {cache : InMemoryCache κ ν} {cacheItem : CacheItem κ ν}
    (hkey : cacheItem.key ∉ cache.items.keys) (hfull : maxItems ≤ cache.items.entries.length + 1) :
    (cacheItem.key, cacheItem) ∈ (cache.insert cacheItem).items.entries ↔
      10 ≤ (cache.items.entries.filter (fun e => e.2.createdAt ≤ cacheItem.createdAt)).length := by
  have hentries := cache.items.entries_set_new cacheItem hkey
  have hnew : (cacheItem.key, cacheItem) ∉ cache.items.entries :=
    fun hmem => hkey (List.mem_map_of_mem hmem)
  obtain ⟨pre, post, hsorted, hperm, hpre, hpost⟩ :=
    sort_ascending_last (fun e : κ × CacheItem κ ν => e.2.createdAt) hnew
  have hout : (cacheItem.key, cacheItem) ∉ pre ++ post := fun hmem => hnew (hperm.mem_iff.mp hmem)
  have hcount : (cache.items.entries.filter (fun e => e.2.createdAt ≤ cacheItem.createdAt)).length =
      pre.length := by
    rw [← (hperm.filter _).length_eq, List.filter_append, List.filter_eq_self.mpr
      (fun e he => decide_eq_true (hpre e he)), List.filter_eq_nil_iff.mpr
      (fun e he hle => absurd (of_decide_eq_true hle) (not_le_of_gt (hpost e he))), List.append_nil]
  have hinsert : (cache.insert cacheItem).items = ((pre ++ (cacheItem.key, cacheItem) :: post).take 10).foldl
      (fun d e => d.erase e.1) (cache.items.set cacheItem.key cacheItem) := by
    unfold insert
    dsimp only
    rw [if_pos (by rw [hentries, List.length_append]; exact hfull), delete_all_items, sortedItems, hentries,
      hsorted]
    rfl
  have hall : ((pre ++ (cacheItem.key, cacheItem) :: post).take 10 ++
      (pre ++ (cacheItem.key, cacheItem) :: post).drop 10).Perm
      (cache.items.set cacheItem.key cacheItem).entries := by
    rw [List.take_append_drop, hentries, ← hsorted]
    exact sort_ascending_perm _ _
  rw [hinsert, ← (Dict.foldl_erase_perm _ hall).mem_iff, hcount]
  exact mem_drop_middle hout 10

/-- In every cache that calls lead to, an item that is not expired is read back after it is inserted
exactly where its key is present, there is room for another item, or ten items are not younger. -/
theorem inserted_item_read (calls : List (Call κ ν)) (cacheItem : CacheItem κ ν) (now : Rat)
    (h : cacheItem.isExpired now = false) :
    (after step create calls).Inserted cacheItem now ↔
      cacheItem.key ∈ (after step create calls).items.keys ∨
      (after step create calls).items.entries.length + 1 < maxItems ∨
      10 ≤ ((after step create calls).items.entries.filter
        (fun e => e.2.createdAt ≤ cacheItem.createdAt)).length := by
  have hroom := (after_keeps (I := Bounded) (fun _ call h => Bounded.step h call) calls
    (create_bounded (κ := κ) (ν := ν))).room
  generalize after step create calls = cache at hroom ⊢
  rw [inserted_iff h]
  have hset : (cacheItem.key, cacheItem) ∈ (cache.items.set cacheItem.key cacheItem).entries :=
    (Dict.get?_eq_some_iff _ _ _).mp (Dict.get?_set_self ..)
  by_cases hkey : cacheItem.key ∈ cache.items.keys
  · refine iff_of_true ?_ (Or.inl hkey)
    have hlength : (cache.items.set cacheItem.key cacheItem).entries.length = cache.items.entries.length := by
      have hkeys := congrArg List.length (Dict.keys_set cache.items cacheItem.key cacheItem)
      rw [if_pos hkey, Dict.keys, Dict.keys, List.length_map, List.length_map] at hkeys
      exact hkeys
    rcases cache.insert_items cacheItem with ⟨_, hitems⟩ | ⟨hfull, _⟩
    · rw [hitems]
      exact hset
    · omega
  · rw [or_iff_right hkey]
    have hlength : (cache.items.set cacheItem.key cacheItem).entries.length =
        cache.items.entries.length + 1 := by
      rw [Dict.entries_set_new _ _ hkey, List.length_append, List.length_singleton]
    by_cases hfew : cache.items.entries.length + 1 < maxItems
    · refine iff_of_true ?_ (Or.inl hfew)
      rcases cache.insert_items cacheItem with ⟨_, hitems⟩ | ⟨hfull, _⟩
      · rw [hitems]
        exact hset
      · omega
    · rw [or_iff_right hfew]
      exact stays_in_full hkey (Nat.le_of_not_lt hfew)

theorem first_item_read :
    (after step (create : InMemoryCache Nat Nat) [.insert ⟨0, 7, none, 3⟩]).Inserted ⟨1, 8, some 5, 2⟩ 4 :=
  (inserted_item_read [.insert ⟨0, 7, none, 3⟩] ⟨1, 8, some 5, 2⟩ 4 (by decide +kernel)).mpr
    (Or.inr (Or.inl (by decide)))

/-- Items that were created after the one to come. -/
def laterItems : List (Call Nat Nat) :=
  (List.range 99).map (fun n => .insert ⟨n + 1, n, none, 1⟩)

/-- An item older than the 99 in the cache is the first that its own insertion evicts. -/
theorem oldest_item_lost :
    ((after step create laterItems).insert ⟨0, 7, none, 0⟩).items.get? 0 = none ∧
    ¬ (after step create laterItems).Inserted ⟨0, 7, none, 0⟩ 0 := by
  have hlost : ((after step create laterItems).insert ⟨0, 7, none, 0⟩).items.get? 0 = none := by
    decide +kernel
  refine ⟨hlost, ?_⟩
  intro h
  have hget : ((after step create laterItems).insert ⟨0, 7, none, 0⟩).items.get? 0 = some ⟨0, 7, none, 0⟩ :=
    (Dict.get?_eq_some_iff _ _ _).mpr ((inserted_iff rfl _).mp h)
  rw [hlost] at hget
  cases hget

/-! ### The dictionary -/

/-- As long as fewer than 100 keys are present, the cache is the dictionary that forgets. -/
theorem answers_forgetting {items : Dict κ (CacheItem κ ν)} {calls : List (Call κ ν)}
    (few : Always forgettingDict (fun d => d.entries.length < maxItems) items calls) :
    answers step ⟨items⟩ calls = answers forgettingDict items calls := by
  refine answers_eq (R := fun cache d => cache.items = d) (Q := fun _ => True) ?_
    (fun _ _ => trivial) few rfl
  rintro cache d call - rfl hfew
  cases call with
  | insert cacheItem =>
    refine ⟨rfl, ?_⟩
    rcases cache.insert_items cacheItem with ⟨_, hitems⟩ | ⟨hfull, _⟩
    · exact hitems
    · exact absurd hfew (Nat.not_lt_of_le hfull)
  | getItem key now =>
    rw [InMemoryCache.step, get_item_items]
    exact ⟨rfl, rfl⟩
  | getValue key now =>
    rw [InMemoryCache.step, get_value_items]
    exact ⟨rfl, rfl⟩
  | delete key => exact ⟨rfl, delete_items cache key⟩

end InMemoryCache

end CheshireCat.Cache
