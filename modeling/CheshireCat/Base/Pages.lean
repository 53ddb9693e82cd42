import Mathlib.Data.List.Nodup
import Mathlib.Data.List.Perm.Subperm
import Mathlib.Data.List.Sort
import Mathlib.Order.Defs.LinearOrder
import Mathlib.Tactic.Common

namespace CheshireCat.Base

variable {κ α : Type} [LinearOrder κ]

/-- Some of the entries, and the key with which the next page begins. -/
structure Page (κ α : Type) where
  items : List (κ × α)
  next : Option κ

def Page.keys (page : Page κ α) : List κ := page.items.map Prod.fst

/-- The key is not before the offset. -/
def From (offset : Option κ) (k : κ) : Prop := ∀ first ∈ offset, first ≤ k

/-- Up to `limit` of the entries from the offset on, in the order of their keys. -/
structure IsPage (entries : List (κ × α)) (limit : Nat) (offset : Option κ) (page : Page κ α) : Prop where
  sorted : page.keys.Pairwise (· < ·)
  found : ∀ p ∈ page.items, p ∈ entries ∧ From offset p.1
  size : page.items.length ≤ limit
  complete : ∀ p ∈ entries, From offset p.1 → (∀ k ∈ page.next, p.1 < k) → p ∈ page.items
  next : ∀ k ∈ page.next, page.items.length = limit ∧ From offset k ∧ k ∈ entries.map Prod.fst ∧
    ∀ p ∈ page.items, p.1 < k

/-- The page of a sorted scan. -/
def pageOf (entries : List (κ × α)) (limit : Nat) (offset : Option κ) : Page κ α :=
  let sorted := (entries.filter (fun p => offset.all (· ≤ p.1))).insertionSort (fun p q => p.1 ≤ q.1)
  ⟨sorted.take limit, (sorted.drop limit).head?.map Prod.fst⟩

theorem all_from (offset : Option κ) (k : κ) : offset.all (· ≤ k) = true ↔ From offset k := by
  cases offset <;> simp [From]

theorem sort_strict {entries : List (κ × α)} (hkeys : (entries.map Prod.fst).Nodup) :
    (entries.insertionSort (fun p q => p.1 ≤ q.1)).Pairwise (fun p q => p.1 < q.1) := by
  have htotal : Std.Total (fun p q : κ × α => p.1 ≤ q.1) := ⟨fun p q => le_total p.1 q.1⟩
  have htrans : IsTrans (κ × α) (fun p q => p.1 ≤ q.1) := ⟨fun p q r => le_trans⟩
  have hle := List.pairwise_insertionSort (fun p q : κ × α => p.1 ≤ q.1) entries
  have hnodup : ((entries.insertionSort (fun p q => p.1 ≤ q.1)).map Prod.fst).Nodup :=
    (((List.perm_insertionSort _ entries).map Prod.fst).nodup_iff).mpr hkeys
  exact (hle.and (List.pairwise_map.mp hnodup)).imp (fun h => lt_of_le_of_ne h.1 h.2)

/-- What is before all that is left has been taken. -/
theorem mem_taken {taken left : List (κ × α)} (hleft : left.Pairwise (fun p q => p.1 < q.1)) {p : κ × α}
    (hp : p ∈ taken ++ left) (hbefore : ∀ k ∈ left.head?.map Prod.fst, p.1 < k) : p ∈ taken := by
  rcases List.mem_append.mp hp with hin | hin
  · exact hin
  · cases left with
    | nil => cases hin
    | cons first rest =>
      rcases List.mem_cons.mp hin with rfl | hrest
      · exact absurd (hbefore p.1 rfl) (lt_irrefl _)
      · exact absurd (hbefore first.1 rfl) (lt_asymm ((List.pairwise_cons.mp hleft).1 p hrest))

theorem page_of_is_page {entries : List (κ × α)} (hkeys : (entries.map Prod.fst).Nodup) (limit : Nat)
    (offset : Option κ) : IsPage entries limit offset (pageOf entries limit offset) := by
  let sorted := (entries.filter (fun p => offset.all (· ≤ p.1))).insertionSort (fun p q => p.1 ≤ q.1)
  have hpage : pageOf entries limit offset =
      ⟨sorted.take limit, (sorted.drop limit).head?.map Prod.fst⟩ := rfl
  have hmem (p : κ × α) : p ∈ sorted ↔ p ∈ entries ∧ From offset p.1 := by
    rw [List.mem_insertionSort, List.mem_filter, all_from]
  have hsorted : sorted.Pairwise (fun p q => p.1 < q.1) :=
    sort_strict (hkeys.sublist (List.filter_sublist.map Prod.fst))
  have hparts : (sorted.take limit ++ sorted.drop limit).Pairwise (fun p q => p.1 < q.1) := by
    rw [List.take_append_drop]
    exact hsorted
  obtain ⟨htaken, hleft, hcross⟩ := List.pairwise_append.mp hparts
  rw [hpage]
  refine ⟨List.pairwise_map.mpr htaken, fun p hp => (hmem p).mp (List.mem_of_mem_take hp),
    List.length_take_le _ _, fun p hp hfrom hbefore => ?_, fun k hk => ?_⟩
  · refine mem_taken hleft ?_ hbefore
    rw [List.take_append_drop]
    exact (hmem p).mpr ⟨hp, hfrom⟩
  · cases hdrop : sorted.drop limit with
    | nil =>
      rw [hdrop] at hk
      cases hk
    | cons first rest =>
      rw [hdrop] at hk hcross
      obtain rfl : first.1 = k := by simpa using hk
      have hlength : limit < sorted.length := by
        have hrest := congrArg List.length hdrop
        rw [List.length_drop, List.length_cons] at hrest
        omega
      have hfirst : first ∈ sorted := List.mem_of_mem_drop (hdrop ▸ List.mem_cons_self)
      obtain ⟨hthere, hfrom⟩ := (hmem first).mp hfirst
      refine ⟨?_, hfrom, List.mem_map_of_mem hthere, fun p hp => hcross p hp first List.mem_cons_self⟩
      rw [List.length_take]
      exact Nat.min_eq_left hlength.le

/-- The pages of a reader who asks once for each of the collections, each time for what follows. Whether
he has come to the end. -/
inductive Browses (limit : Nat) : Option κ → List (List (κ × α)) → List (Page κ α) → Bool → Prop where
  | waiting (offset : Option κ) : Browses limit offset [] [] false
  | last {offset : Option κ} {entries : List (κ × α)} {page : Page κ α} (rest : List (List (κ × α)))
      (hpage : IsPage entries limit offset page) (hnext : page.next = none) :
      Browses limit offset (entries :: rest) [page] true
  | more {offset : Option κ} {entries : List (κ × α)} {page : Page κ α} {k : κ}
      {rest : List (List (κ × α))} {pages : List (Page κ α)} {finished : Bool}
      (hpage : IsPage entries limit offset page) (hnext : page.next = some k)
      (hrest : Browses limit (some k) rest pages finished) :
      Browses limit offset (entries :: rest) (page :: pages) finished

namespace Browses

variable {limit : Nat} {offset : Option κ} {collections : List (List (κ × α))} {pages : List (Page κ α)}
  {finished : Bool}

theorem ge (h : Browses limit offset collections pages finished) :
    ∀ k ∈ pages.flatMap Page.keys, From offset k := by
  induction h with
  | waiting offset => exact nofun
  | last rest hpage hnext =>
    intro k hk
    rw [List.flatMap_singleton] at hk
    obtain ⟨p, hp, rfl⟩ := List.mem_map.mp hk
    exact (hpage.found p hp).2
  | @more offset entries page next rest pages finished hpage hnext hrest ih =>
    intro k hk
    rw [List.flatMap_cons, List.mem_append] at hk
    rcases hk with hk | hk
    · obtain ⟨p, hp, rfl⟩ := List.mem_map.mp hk
      exact (hpage.found p hp).2
    · obtain ⟨_, hfrom, _, _⟩ := hpage.next next hnext
      exact fun first hfirst => le_trans (hfrom first hfirst) (ih k hk next rfl)

/-- Nothing is read twice, whatever happens to the collection. -/
theorem sorted (h : Browses limit offset collections pages finished) :
    (pages.flatMap Page.keys).Pairwise (· < ·) := by
  induction h with
  | waiting offset => exact .nil
  | last rest hpage hnext =>
    rw [List.flatMap_singleton]
    exact hpage.sorted
  | @more offset entries page next rest pages finished hpage hnext hrest ih =>
    obtain ⟨_, _, _, hbefore⟩ := hpage.next next hnext
    rw [List.flatMap_cons, List.pairwise_append]
    refine ⟨hpage.sorted, ih, ?_⟩
    intro k hk k' hk'
    obtain ⟨p, hp, rfl⟩ := List.mem_map.mp hk
    exact lt_of_lt_of_le (hbefore p hp) (hrest.ge k' hk' next rfl)

/-- What is read was there when it was read. -/
theorem found (h : Browses limit offset collections pages finished) :
    List.Forall₂ (fun page entries => ∀ p ∈ page.items, p ∈ entries) pages
      (collections.take pages.length) := by
  induction h with
  | waiting offset => exact .nil
  | last rest hpage hnext => exact .cons (fun p hp => (hpage.found p hp).1) .nil
  | more hpage hnext hrest ih => exact .cons (fun p hp => (hpage.found p hp).1) ih

theorem item_there (h : Browses limit offset collections pages finished) :
    ∀ p ∈ pages.flatMap Page.items, ∃ entries ∈ collections, p ∈ entries := by
  intro p hp
  obtain ⟨page, hpage, hp⟩ := List.mem_flatMap.mp hp
  obtain ⟨i, hi, rfl⟩ := List.getElem_of_mem hpage
  have hlength := h.found.length_eq
  have hread := List.forall₂_iff_get.mp h.found
  refine ⟨_, List.mem_of_mem_take (List.getElem_mem (hlength ▸ hi)), ?_⟩
  exact hread.2 i hi (hlength ▸ hi) p hp

omit [LinearOrder κ] in
theorem map_fst_items (pages : List (Page κ α)) :
    (pages.flatMap Page.items).map Prod.fst = pages.flatMap Page.keys := List.map_flatMap

/-- What is there all the time is read. -/
theorem complete (h : Browses limit offset collections pages true) {k : κ} (hk : From offset k)
    (hthere : ∀ entries ∈ collections, k ∈ entries.map Prod.fst) : k ∈ pages.flatMap Page.keys := by
  generalize hfinished : true = finished at h
  induction h with
  | waiting offset => cases hfinished
  | @last offset entries page rest hpage hnext =>
    obtain ⟨p, hp, rfl⟩ := List.mem_map.mp (hthere entries List.mem_cons_self)
    rw [List.flatMap_singleton]
    exact List.mem_map_of_mem (hpage.complete p hp hk (by simp [hnext]))
  | @more offset entries page next rest pages finished hpage hnext hrest ih =>
    rw [List.flatMap_cons, List.mem_append]
    rcases lt_or_ge k next with hlt | hge
    · obtain ⟨p, hp, rfl⟩ := List.mem_map.mp (hthere entries List.mem_cons_self)
      refine Or.inl (List.mem_map_of_mem (hpage.complete p hp hk ?_))
      intro next' hnext'
      rw [hnext, Option.mem_some_iff] at hnext'
      exact hnext' ▸ hlt
    · refine Or.inr (ih (fun first hfirst => ?_)
        (fun entries hentries => hthere entries (List.mem_cons_of_mem _ hentries)) hfinished)
      cases hfirst
      exact hge

/-- A reader who waits for a page has had full ones. -/
theorem full (h : Browses limit offset collections pages finished) :
    (∀ page ∈ pages.dropLast, page.items.length = limit) ∧
      (finished = false → pages.length = collections.length ∧ ∀ page ∈ pages, page.items.length = limit) := by
  induction h with
  | waiting offset => exact ⟨nofun, fun _ => ⟨rfl, nofun⟩⟩
  | last rest hpage hnext => exact ⟨nofun, nofun⟩
  | @more offset entries page next rest pages finished hpage hnext hrest ih =>
    obtain ⟨hlimit, _, _, _⟩ := hpage.next next hnext
    refine ⟨fun page' hpage' => ?_, fun hwaiting => ?_⟩
    · cases pages with
      | nil => cases hpage'
      | cons first pages =>
        rw [List.dropLast_cons_cons, List.mem_cons] at hpage'
        rcases hpage' with rfl | hpage'
        · exact hlimit
        · exact ih.1 page' hpage'
    · obtain ⟨hlength, hfull⟩ := ih.2 hwaiting
      refine ⟨by rw [List.length_cons, List.length_cons, hlength], fun page' hpage' => ?_⟩
      rcases List.mem_cons.mp hpage' with rfl | hpage'
      · exact hlimit
      · exact hfull page' hpage'

/-- Who waits for a page knows of a key beyond all that he has read. -/
theorem beyond (h : Browses limit offset collections pages false) (hne : collections ≠ []) :
    ∃ k, From offset k ∧ (∃ entries ∈ collections, k ∈ entries.map Prod.fst) ∧
      ∀ k' ∈ pages.flatMap Page.keys, k' < k := by
  generalize hfinished : false = finished at h
  induction h with
  | waiting offset => exact absurd rfl hne
  | last rest hpage hnext => cases hfinished
  | @more offset entries page next rest pages finished hpage hnext hrest ih =>
    obtain ⟨_, hfrom, hmem, hbefore⟩ := hpage.next next hnext
    have hkey : ∃ k, next ≤ k ∧ (∃ entries' ∈ entries :: rest, k ∈ entries'.map Prod.fst) ∧
        ∀ k' ∈ pages.flatMap Page.keys, k' < k := by
      by_cases hempty : rest = []
      · subst hempty
        cases hrest
        exact ⟨next, le_rfl, ⟨entries, List.mem_cons_self, hmem⟩, nofun⟩
      · obtain ⟨k, hk, ⟨entries', hentries', hthere⟩, hread⟩ := ih hempty hfinished
        exact ⟨k, hk next rfl, ⟨entries', List.mem_cons_of_mem _ hentries', hthere⟩, hread⟩
    obtain ⟨k, hk, hthere, hread⟩ := hkey
    refine ⟨k, fun first hfirst => le_trans (hfrom first hfirst) hk, hthere, fun k' hk' => ?_⟩
    rw [List.flatMap_cons, List.mem_append] at hk'
    rcases hk' with hk' | hk'
    · obtain ⟨p, hp, rfl⟩ := List.mem_map.mp hk'
      exact lt_of_lt_of_le (hbefore p hp) hk
    · exact hread k' hk'

omit [LinearOrder κ] in
theorem length_keys_of_full (h : ∀ page ∈ pages, page.items.length = limit) :
    (pages.flatMap Page.keys).length = pages.length * limit := by
  induction pages with
  | nil => exact (Nat.zero_mul limit).symm
  | cons page pages ih =>
    rw [List.flatMap_cons, List.length_append, ih (fun p hp => h p (List.mem_cons_of_mem _ hp)), Page.keys,
      List.length_map, h page List.mem_cons_self, List.length_cons, Nat.succ_mul, Nat.add_comm]

/-- All who wait have read fewer keys than there ever were. -/
theorem waits (h : Browses limit offset collections pages false) (hne : collections ≠ []) {ids : List κ}
    (hids : ∀ entries ∈ collections, ∀ p ∈ entries, p.1 ∈ ids) : collections.length * limit < ids.length := by
  obtain ⟨k, _, ⟨entries, hentries, hk⟩, hread⟩ := h.beyond hne
  obtain ⟨hlength, hfull⟩ := h.full.2 rfl
  have hsorted : (pages.flatMap Page.keys ++ [k]).Pairwise (· < ·) := by
    rw [List.pairwise_append]
    refine ⟨h.sorted, List.pairwise_singleton _ _, fun k' hk' last hlast => ?_⟩
    rw [List.mem_singleton.mp hlast]
    exact hread k' hk'
  have hsub : pages.flatMap Page.keys ++ [k] ⊆ ids := by
    intro k' hk'
    rw [← map_fst_items, List.mem_append, List.mem_singleton] at hk'
    rcases hk' with hk' | rfl
    · obtain ⟨p, hp, rfl⟩ := List.mem_map.mp hk'
      obtain ⟨entries, hentries, hthere⟩ := h.item_there p hp
      exact hids entries hentries p hthere
    · obtain ⟨p, hp, rfl⟩ := List.mem_map.mp hk
      exact hids entries hentries p hp
  have hle := (List.Nodup.subperm (hsorted.imp (fun h => ne_of_lt h)) hsub).length_le
  rw [List.length_append, length_keys_of_full hfull, hlength] at hle
  exact hle

theorem size (h : Browses limit offset collections pages finished) :
    ∀ page ∈ pages, page.items.length ≤ limit := by
  induction h with
  | waiting offset => exact nofun
  | last rest hpage hnext =>
    intro page hmem
    rw [List.mem_singleton.mp hmem]
    exact hpage.size
  | more hpage hnext hrest ih =>
    intro page hmem
    rcases List.mem_cons.mp hmem with rfl | hmem
    · exact hpage.size
    · exact ih page hmem

/-- A page that begins at a key of the collection is not empty, where nothing is taken away. -/
theorem nonempty (h : Browses limit offset collections pages finished) (hlimit : 0 < limit)
    {entries : List (κ × α)} (hquiet : ∀ entries' ∈ collections, entries' = entries) {first : κ}
    (hoffset : offset = some first) (hfirst : first ∈ entries.map Prod.fst) :
    ∀ page ∈ pages, page.items ≠ [] := by
  induction h generalizing first with
  | waiting offset => exact nofun
  | @last offset entries' page rest hpage hnext =>
    intro page' hmem
    obtain rfl := hquiet entries' List.mem_cons_self
    obtain ⟨p, hp, rfl⟩ := List.mem_map.mp hfirst
    rw [List.mem_singleton.mp hmem]
    refine List.ne_nil_of_mem (hpage.complete p hp ?_ (by simp [hnext]))
    intro k hk
    rw [hoffset, Option.mem_some_iff] at hk
    exact le_of_eq hk.symm
  | @more offset entries' page next rest pages finished hpage hnext hrest ih =>
    intro page' hmem
    obtain ⟨hlength, _, hthere, _⟩ := hpage.next next hnext
    rcases List.mem_cons.mp hmem with rfl | hmem
    · exact List.ne_nil_of_length_pos (hlength ▸ hlimit)
    · refine ih (fun c hc => hquiet c (List.mem_cons_of_mem _ hc)) rfl ?_ page' hmem
      exact hquiet entries' List.mem_cons_self ▸ hthere

omit [LinearOrder κ] in
theorem length_items_of_full (h : ∀ page ∈ pages, page.items.length = limit) :
    (pages.flatMap Page.items).length = pages.length * limit := by
  rw [← length_keys_of_full h, ← map_fst_items, List.length_map]

/-- Full pages and a last one, which is empty only if it is the first. -/
theorem pages_of_total {limit m r : Nat} (hlimit : 0 < limit) (hsize : r ≤ limit) (hpos : 0 < m → 0 < r) :
    m + 1 = max 1 ((m * limit + r + limit - 1) / limit) := by
  rcases Nat.eq_zero_or_pos r with rfl | hr
  · obtain rfl : m = 0 := Nat.eq_zero_of_not_pos (fun hm => absurd (hpos hm) (Nat.lt_irrefl 0))
    rw [Nat.div_eq_of_lt (by omega)]
    rfl
  · have hrest : (m * limit + r + limit - 1) / limit = m + 1 := by
      apply Nat.div_eq_of_lt_le
      · rw [Nat.succ_mul]
        omega
      · rw [Nat.succ_mul, Nat.succ_mul]
        omega
    rw [hrest]
    exact (Nat.max_eq_right (Nat.le_add_left 1 m)).symm

/-- While nothing changes, the pages hold each entry once. -/
theorem quiet_items (h : Browses limit none collections pages true) {entries : List (κ × α)}
    (hquiet : ∀ entries' ∈ collections, entries' = entries) (hkeys : (entries.map Prod.fst).Nodup) :
    (pages.flatMap Page.items).Perm entries := by
  have hnodup : (pages.flatMap Page.items).Nodup := by
    apply List.Nodup.of_map Prod.fst
    rw [map_fst_items]
    exact h.sorted.imp (fun h => ne_of_lt h)
  rw [List.perm_ext_iff_of_nodup hnodup (List.Nodup.of_map Prod.fst hkeys)]
  intro p
  constructor
  · intro hp
    obtain ⟨entries', hentries', hthere⟩ := h.item_there p hp
    exact hquiet entries' hentries' ▸ hthere
  · intro hp
    have hread : p.1 ∈ pages.flatMap Page.keys := h.complete nofun (fun entries' hentries' =>
      hquiet entries' hentries' ▸ List.mem_map_of_mem hp)
    rw [← map_fst_items] at hread
    obtain ⟨p', hp', heq⟩ := List.mem_map.mp hread
    obtain ⟨entries', hentries', hthere⟩ := h.item_there p' hp'
    have hsame := List.inj_on_of_nodup_map hkeys (hquiet entries' hentries' ▸ hthere) hp heq
    exact hsame ▸ hp'

/-- A page that follows others is asked for only where there is more. -/
theorem quiet_last (h : Browses limit none collections pages true) (hlimit : 0 < limit)
    {entries : List (κ × α)} (hquiet : ∀ entries' ∈ collections, entries' = entries) (hne : pages ≠ [])
    (hearlier : 0 < pages.dropLast.length) : 0 < (pages.getLast hne).items.length := by
  apply List.length_pos_of_ne_nil
  cases h with
  | last rest hpage hnext => cases hearlier
  | @more _ entries' page next rest pages' _ hpage hnext hrest =>
    obtain ⟨_, _, hthere, _⟩ := hpage.next next hnext
    have hne' : pages' ≠ [] := by
      rintro rfl
      cases hearlier
    rw [List.getLast_cons hne']
    exact hrest.nonempty hlimit (fun c hc => hquiet c (List.mem_cons_of_mem _ hc)) rfl
      (hquiet entries' List.mem_cons_self ▸ hthere) _ (List.getLast_mem hne')

/-- A collection that is left alone is read as it is, in as few pages as there can be. -/
theorem quiet (h : Browses limit none collections pages true) (hlimit : 0 < limit) {entries : List (κ × α)}
    (hquiet : ∀ entries' ∈ collections, entries' = entries) (hkeys : (entries.map Prod.fst).Nodup) :
    (pages.flatMap Page.items).Perm entries ∧
      pages.length = max 1 ((entries.length + limit - 1) / limit) := by
  have hperm := h.quiet_items hquiet hkeys
  refine ⟨hperm, ?_⟩
  rw [← hperm.length_eq]
  have hne : pages ≠ [] := by
    rintro rfl
    cases h
  have hsplit := List.dropLast_append_getLast hne
  have htotal : (pages.flatMap Page.items).length =
      pages.dropLast.length * limit + (pages.getLast hne).items.length := by
    conv_lhs => rw [← hsplit]
    rw [List.flatMap_append, List.length_append, length_items_of_full h.full.1, List.flatMap_singleton]
  have hlength : pages.length = pages.dropLast.length + 1 := by
    conv_lhs => rw [← hsplit]
    rw [List.length_append, List.length_singleton]
  rw [htotal, hlength]
  exact pages_of_total hlimit (h.size _ (List.getLast_mem hne)) (h.quiet_last hlimit hquiet hne)

end Browses

end CheshireCat.Base
