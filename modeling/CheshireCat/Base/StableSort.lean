import Mathlib.Data.List.Sort
import Mathlib.Order.Defs.LinearOrder

namespace CheshireCat.Base

variable {α K : Type} [LinearOrder K]

/-- A stable sort by descending key. -/
def sortDescending (key : α → K) (l : List α) : List α :=
  l.insertionSort (fun a b => key b ≤ key a)

/-- The list is reordered by descending key, and elements of one key keep
their relative order. -/
structure SortedByKey (key : α → K) (l sorted : List α) : Prop where
  perm : sorted.Perm l
  descending : sorted.Pairwise (fun a b => key b ≤ key a)
  ties : ∀ k, sorted.filter (fun a => key a = k) = l.filter (fun a => key a = k)

theorem sort_descending_perm (key : α → K) (l : List α) : (sortDescending key l).Perm l :=
  List.perm_insertionSort _ l

theorem sort_descending_ties (key : α → K) (l : List α) (k : K) :
    (sortDescending key l).filter (fun a => key a = k) = l.filter (fun a => key a = k) := by
  have hp : (l.filter (fun a => key a = k)).Pairwise (fun a b => key b ≤ key a) := by
    apply List.pairwise_of_forall_mem_list
    intro a ha b hb
    have hka : key a = k := by simpa using (List.mem_filter.mp ha).2
    have hkb : key b = k := by simpa using (List.mem_filter.mp hb).2
    rw [hka, hkb]
  have hs : (l.filter (fun a => key a = k)).Sublist (sortDescending key l) :=
    List.sublist_insertionSort hp List.filter_sublist
  have hs' := hs.filter (fun a => key a = k)
  rw [List.filter_filter, funext (fun a => Bool.and_self _)] at hs'
  exact (hs'.eq_of_length ((sort_descending_perm key l).filter _).length_eq.symm).symm

theorem sort_descending_spec (key : α → K) (l : List α) :
    SortedByKey key l (sortDescending key l) where
  perm := sort_descending_perm key l
  descending := by
    have : Std.Total (fun a b : α => key b ≤ key a) := ⟨fun a b => le_total (key b) (key a)⟩
    have : IsTrans α (fun a b : α => key b ≤ key a) := ⟨fun _ _ _ hab hbc => le_trans hbc hab⟩
    exact List.pairwise_insertionSort _ l
  ties := sort_descending_ties key l

/-- A stable sort by ascending key. -/
def sortAscending (key : α → K) (l : List α) : List α :=
  sortDescending (fun a => OrderDual.toDual (key a)) l

theorem sort_ascending_perm (key : α → K) (l : List α) : (sortAscending key l).Perm l :=
  sort_descending_perm _ l

theorem sort_ascending_pairwise (key : α → K) (l : List α) :
    (sortAscending key l).Pairwise (fun a b => key a ≤ key b) :=
  (sort_descending_spec (fun a => OrderDual.toDual (key a)) l).descending

/-- The last element of a list goes behind all that have no greater key. -/
theorem sort_ascending_last (key : α → K) {l : List α} {a : α} (hnew : a ∉ l) :
    ∃ pre post, sortAscending key (l ++ [a]) = pre ++ a :: post ∧ (pre ++ post).Perm l ∧
      (∀ b ∈ pre, key b ≤ key a) ∧ ∀ b ∈ post, key a < key b := by
  have hperm := sort_ascending_perm key (l ++ [a])
  have hmem : a ∈ sortAscending key (l ++ [a]) :=
    hperm.mem_iff.mpr (List.mem_append_right l (List.mem_singleton_self a))
  obtain ⟨pre, post, hsplit⟩ := List.append_of_mem hmem
  have hrest : (pre ++ post).Perm l := by
    have h : (a :: (pre ++ post)).Perm (a :: l) := by
      rw [hsplit] at hperm
      exact List.perm_middle.symm.trans (hperm.trans List.perm_append_comm)
    exact h.cons_inv
  have hsorted := sort_ascending_pairwise key (l ++ [a])
  have hties := (sort_descending_spec (fun b => OrderDual.toDual (key b)) (l ++ [a])).ties
    (OrderDual.toDual (key a))
  change (sortAscending key (l ++ [a])).filter _ = _ at hties
  rw [hsplit, List.pairwise_append] at hsorted
  refine ⟨pre, post, hsplit, hrest, ?_, ?_⟩
  · intro b hb
    exact hsorted.2.2 b hb a (List.mem_cons_self ..)
  · intro b hb
    refine lt_of_le_of_ne ((List.pairwise_cons.mp hsorted.2.1).1 b hb) ?_
    intro hkey
    -- The elements of one key keep their order, and the last of them is last.
    rw [hsplit, List.filter_append, List.filter_append, List.filter_cons_of_pos (by exact decide_eq_true rfl),
      List.filter_cons_of_pos (by exact decide_eq_true rfl), List.filter_nil] at hties
    have hout : a ∉ pre ++ post := fun h => hnew (hrest.mem_iff.mp h)
    rw [List.mem_append, not_or] at hout
    have hbehind := ((List.append_cons_inj_of_notMem (fun h => hout.1 (List.mem_filter.mp h).1)
      (fun h => hout.2 (List.mem_filter.mp h).1)).mp hties).2.2
    have hb' : b ∈ post.filter (fun c => OrderDual.toDual (key c) = OrderDual.toDual (key a)) :=
      List.mem_filter.mpr ⟨hb, decide_eq_true (congrArg _ hkey.symm)⟩
    rw [hbehind] at hb'
    exact List.not_mem_nil hb'

end CheshireCat.Base
