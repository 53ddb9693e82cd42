import Mathlib.Data.List.Permutation

namespace CheshireCat.Base

variable {ι σ : Type}

/-- The updates are applied one after the other. -/
def serial (update : ι → σ → σ) (order : List ι) (start : σ) : σ :=
  order.foldl (fun v i => update i v) start

/-- The value comes from applying exactly the updates of `done`, once each. -/
def Serialised (update : ι → σ → σ) (start : σ) (done : ι → Prop) (v : σ) : Prop :=
  ∃ order : List ι, order.Nodup ∧ (∀ i, i ∈ order ↔ done i) ∧ v = serial update order start

/-- The value comes from applying some of the updates of `done`, each at most
once. The others are lost. -/
def PartlySerialised (update : ι → σ → σ) (start : σ) (done : ι → Prop) (v : σ) : Prop :=
  ∃ order : List ι, order.Nodup ∧ (∀ i ∈ order, done i) ∧ v = serial update order start

theorem serial_append (update : ι → σ → σ) (order : List ι) (i : ι) (start : σ) :
    serial update (order ++ [i]) start = update i (serial update order start) := by
  simp [serial, List.foldl_append]

theorem Serialised.start {update : ι → σ → σ} {start : σ} {done : ι → Prop}
    (h : ∀ i, ¬ done i) : Serialised update start done start :=
  ⟨[], List.nodup_nil, fun i => by simp [h i], rfl⟩

theorem PartlySerialised.start {update : ι → σ → σ} {start : σ} {done : ι → Prop} :
    PartlySerialised update start done start :=
  ⟨[], List.nodup_nil, by simp, rfl⟩

private theorem nodup_snoc {order : List ι} {i : ι} (h : order.Nodup) (hi : i ∉ order) :
    (order ++ [i]).Nodup := by
  refine List.nodup_append.mpr ⟨h, List.nodup_singleton i, ?_⟩
  intro a ha b hb hab
  rw [List.mem_singleton.mp hb] at hab
  exact hi (hab ▸ ha)

/-- A write computed from the current value extends the order. -/
theorem Serialised.commit {update : ι → σ → σ} {start v : σ} {done done' : ι → Prop} {i : ι}
    (h : Serialised update start done v) (hi : ¬ done i)
    (hd : ∀ j, done' j ↔ j = i ∨ done j) : Serialised update start done' (update i v) := by
  obtain ⟨order, hn, hm, rfl⟩ := h
  refine ⟨order ++ [i], nodup_snoc hn (fun hmem => hi ((hm i).mp hmem)), ?_, ?_⟩
  · intro j
    rw [List.mem_append, List.mem_singleton, hm, hd, or_comm]
  · exact (serial_append update order i start).symm

theorem Serialised.congr {update : ι → σ → σ} {start v : σ} {done done' : ι → Prop}
    (h : Serialised update start done v) (hd : ∀ j, done' j ↔ done j) :
    Serialised update start done' v := by
  obtain ⟨order, hn, hm, hv⟩ := h
  exact ⟨order, hn, fun j => (hm j).trans (hd j).symm, hv⟩

theorem PartlySerialised.mono {update : ι → σ → σ} {start v : σ} {done done' : ι → Prop}
    (h : PartlySerialised update start done v) (hd : ∀ j, done j → done' j) :
    PartlySerialised update start done' v := by
  obtain ⟨order, hn, hm, hv⟩ := h
  exact ⟨order, hn, fun j hj => hd j (hm j hj), hv⟩

/-- An update of any earlier value, current or stale. -/
theorem PartlySerialised.apply {update : ι → σ → σ} {start v : σ} {done : ι → Prop} {i : ι}
    (h : PartlySerialised update start done v) (hi : ¬ done i) :
    PartlySerialised update start (fun j => j = i ∨ done j) (update i v) := by
  obtain ⟨order, hn, hm, rfl⟩ := h
  refine ⟨order ++ [i], nodup_snoc hn (fun hmem => hi (hm i hmem)), ?_, ?_⟩
  · intro j hj
    rcases List.mem_append.mp hj with hj | hj
    · exact Or.inr (hm j hj)
    · exact Or.inl (List.mem_singleton.mp hj)
  · exact (serial_append update order i start).symm

theorem Serialised.all {update : ι → σ → σ} {start v : σ} {done : ι → Prop}
    (h : Serialised update start done v) (hall : ∀ i, done i) :
    ∃ order : List ι, order.Nodup ∧ (∀ i, i ∈ order) ∧ v = serial update order start := by
  obtain ⟨order, hn, hm, hv⟩ := h
  exact ⟨order, hn, fun i => (hm i).mpr (hall i), hv⟩

theorem order_of_two {order : List (Fin 2)} (hn : order.Nodup) (hm : ∀ i, i ∈ order) :
    order = [0, 1] ∨ order = [1, 0] := by
  have hp : order.Perm [0, 1] :=
    (List.perm_ext_iff_of_nodup hn (by decide)).mpr (fun i => by simp [hm i]; omega)
  have hmem : order ∈ [(0 : Fin 2), 1].permutations' := List.mem_permutations'.mpr hp
  have hall : [(0 : Fin 2), 1].permutations' = [[0, 1], [1, 0]] := by decide
  simpa [hall] using hmem

end CheshireCat.Base
