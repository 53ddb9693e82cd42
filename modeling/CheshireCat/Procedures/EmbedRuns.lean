import CheshireCat.Procedures.Convergence

namespace CheshireCat.Procedures
open Base MadHatter

variable {ν τ : Type}

/-- One call of `embed_procedures`. An exception may end it after `cut` point
operations. -/
structure Call (ν τ : Type) where
  env : Env ν τ
  procedures : List Procedure
  cut : Option Nat

def Call.run (c : Collection ν τ) (call : Call ν τ) : Collection ν τ :=
  match call.cut with
  | none => embedProcedures call.env c call.procedures
  | some cut => embedProceduresCut call.env c call.procedures cut

/-- At most one point per key, and all points on one page. -/
structure Exact (c : Collection ν τ) : Prop where
  nodup : (storedKeys c).Nodup
  fits : c.entries.length ≤ limit

theorem embed_cut_length (env : Env ν τ) (c : Collection ν τ) (procedures : List Procedure) :
    embedProceduresCut env c procedures (plan env c procedures).length =
      embedProcedures env c procedures := by
  unfold embedProceduresCut
  rw [List.take_length]
  rfl

/-- A run that is cut short has done nothing, or has deleted and then added some
of the new points. -/
theorem cut_entries (env : Env ν τ) (c : Collection ν τ) (procedures : List Procedure) (cut : Nat) :
    embedProceduresCut env c procedures cut = c ∨
      ∃ added n, (embedProceduresCut env c procedures cut).entries =
          c.entries.filter (fun e => e.1 ∉ deletedIds env c procedures) ++ added ∧
        added.map (fun e => e.2.key) = (embeddedKeys env c procedures).take n := by
  have hadds (base : Collection ν τ) (n : Nat) :
      ∃ added, ((((newTriggers env c procedures).map .addPoint).take n).foldl (execute env)
          base).entries = base.entries ++ added ∧
        added.map (fun e => e.2.key) = (embeddedKeys env c procedures).take n := by
    obtain ⟨added, he, hk⟩ := add_points env ((newTriggers env c procedures).take n) base
    refine ⟨added, ?_, ?_⟩
    · rw [← List.map_take]
      exact he
    · rw [hk, List.map_take, new_trigger_keys]
  unfold embedProceduresCut
  rw [plan_eq]
  by_cases hnil : deletedIds env c procedures = []
  · obtain ⟨added, he, hk⟩ := hadds c cut
    refine Or.inr ⟨added, cut, ?_, hk⟩
    rw [hnil, deletions, if_pos rfl, List.nil_append, he]
    simp
  · rw [deletions, if_neg hnil]
    cases cut with
    | zero => exact Or.inl rfl
    | succ n =>
      obtain ⟨added, he, hk⟩ := hadds (c.restrict (fun id => id ∉ deletedIds env c procedures)) n
      exact Or.inr ⟨added, n, he, hk⟩

theorem run_is_cut (c : Collection ν τ) (call : Call ν τ) :
    ∃ cut, call.run c = embedProceduresCut call.env c call.procedures cut := by
  unfold Call.run
  cases call.cut with
  | none => exact ⟨_, (embed_cut_length _ _ _).symm⟩
  | some cut => exact ⟨cut, rfl⟩

/-- What any call leaves of an exact collection: everything, or the active points
and some new ones. -/
theorem run_entries {c : Collection ν τ} (h : Exact c) (call : Call ν τ) :
    call.run c = c ∨ ∃ added n,
      (call.run c).entries =
        c.entries.filter (fun e => e.2.key ∈ activeKeys call.procedures) ++ added ∧
      added.map (fun e => e.2.key) = (embeddedKeys call.env c call.procedures).take n := by
  obtain ⟨cut, hcut⟩ := run_is_cut c call
  have hn : ((storedKeys c).filter (fun k => k ∉ activeKeys call.procedures)).Nodup :=
    h.nodup.filter _
  rw [hcut, ← left_of_fit h.fits hn]
  exact cut_entries call.env c call.procedures cut

theorem run_keys {c : Collection ν τ} (h : Exact c) (call : Call ν τ) :
    call.run c = c ∨ ∃ n, storedKeys (call.run c) =
      (storedKeys c).filter (fun k => k ∈ activeKeys call.procedures) ++
        (embeddedKeys call.env c call.procedures).take n := by
  rcases run_entries h call with hsame | ⟨added, n, he, hk⟩
  · exact Or.inl hsame
  · refine Or.inr ⟨n, ?_⟩
    rw [storedKeys, he, List.map_append, hk, storedKeys, List.filter_map]
    rfl

theorem run_exact {c : Collection ν τ} (h : Exact c) {call : Call ν τ}
    (hsize : (activeKeys call.procedures).length ≤ limit) : Exact (call.run c) := by
  rcases run_keys h call with hsame | ⟨n, hkeys⟩
  · rw [hsame]
    exact h
  have hnew (k : String) (hk : k ∈ (embeddedKeys call.env c call.procedures).take n) :
      k ∈ activeKeys call.procedures ∧ k ∉ storedKeys c :=
    (mem_embedded_of_fit h.fits k).mp (List.mem_of_mem_take hk)
  have hnodup : (storedKeys (call.run c)).Nodup := by
    rw [hkeys]
    refine List.nodup_append.mpr ⟨h.nodup.filter _, ?_, ?_⟩
    · exact (embedded_keys_nodup call.env c call.procedures).sublist (List.take_sublist n _)
    · intro a ha b hb hab
      subst hab
      exact (hnew a hb).2 (List.mem_filter.mp ha).1
  refine ⟨hnodup, ?_⟩
  have hsub : storedKeys (call.run c) ⊆ activeKeys call.procedures := by
    intro k hk
    rw [hkeys] at hk
    rcases List.mem_append.mp hk with hk | hk
    · simpa using (List.mem_filter.mp hk).2
    · exact (hnew k hk).1
  have hle := (hnodup.subperm hsub).length_le
  rw [stored_length] at hle
  omega

/-- From an empty collection, over any calls whose triggers fit on one page, cut
short or not: no key has two points; a complete call leaves exactly the points of
its triggers; and a point that is still wanted stays as it is. -/
theorem procedural_memory_exact (calls : List (Call ν τ)) (call : Call ν τ)
    (hcalls : ∀ x ∈ calls, (activeKeys x.procedures).length ≤ limit)
    (hcall : (activeKeys call.procedures).length ≤ limit) :
    let before := calls.foldl Call.run Dict.empty
    let after := call.run before
    (storedKeys before).Nodup ∧ (storedKeys after).Nodup ∧
      (call.cut = none → ∀ k, k ∈ storedKeys after ↔ k ∈ activeKeys call.procedures) ∧
      ∀ e ∈ before.entries, e.2.key ∈ activeKeys call.procedures → e ∈ after.entries := by
  have hbefore : Exact (calls.foldl Call.run (Dict.empty : Collection ν τ)) := by
    have hempty : Exact (Dict.empty : Collection ν τ) := ⟨List.nodup_nil, Nat.zero_le _⟩
    revert hempty
    generalize (Dict.empty : Collection ν τ) = c
    induction calls generalizing c with
    | nil => exact id
    | cons x xs ih =>
      intro hc
      exact ih (fun y hy => hcalls y (List.mem_cons_of_mem x hy)) _
        (run_exact hc (hcalls x List.mem_cons_self))
  intro before after
  refine ⟨hbefore.nodup, (run_exact hbefore hcall).nodup, ?_, ?_⟩
  · intro hcut k
    have hafter : after = embedProcedures call.env before call.procedures := by
      change call.run before = _
      unfold Call.run
      rw [hcut]
    rw [hafter]
    exact mem_embed_settled hbefore.fits (hbefore.nodup.filter _) k
  · intro e he hk
    rcases run_entries hbefore call with hsame | ⟨added, n, hentries, _⟩
    · change e ∈ (call.run before).entries
      rw [hsame]
      exact he
    · change e ∈ (call.run before).entries
      rw [hentries]
      exact List.mem_append_left _ (List.mem_filter.mpr ⟨he, by simpa using hk⟩)

/-- A tool with a description and one start example. -/
def clock : Procedure where
  name := "get_the_time"
  procedureType := "tool"
  triggersMap := Dict.ofList [("description", ["get_the_time: Useful to get the current time"]),
    ("start_example", ["what time is it"])]
  pluginId := "core_plugin"

theorem procedural_memory_exact_clock :
    let env : Env Nat Nat := Env.avoiding (fun _ => false)
    let calls : List (Call Nat Nat) := [⟨env, [clock], some 1⟩]
    let call : Call Nat Nat := ⟨env, [clock], none⟩
    ∀ e ∈ (calls.foldl Call.run Dict.empty).entries,
      e ∈ (call.run (calls.foldl Call.run Dict.empty)).entries := by
  intro env calls call e he
  have h := procedural_memory_exact calls call (by decide) (by decide)
  refine h.2.2.2 e he ?_
  have hkeys : ∀ f ∈ (calls.foldl Call.run Dict.empty).entries,
      f.2.key ∈ activeKeys call.procedures := by decide
  exact hkeys e he

end CheshireCat.Procedures
