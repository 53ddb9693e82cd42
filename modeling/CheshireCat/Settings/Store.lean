import CheshireCat.Base.Runs
import CheshireCat.Settings.Crud

namespace CheshireCat.Settings
open Base

/-! ### Routes -/

def notFound (settingId : String) : String := "No setting with this id: " ++ settingId

def updateSetting (db : Db) (settingId : String) (payload : Setting) :
    Except String (Option Setting × Db) :=
  match getSettingById db settingId with
  | none => .error (notFound settingId)
  | some _ =>
    -- the path gives the identifier, not the body
    let db := updateSettingById db { payload with settingId := settingId }
    .ok (getSettingById db settingId, db)

def deleteSetting (db : Db) (settingId : String) : Except String (String × Db) :=
  match getSettingById db settingId with
  | none => .error (notFound settingId)
  | some _ => .ok (settingId, deleteSettingById db settingId)

inductive StoreEvent where
  | createSetting (body : SettingBody)
  | updateSetting (settingId : String) (body : SettingBody)
  | upsertSettingByName (body : SettingBody)
  | deleteSetting (settingId : String)
  | deleteSettingsByCategory (category : String)

/-- The table, the number of draws, and under each name the record last written there and
neither deleted nor renamed since, which no operation reads. -/
structure Store where
  settings : Db
  drawn : Nat
  written : String → Option Setting

def Store.empty : Store := ⟨[], 0, fun _ => none⟩

def Store.after (env : Env) (s : Store) : StoreEvent → Store
  | .createSetting body =>
    let payload := body.complete env s.drawn
    ⟨createSetting s.settings payload, s.drawn + 1,
      Function.update s.written payload.name (some payload)⟩
  | .updateSetting settingId body =>
    let payload := { body.complete env s.drawn with settingId := settingId }
    match updateSetting s.settings settingId payload with
    | .error _ => s
    | .ok (_, db) =>
      ⟨db, s.drawn + 1, Function.update
        (fun name => (s.written name).filter (fun r => r.settingId ≠ settingId))
        payload.name (some payload)⟩
  | .upsertSettingByName body =>
    let payload := body.complete env s.drawn
    ⟨upsertSettingByName s.settings payload, s.drawn + 1,
      Function.update s.written payload.name (some payload)⟩
  | .deleteSetting settingId =>
    match deleteSetting s.settings settingId with
    | .error _ => s
    | .ok (_, db) =>
      ⟨db, s.drawn, fun name => (s.written name).filter (fun r => r.settingId ≠ settingId)⟩
  | .deleteSettingsByCategory category =>
    ⟨deleteSettingsByCategory s.settings category, s.drawn,
      fun name => (s.written name).filter (fun r => r.category ≠ some category)⟩

/-! ### Keyed by name -/

/-- Names and identifiers are distinct, and a lookup finds what was last written. -/
structure Store.Keyed (s : Store) : Prop where
  names : (s.settings.map Setting.name).Nodup
  ids : (s.settings.map Setting.settingId).Nodup
  latest : ∀ name, getSettingByName s.settings name = s.written name

/-- A new record takes a free name, and a record that is updated keeps its name or takes a
free one. -/
def TakesFreeName (s : Store) : StoreEvent → Prop
  | .createSetting body => getSettingByName s.settings body.name = none
  | .updateSetting settingId body =>
    (getSettingById s.settings settingId).isSome →
      ∀ r ∈ s.settings, r.name = body.name → r.settingId = settingId
  | _ => True

/-- Every identifier of the table was drawn. -/
def Store.Drawn (env : Env) (s : Store) : Prop :=
  ∀ r ∈ s.settings, ∃ k < s.drawn, r.settingId = env.uuid4 k

section Keeps

variable {env : Env} {s : Store}

theorem Store.Keyed.written_iff (h : s.Keyed) (name : String) (r : Setting) :
    s.written name = some r ↔ r ∈ s.settings ∧ r.name = name := by
  rw [← h.latest]
  exact get_eq_some_iff h.names name r

theorem keyed_of_written (names : (s.settings.map Setting.name).Nodup)
    (ids : (s.settings.map Setting.settingId).Nodup)
    (written : ∀ name r, s.written name = some r ↔ r ∈ s.settings ∧ r.name = name) : s.Keyed := by
  refine ⟨names, ids, ?_⟩
  intro name
  apply Option.ext
  intro r
  exact (get_eq_some_iff names name r).trans (written name r).symm

theorem written_filter_iff (h : s.Keyed) (p : Setting → Bool) (name : String) (r : Setting) :
    (s.written name).filter p = some r ↔ (r ∈ s.settings ∧ p r = true) ∧ r.name = name := by
  rw [Option.filter_eq_some_iff, h.written_iff, and_right_comm]

/-- The ledger once a record is written beside those that `p` keeps, none of which has
its name. -/
theorem written_update_iff (h : s.Keyed) (p : Setting → Bool) (payload : Setting)
    {written : String → Option Setting}
    (hother : ∀ name, name ≠ payload.name → written name = (s.written name).filter p)
    (hfree : ∀ r ∈ s.settings, p r = true → r.name ≠ payload.name) (name : String) (r : Setting) :
    Function.update written payload.name (some payload) name = some r ↔
      (r = payload ∨ (r ∈ s.settings ∧ p r = true)) ∧ r.name = name := by
  by_cases hname : name = payload.name
  · subst hname
    rw [Function.update_self, Option.some.injEq]
    constructor
    · rintro rfl
      exact ⟨Or.inl rfl, rfl⟩
    · intro hx
      obtain ⟨rfl | hr, hsame⟩ := hx
      · rfl
      · exact absurd hsame (hfree r hr.1 hr.2)
  · rw [Function.update_of_ne hname, hother name hname, written_filter_iff h]
    constructor
    · intro hr
      exact ⟨Or.inr hr.1, hr.2⟩
    · intro hx
      obtain ⟨rfl | hr, hsame⟩ := hx
      · exact absurd hsame.symm hname
      · exact ⟨hr, hsame⟩

/-- Removing records keeps the store keyed. -/
theorem Store.Keyed.remove (h : s.Keyed) (p : Setting → Bool) (drawn : Nat) :
    Store.Keyed ⟨s.settings.filter p, drawn, fun name => (s.written name).filter p⟩ := by
  refine keyed_of_written (h.names.sublist (List.filter_sublist.map _))
    (h.ids.sublist (List.filter_sublist.map _)) ?_
  intro name r
  exact (written_filter_iff h p name r).trans (and_congr_left' List.mem_filter.symm)

theorem Store.Drawn.fresh (hids : Function.Injective env.uuid4) (h : s.Drawn env) {r : Setting}
    (hr : r ∈ s.settings) : r.settingId ≠ env.uuid4 s.drawn := by
  obtain ⟨k, hk, hid⟩ := h r hr
  intro he
  exact Nat.ne_of_lt hk (hids (hid.symm.trans he))

theorem create_keyed_iff (hids : Function.Injective env.uuid4) (h : s.Keyed) (hd : s.Drawn env)
    (body : SettingBody) :
    TakesFreeName s (.createSetting body) ↔ (s.after env (.createSetting body)).Keyed := by
  have hnames : ((createSetting s.settings (body.complete env s.drawn)).map Setting.name).Nodup ↔
      getSettingByName s.settings body.name = none := by
    rw [get_none_iff, createSetting, List.map_append, List.map_singleton, ← List.concat_eq_append,
      List.nodup_concat]
    simp [h.names, SettingBody.complete]
  constructor
  · intro hfree
    have hnone := (get_none_iff s.settings body.name).mp hfree
    refine keyed_of_written (hnames.mpr hfree) ?_ ?_
    · change ((s.settings ++ [body.complete env s.drawn]).map Setting.settingId).Nodup
      rw [List.map_append, List.map_singleton, ← List.concat_eq_append, List.nodup_concat]
      refine ⟨?_, h.ids⟩
      intro hmem
      obtain ⟨r, hr, hid⟩ := List.mem_map.mp hmem
      exact hd.fresh hids hr hid
    · intro name r
      refine (written_update_iff h (fun _ => true) (body.complete env s.drawn) ?_ ?_ name r).trans ?_
      · intro name _
        cases s.written name <;> rfl
      · intro r hr _
        exact hnone r hr
      · apply and_congr_left'
        change _ ↔ r ∈ s.settings ++ [body.complete env s.drawn]
        rw [List.mem_append, List.mem_singleton, or_comm]
        simp
  · intro ht
    exact hnames.mp ht.names

theorem update_keyed_iff (h : s.Keyed) (settingId : String) (body : SettingBody) :
    TakesFreeName s (.updateSetting settingId body) ↔
      (s.after env (.updateSetting settingId body)).Keyed := by
  let payload := { body.complete env s.drawn with settingId := settingId }
  cases hget : getSettingById s.settings settingId with
  | none =>
    have hafter : s.after env (.updateSetting settingId body) = s := by
      simp only [Store.after, updateSetting, hget]
    rw [hafter]
    refine ⟨fun _ => h, ?_⟩
    intro _ hsome
    rw [hget] at hsome
    cases hsome
  | some old =>
    have hold : ∃ r ∈ s.settings, r.settingId = payload.settingId :=
      (get_by_id_isSome_iff s.settings settingId).mp (by rw [hget]; rfl)
    have hafter : s.after env (.updateSetting settingId body) =
        ⟨updateSettingById s.settings payload, s.drawn + 1, Function.update
          (fun name => (s.written name).filter (fun r => r.settingId ≠ settingId))
          payload.name (some payload)⟩ := by
      simp only [Store.after, updateSetting, hget, payload]
    have hcond : TakesFreeName s (.updateSetting settingId body) ↔
        ∀ r ∈ s.settings, r.name = payload.name → r.settingId = payload.settingId := by
      refine ⟨fun hc => hc (by rw [hget]; rfl), fun hc _ => hc⟩
    have hnodup : s.settings.Nodup := h.names.of_map _
    rw [hafter, hcond]
    constructor
    · intro hfree
      refine keyed_of_written ?_ ?_ ?_
      · change ((s.settings.map _).map Setting.name).Nodup
        rw [List.map_map, List.nodup_map_iff_inj_on hnodup]
        intro r hr q hq hsame
        simp only [Function.comp_apply] at hsame
        split at hsame <;> split at hsame
        · rename_i hrid hqid
          exact List.inj_on_of_nodup_map h.ids hr hq (hrid.trans hqid.symm)
        · rename_i hqid
          exact absurd (hfree q hq hsame.symm) hqid
        · rename_i hrid hqid
          exact absurd (hfree r hr hsame) hrid
        · exact List.inj_on_of_nodup_map h.names hr hq hsame
      · -- the record keeps its identifier
        have hids : (updateSettingById s.settings payload).map Setting.settingId =
            s.settings.map Setting.settingId := by
          rw [updateSettingById, List.map_map]
          apply List.map_congr_left
          intro r _
          by_cases hid : r.settingId = payload.settingId <;> simp [hid]
        change ((updateSettingById s.settings payload).map Setting.settingId).Nodup
        rw [hids]
        exact h.ids
      · intro name r
        refine (written_update_iff h (fun r => r.settingId ≠ settingId) payload
          (fun _ _ => rfl) ?_ name r).trans ?_
        · intro r hr hp hname
          exact of_decide_eq_true hp (hfree r hr hname)
        · apply and_congr_left'
          rw [mem_update_iff hold]
          simp [payload]
    · intro ht r hr hname
      obtain ⟨q, hq, hqid⟩ := hold
      by_contra hrid
      have hnames := (List.nodup_map_iff_inj_on hnodup).mp
        (List.map_map (f := fun r : Setting => if r.settingId = payload.settingId then payload else r)
          (g := Setting.name) (l := s.settings) ▸ ht.names) r hr q hq
      apply hrid
      rw [hnames ?_, hqid]
      simp only [Function.comp_apply]
      rw [if_neg hrid, if_pos hqid, hname]

theorem upsert_keyed (hids : Function.Injective env.uuid4) (h : s.Keyed) (hd : s.Drawn env)
    (body : SettingBody) : (s.after env (.upsertSettingByName body)).Keyed := by
  let payload := body.complete env s.drawn
  cases hget : getSettingByName s.settings payload.name with
  | none =>
    -- the record is created, under a name that is free
    have hsame : s.after env (.upsertSettingByName body) = s.after env (.createSetting body) := by
      simp only [Store.after, upsertSettingByName]
      rw [hget]
    rw [hsame]
    exact (create_keyed_iff hids h hd body).mp hget
  | some old =>
    have hafter : (s.after env (.upsertSettingByName body)).settings =
        s.settings.map (fun r => if r.name = payload.name then payload else r) := by
      simp only [Store.after, upsertSettingByName]
      rw [hget]
    refine keyed_of_written ?_ ?_ ?_
    · have hnames : (s.settings.map (fun r => if r.name = payload.name then payload else r)).map
          Setting.name = s.settings.map Setting.name := by
        rw [List.map_map]
        apply List.map_congr_left
        intro r _
        by_cases hname : r.name = payload.name <;> simp [hname]
      rw [hafter, hnames]
      exact h.names
    · rw [hafter, List.map_map, List.nodup_map_iff_inj_on (h.names.of_map _)]
      intro r hr q hq hsame
      simp only [Function.comp_apply] at hsame
      split at hsame <;> split at hsame
      · rename_i hrname hqname
        exact List.inj_on_of_nodup_map h.names hr hq (hrname.trans hqname.symm)
      · exact absurd hsame.symm (hd.fresh hids hq)
      · exact absurd hsame (hd.fresh hids hr)
      · exact List.inj_on_of_nodup_map h.ids hr hq hsame
    · intro name r
      refine (written_update_iff h (fun r => r.name ≠ payload.name) payload ?_ ?_ name r).trans ?_
      · intro name hname
        cases hwritten : s.written name with
        | none => rfl
        | some q =>
          have hq : q.name = name := ((h.written_iff name q).mp hwritten).2
          have hkept : q.name ≠ payload.name := hq ▸ hname
          rw [Option.filter_some, if_pos (decide_eq_true hkept)]
      · intro r _ hname
        exact of_decide_eq_true hname
      · apply and_congr_left'
        rw [decide_eq_true_iff]
        exact (mem_upsert_iff s.settings payload r).symm

theorem keyed_iff (hids : Function.Injective env.uuid4) (h : s.Keyed) (hd : s.Drawn env)
    (e : StoreEvent) : TakesFreeName s e ↔ (s.after env e).Keyed := by
  cases e with
  | createSetting body => exact create_keyed_iff hids h hd body
  | updateSetting settingId body => exact update_keyed_iff h settingId body
  | upsertSettingByName body => exact ⟨fun _ => upsert_keyed hids h hd body, fun _ => trivial⟩
  | deleteSetting settingId =>
    refine ⟨fun _ => ?_, fun _ => trivial⟩
    cases hget : getSettingById s.settings settingId with
    | none =>
      simp only [Store.after, deleteSetting, hget]
      exact h
    | some old =>
      simp only [Store.after, deleteSetting, hget]
      exact h.remove _ _
  | deleteSettingsByCategory category => exact ⟨fun _ => h.remove _ _, fun _ => trivial⟩

theorem Store.Drawn.after (h : s.Drawn env) (e : StoreEvent) : (s.after env e).Drawn env := by
  have hpayload (body : SettingBody) : ∃ k < s.drawn + 1,
      (body.complete env s.drawn).settingId = env.uuid4 k := ⟨s.drawn, Nat.lt_succ_self _, rfl⟩
  have hkept {r : Setting} (hr : r ∈ s.settings) : ∃ k < s.drawn + 1, r.settingId = env.uuid4 k := by
    obtain ⟨k, hk, hid⟩ := h r hr
    exact ⟨k, Nat.lt_succ_of_lt hk, hid⟩
  cases e with
  | createSetting body =>
    intro r hr
    rcases List.mem_append.mp hr with hr | hr
    · exact hkept hr
    · exact List.mem_singleton.mp hr ▸ hpayload body
  | upsertSettingByName body =>
    intro r hr
    rcases (mem_upsert_iff _ _ r).mp hr with rfl | hr
    · exact hpayload body
    · exact hkept hr.1
  | updateSetting settingId body =>
    cases hget : getSettingById s.settings settingId with
    | none =>
      simp only [Store.after, updateSetting, hget]
      exact h
    | some old =>
      obtain ⟨q, hq, rfl⟩ := (get_by_id_isSome_iff s.settings settingId).mp (by rw [hget]; rfl)
      have hid := hkept hq
      intro r hr
      simp only [Store.after, updateSetting, hget] at hr ⊢
      rcases (mem_update_iff (by exact ⟨q, hq, rfl⟩) r).mp hr with rfl | hr
      · exact hid
      · exact hkept hr.1
  | deleteSetting settingId =>
    cases hget : getSettingById s.settings settingId with
    | none =>
      simp only [Store.after, deleteSetting, hget]
      exact h
    | some old =>
      intro r hr
      simp only [Store.after, deleteSetting, hget] at hr ⊢
      exact h r (List.mem_of_mem_filter hr)
  | deleteSettingsByCategory category => exact fun r hr => h r (List.mem_of_mem_filter hr)

end Keeps

theorem empty_keyed : Store.empty.Keyed := ⟨List.nodup_nil, List.nodup_nil, fun _ => rfl⟩

/-- Over all operations, the store stays keyed by name exactly when every record is given a
free name. -/
theorem store_keyed_iff (env : Env) (hids : Function.Injective env.uuid4)
    (events : List StoreEvent) :
    (∀ earlier, earlier <+: events → ∀ s,
      run (fun s e => some (Store.after env s e)) Store.empty earlier = some s → s.Keyed) ↔
      Meets (fun s e => some (Store.after env s e)) TakesFreeName Store.empty events := by
  have hdrawn {s : Store} {earlier : List StoreEvent}
      (hs : run (fun s e => some (Store.after env s e)) Store.empty earlier = some s) :
      s.Drawn env :=
    run_keeps (fun s e t h ht => Option.some.inj ht ▸ h.after e)
      (fun r hr => absurd hr (List.not_mem_nil)) hs
  rw [← keeps_iff_meets (I := fun s => s.Keyed ∧ s.Drawn env) _
    ⟨empty_keyed, fun r hr => absurd hr (List.not_mem_nil)⟩]
  · constructor
    · intro h earlier he s hs
      exact ⟨h earlier he s hs, hdrawn hs⟩
    · intro h earlier he s hs
      exact (h earlier he s hs).1
  · intro s e hs
    rw [keyed_iff hids hs.1 hs.2 e]
    constructor
    · intro h t ht
      cases ht
      exact ⟨h, hs.2.after e⟩
    · intro h
      exact (h _ rfl).1

theorem counting_env_injective : Function.Injective countingEnv.uuid4 := by
  intro a b h
  have hlist := congrArg String.toList h
  simp only [countingEnv, String.toList_ofList] at hlist
  simpa using congrArg List.length hlist

def selectedLlm (name : String) : SettingBody :=
  ⟨"llm_selected", .obj [("name", .str name)], some "llm"⟩

def reselected : List StoreEvent :=
  [.createSetting (selectedLlm "LLMDefaultConfig"), .upsertSettingByName (selectedLlm "LLMCustomConfig")]

/-- A record is created, and rewritten under its name. -/
theorem store_keyed_selected :
    ∃ s, run (fun s e => some (Store.after countingEnv s e)) Store.empty reselected = some s ∧
      s.Keyed := by
  refine ⟨_, rfl, (store_keyed_iff countingEnv counting_env_injective reselected).mpr ?_ reselected
    (List.prefix_refl _) _ rfl⟩
  exact ⟨rfl, fun t _ => ⟨trivial, fun _ _ => trivial⟩⟩

/-- The second record of a name is never found, and an upsert gives both one identifier. -/
theorem created_twice :
    ∃ s t, run (fun s e => some (Store.after countingEnv s e)) Store.empty
        [.createSetting (selectedLlm "LLMDefaultConfig"),
          .createSetting (selectedLlm "LLMCustomConfig")] = some s ∧
      ¬ (s.settings.map Setting.name).Nodup ∧
      getSettingByName s.settings "llm_selected" ≠ s.written "llm_selected" ∧
      t = s.after countingEnv (.upsertSettingByName (selectedLlm "LLMCustomConfig")) ∧
      ¬ (t.settings.map Setting.settingId).Nodup := by
  refine ⟨_, _, rfl, by decide, by decide, rfl, by decide⟩

end CheshireCat.Settings
