import CheshireCat.MadHatter.Stopping

namespace CheshireCat.MadHatter
open Base

/-- What discovery has to do for the plugins that do not fail, and about those that do. -/
structure FaultTolerant (env : Env) (w : World) : Prop where
  loaded : ∀ path ∈ w.folders, ¬ w.Fails path →
    ∃ p, (findPlugins env w).state.plugins.get? path.id = some p ∧ p.path = path
  activated : ∀ path ∈ w.folders, ¬ w.Fails path → path.id ∈ loadActivePluginsFromDb w →
    ∃ p, (findPlugins env w).state.plugins.get? path.id = some p ∧ p.path = path ∧
      p.active = true ∧ path.id ∈ (findPlugins env w).state.activePlugins
  caches : Determined (findPlugins env w).state
  removed : ∀ path ∈ w.folders, w.Fails path →
    path.id ∉ (findPlugins env w).state.activePlugins ∧
      path.id ∉ loadActivePluginsFromDb (findPlugins env w).state
  again : (findPlugins env (findPlugins env w).state).returns = true

/-- Discovery has nothing to tolerate. -/
structure World.Clean (w : World) : Prop where
  activate : w.AllActivate
  registers : w.Registers

theorem find_plugins_returns_iff (env : Env) {w : World} (hclash : w.NoClash) :
    (findPlugins env w).returns = true ↔ w.Clean := by
  by_cases hall : w.AllActivate
  · obtain ⟨t, ht, hfind⟩ := all_discovered env hclash hall
    rw [hfind, (sync_exact env t).returns_iff, ht.syncs_iff]
    exact ⟨fun hr => ⟨hall, hr⟩, World.Clean.registers⟩
  · obtain ⟨before, path, after, hfolders, hlisted, hfails, hok⟩ := exists_first_failure hall
    have hends := first_failure env hclash hfolders hlisted hfails hok
    refine iff_of_false ?_ (fun hclean => hall hclean.activate)
    intro hreturns
    exact hends.of_returned (Outcome.eq_returned_of_returns hreturns)

theorem folders_congr {w t : World} (h : t.disk.keys = w.disk.keys) : t.folders = w.folders := by
  unfold World.folders World.pluginFolders
  rw [h]

theorem NoClash.congr {w t : World} (h : w.NoClash) (hfolders : t.folders = w.folders) :
    t.NoClash := by
  have hplugins : t.pluginFolders = w.pluginFolders := (List.cons.inj hfolders).2
  intro path hpath
  exact h path (hplugins ▸ hpath)

/-- A state in which the listed plugins of another one can be used again is as clean. -/
theorem clean_congr {v t : World} (hfolders : t.folders = v.folders)
    (hcallback : t.callback = v.callback) (hembed : t.embedError = v.embedError)
    (hlisted : ∀ id, id ∈ loadActivePluginsFromDb t ↔ id ∈ loadActivePluginsFromDb v)
    (hroutes : ∀ e, Unblocked t.routes e ↔ Unblocked v.routes e)
    (hreusable : AllReusable v v.folders t) : t.Clean ↔ v.Clean := by
  have hobject {path : FolderPath} (hpath : path ∈ v.folders)
      (hin : path.id ∈ loadActivePluginsFromDb v) :
      ∃ p, Plugin.create path (v.disk.get? path) = .ok p ∧
        Plugin.create path (t.disk.get? path) = .ok p ∧ v.Activates p ∧ t.Activates p ∧
        p.loaded t = p.loaded v := by
    obtain ⟨p, hp, hactivates, hcreate, hagain, hloaded⟩ := hreusable path hpath hin
    rw [created_path hp] at hcreate
    exact ⟨p, hp, hcreate, hactivates, hagain, hloaded⟩
  have hv : v.AllActivate := by
    intro path hpath hin hfails
    obtain ⟨p, hp, _, hactivates, _⟩ := hobject hpath hin
    exact (hfails p hp).2 hactivates
  have ht : t.AllActivate := by
    intro path hpath hin hfails
    obtain ⟨p, _, hp, _, hactivates, _⟩ := hobject (hfolders ▸ hpath) ((hlisted _).mp hin)
    exact (hfails p hp).2 hactivates
  have hregisters : t.Registers ↔ v.Registers := by
    unfold World.Registers
    rw [hcallback, hembed, hfolders]
    refine imp_congr_right (fun _ => and_congr_right (fun _ => forall₂_congr ?_))
    intro path hpath
    by_cases hin : path.id ∈ loadActivePluginsFromDb v
    · obtain ⟨p, hp, hp', _, _, hloaded⟩ := hobject hpath hin
      have hone {w : World} (hw : Plugin.create path (w.disk.get? path) = .ok p)
          (hlist : path.id ∈ loadActivePluginsFromDb w) :
          (∀ q, Plugin.create path (w.disk.get? path) = .ok q →
            path.id ∈ loadActivePluginsFromDb w → ∀ e ∈ (q.loaded w).endpoints,
              Unblocked w.routes e) ↔ ∀ e ∈ (p.loaded w).endpoints, Unblocked w.routes e := by
        constructor
        · intro hall
          exact hall p hw hlist
        · intro hall q hq _
          rw [hw] at hq
          exact Except.ok.inj hq ▸ hall
      rw [hone hp' ((hlisted _).mpr hin), hone hp hin, hloaded]
      exact forall₂_congr (fun e _ => hroutes e)
    · have hout : path.id ∉ loadActivePluginsFromDb t := fun h => hin ((hlisted _).mp h)
      exact iff_of_true (fun _ _ h => absurd h hout) (fun _ _ h => absurd h hin)
  exact ⟨fun h => ⟨hv, hregisters.mp h.registers⟩, fun h => ⟨ht, hregisters.mpr h.registers⟩⟩

/-! ### Without a failure -/

theorem mem_load_active_congr {w t : World} (h : t.stored = w.stored) (id : String) :
    id ∈ loadActivePluginsFromDb t ↔ id ∈ loadActivePluginsFromDb w := by
  rw [mem_load_active_iff, mem_load_active_iff, h]

/-- After a discovery in which no listed plugin fails, another one meets the same. -/
theorem Discovered.clean_iff {w t u : World} (h : Discovered w w.folders t)
    (hu : Registered t.collected u) : u.Clean ↔ w.Clean := by
  obtain ⟨more, bound, rfl, hmore⟩ := hu
  refine clean_congr (folders_congr h.keys) h.callback h.embedError ?_ ?_ ?_
  · exact mem_load_active_congr h.stored
  · intro e
    rw [← h.routes]
    exact unblocked_append hmore
  · intro path hpath hin
    obtain ⟨p, hp, hactivates, hreusable⟩ := h.reusable path hpath hin
    exact ⟨p, hp, hactivates, hreusable.sameAt ⟨rfl, fun _ => rfl⟩⟩

theorem synced_state (env : Env) (t : World) :
    Registered t.collected (syncHooksToolsAndForms env t).state :=
  ((sync_exact env t).mono (fun _ h => h.1) (fun _ h => h.1)).state

/-- Where every listed plugin is activated, all but another raise is as it should be. -/
theorem tolerant_of_all {env : Env} {w : World} (hclash : w.NoClash) (hall : w.AllActivate) :
    FaultTolerant env w ↔ w.Clean := by
  obtain ⟨t, ht, hfind⟩ := all_discovered env hclash hall
  have hstate := synced_state env t
  rw [← hfind] at hstate
  have hagain : (findPlugins env (findPlugins env w).state).returns = true ↔ w.Clean := by
    rw [← ht.clean_iff hstate]
    refine find_plugins_returns_iff env (NoClash.congr hclash (folders_congr ?_))
    rw [← ht.keys]
    obtain ⟨more, bound, h, _⟩ := hstate
    rw [h]
    rfl
  refine ⟨fun h => hagain.mp h.again, ?_⟩
  intro hclean
  have hplugins : (findPlugins env w).state.plugins = t.plugins := hstate.synced.plugins
  have hlist : (findPlugins env w).state.activePlugins = loadActivePluginsFromDb w :=
    hstate.synced.activePlugins.trans ht.activePlugins
  have hstored : (findPlugins env w).state.stored = w.stored := hstate.synced.stored.trans ht.stored
  have hget {path : FolderPath} (hpath : path ∈ w.folders) {p : Plugin}
      (hp : Plugin.create path (w.disk.get? path) = .ok p) :
      (findPlugins env w).state.plugins.get? path.id = some (w.discovered p) := by
    rw [hplugins]
    exact (ht.plugins _ _).mpr ⟨path, hpath, rfl, p, hp, rfl⟩
  refine ⟨?_, ?_, ?_, ?_, hagain.mpr hclean⟩
  · intro path hpath hf
    obtain ⟨p, hp, _⟩ := not_fails hf
    exact ⟨_, hget hpath hp, (discovered_path w p).trans (created_path hp)⟩
  · intro path hpath hf hin
    obtain ⟨p, hp, _⟩ := not_fails hf
    have hloaded : w.discovered p = p.loaded w :=
      if_pos (created_path hp ▸ hin : p.path.id ∈ loadActivePluginsFromDb w)
    refine ⟨_, hget hpath hp, (discovered_path w p).trans (created_path hp), ?_, hlist ▸ hin⟩
    rw [hloaded]
    rfl
  · exact determined_of_collect hstate.synced.caches
  · intro path hpath hf
    have hout : path.id ∉ loadActivePluginsFromDb w := fun hin => hall path hpath hin hf
    refine ⟨hlist ▸ hout, ?_⟩
    rw [mem_load_active_congr hstored]
    exact hout

/-! ### With one failure -/

/-- One listed plugin fails, its activation does, and it can be switched off. Behind it no
folder is valid or listed, and without it nothing fails. -/
def World.OnlyLastFails (w : World) : Prop :=
  ∃ before path after p, w.folders = before ++ path :: after ∧
    path.id ∈ loadActivePluginsFromDb w ∧ Plugin.create path (w.disk.get? path) = .ok p ∧
    ¬ w.Activates p ∧ w.SwitchesOff p ∧
    (∀ q ∈ after, q.id ∉ loadActivePluginsFromDb w ∧
      ∀ r, Plugin.create q (w.disk.get? q) ≠ .ok r) ∧
    (w.without p).Clean

theorem mem_without_iff (w : World) (p : Plugin) (id : String) :
    id ∈ loadActivePluginsFromDb (w.without p) ↔
      id ∈ (loadActivePluginsFromDb w).erase p.id ∨ id = "core_plugin" :=
  mem_load_active_iff (w.without p) id

theorem without_same_at (w : World) (p : Plugin) (path : FolderPath) :
    SameAt path w (w.without p) := ⟨rfl, fun _ => rfl⟩

section Stopped

variable {env : Env} {w t : World} {before after : List FolderPath} {path : FolderPath} {p : Plugin}

theorem Stopped.mem_load_active (h : Stopped env w before p t) (id : String) :
    id ∈ loadActivePluginsFromDb t ↔ id ∈ loadActivePluginsFromDb (w.without p) := by
  rw [mem_load_active_iff, mem_without_iff, h.stored]
  exact or_congr_left (env.mem _ id)

/-- What is still listed was listed. -/
theorem listed_of_without {id : String} (h : id ∈ loadActivePluginsFromDb (w.without p)) :
    id ∈ loadActivePluginsFromDb w := by
  rcases (mem_without_iff w p id).mp h with hin | rfl
  · exact List.mem_of_mem_erase hin
  · exact core_listed w

/-- The plugin that stopped the loop is not listed any more, and what comes behind it was
not listed. Then another discovery meets the same as without the plugin. -/
theorem Stopped.clean_iff (h : Stopped env w before p t)
    (hfolders : w.folders = before ++ path :: after) (hpath : p.path = path)
    (hafter : ∀ q ∈ after, q.id ∉ loadActivePluginsFromDb w)
    (hout : path.id ∉ loadActivePluginsFromDb (w.without p)) :
    t.Clean ↔ (w.without p).Clean := by
  refine clean_congr (folders_congr h.keys) h.callback h.embedError h.mem_load_active h.routes ?_
  intro q hq hin
  have hbefore : q ∈ before := by
    have hmem : q ∈ before ++ path :: after := hfolders ▸ hq
    rcases List.mem_append.mp hmem with hb | hrest
    · exact hb
    · rcases List.mem_cons.mp hrest with rfl | ha
      · exact absurd hin hout
      · exact absurd (listed_of_without hin) (hafter q ha)
  obtain ⟨r, hr, hactivates, hreusable⟩ := h.reusable q hbefore (listed_of_without hin)
  refine ⟨r, hr, (without_same_at w p _).activates_iff.mpr hactivates, ?_⟩
  exact ⟨hreusable.create, hreusable.activates,
    hreusable.loaded.trans (without_same_at w p _).loaded.symm⟩

end Stopped

/-- A folder behind another one has another id. -/
theorem id_behind {w : World} (hclash : w.NoClash) {before after : List FolderPath}
    {path q r : FolderPath} (hfolders : w.folders = before ++ path :: after) (hr : r ∈ before)
    (hq : q ∈ after) : q.id ≠ r.id := by
  obtain ⟨first, second, rfl⟩ := List.append_of_mem hr
  have hsplit : w.folders = first ++ r :: (second ++ path :: after) := by
    rw [hfolders, List.append_assoc]
    rfl
  exact (id_new hclash hsplit).2 q (by simp [hq])

/-- What fails and is listed without the plugin fails without it. -/
theorem fails_without {w : World} {p : Plugin} {q : FolderPath} (h : w.Fails q)
    (hin : q.id ∈ loadActivePluginsFromDb (w.without p)) : (w.without p).Fails q := by
  intro r hr
  refine ⟨hin, ?_⟩
  intro hactivates
  exact (h r hr).2 ((without_same_at w p _).activates_iff.mp hactivates)

theorem FaultTolerant.noClash {env : Env} {w : World} (h : FaultTolerant env w) : w.NoClash := by
  have hworks {path : FolderPath} (hpath : path ∈ w.folders) (hid : path.id = "core_plugin") :
      ∃ p, (findPlugins env w).state.plugins.get? "core_plugin" = some p ∧ p.path = path := by
    rw [← hid]
    refine h.loaded path hpath ?_
    intro hf
    exact (h.removed path hpath hf).2 (hid ▸ core_listed _)
  intro path hpath hid
  have hfirst : FolderPath.core ∈ w.folders := List.mem_cons_self
  obtain ⟨p, hp, hcore⟩ := hworks hfirst rfl
  obtain ⟨q, hq, hplugin⟩ := hworks (List.mem_cons_of_mem _ hpath) hid
  rw [hp] at hq
  have hsame : path = .core := by rw [← hplugin, ← Option.some.inj hq, hcore]
  obtain ⟨_, hnamed⟩ := plugin_folder_named hpath
  subst hsame
  cases hnamed

theorem only_last_of_tolerant {env : Env} {w : World} (h : FaultTolerant env w)
    (hall : ¬ w.AllActivate) : w.OnlyLastFails := by
  have hclash := h.noClash
  obtain ⟨before, path, after, hfolders, hlisted, hfails, hok⟩ := exists_first_failure hall
  have hmem : path ∈ w.folders := by simp [hfolders]
  obtain ⟨hremoved, hunstored⟩ := h.removed path hmem hfails
  have hends := first_failure env hclash hfolders hlisted hfails hok
  have hstate := (hends.mono (fun _ hf => hf.elim) (fun _ hs => hs)).state
  rcases hstate with ⟨_, hstays⟩ | ⟨p, hp, ⟨hoff, hstopped⟩ | ⟨_, hstays⟩⟩
  · exact absurd hstays hremoved
  · have hpath : p.path = path := created_path hp
    have hid : p.id = path.id := congrArg FolderPath.id hpath
    have hafter (q : FolderPath) (hq : q ∈ after) : w.Fails q ∧ q.id ∉ loadActivePluginsFromDb w := by
      have hin : q ∈ w.folders := by simp [hfolders, hq]
      have hne : q.id ≠ p.id := hid ▸ (id_new hclash hfolders).2 q hq
      have hqfails : w.Fails q := by
        by_contra hnot
        obtain ⟨r, hr, _⟩ := h.loaded q hin hnot
        obtain ⟨path', hbefore, hsame, _⟩ := (hstopped.plugins q.id r hne).mp hr
        exact id_behind hclash hfolders hbefore hq hsame.symm
      refine ⟨hqfails, ?_⟩
      intro hqin
      refine (h.removed q hin hqfails).1 ?_
      rw [hstopped.activePlugins]
      exact (List.mem_erase_of_ne hne).mpr hqin
    have hout : path.id ∉ loadActivePluginsFromDb (w.without p) :=
      fun hin => hunstored ((hstopped.mem_load_active _).mpr hin)
    have hclean : (findPlugins env w).state.Clean := by
      refine (find_plugins_returns_iff env ?_).mp h.again
      exact NoClash.congr hclash (folders_congr hstopped.keys)
    refine ⟨before, path, after, p, hfolders, hlisted, hp, (hfails p hp).2, hoff, ?_, ?_⟩
    · intro q hq
      refine ⟨(hafter q hq).2, ?_⟩
      intro r hr
      exact (hafter q hq).2 ((hafter q hq).1 r hr).1
    · exact (hstopped.clean_iff hfolders hpath (fun q hq => (hafter q hq).2) hout).mp hclean
  · exact absurd hstays hremoved

section Last

variable {env : Env} {w : World} {before after : List FolderPath} {path : FolderPath} {p : Plugin}

/-- No folder in front of a plugin fails, where nothing fails without that plugin. -/
theorem ok_before (hclash : w.NoClash) (hfolders : w.folders = before ++ path :: after)
    (hid : p.id = path.id) (hclean : (w.without p).Clean) {q : FolderPath} (hq : q ∈ before)
    (hqin : q.id ∈ loadActivePluginsFromDb w) : ¬ w.Fails q := by
  intro hqfails
  have hne : q.id ≠ p.id := hid ▸ (id_new hclash hfolders).1 q hq
  have hlist := (mem_without_iff w p _).mpr (Or.inl ((List.mem_erase_of_ne hne).mpr hqin))
  have hmem : q ∈ w.folders := by simp [hfolders, hq]
  exact hclean.activate q hmem hlist (fails_without hqfails hlist)

/-- The discovery stops at the first plugin that fails, with the plugin switched off where
that is possible. -/
theorem stopped_at_first (env : Env) (hclash : w.NoClash)
    (hfolders : w.folders = before ++ path :: after) (hlisted : path.id ∈ loadActivePluginsFromDb w)
    (hp : Plugin.create path (w.disk.get? path) = .ok p) (hfails : w.Fails path)
    (hoff : w.SwitchesOff p)
    (hok : ∀ q ∈ before, q.id ∈ loadActivePluginsFromDb w → ¬ w.Fails q) :
    Stopped env w before p (findPlugins env w).state := by
  have hends := first_failure env hclash hfolders hlisted hfails hok
  have hstate := (hends.mono (fun _ hf => hf.elim) (fun _ hs => hs)).state
  rcases hstate with ⟨hnone, _⟩ | ⟨r, hr, hrest⟩
  · exact absurd hp (hnone p)
  · rw [hp] at hr
    rcases hrest with ⟨_, hstopped⟩ | ⟨hnot, _⟩
    · exact Except.ok.inj hr ▸ hstopped
    · exact absurd (Except.ok.inj hr ▸ hoff) hnot

end Last

theorem tolerant_of_only_last {env : Env} {w : World} (hclash : w.NoClash)
    (h : w.OnlyLastFails) : FaultTolerant env w := by
  obtain ⟨before, path, after, p, hfolders, hlisted, hp, hfails, hoff, hafter, hclean⟩ := h
  have hpath : p.path = path := created_path hp
  have hid : p.id = path.id := congrArg FolderPath.id hpath
  have hpathFails : w.Fails path := by
    intro r hr
    rw [hp] at hr
    exact ⟨hlisted, Except.ok.inj hr ▸ hfails⟩
  have hin {q : FolderPath} (hq : q ∈ w.folders) : q ∈ before ∨ q = path ∨ q ∈ after := by
    rw [hfolders, List.mem_append, List.mem_cons] at hq
    exact hq
  have hout : path.id ∉ loadActivePluginsFromDb (w.without p) := by
    intro hstill
    have hmem : path ∈ w.folders := by simp [hfolders]
    exact hclean.activate path hmem hstill (fails_without hpathFails hstill)
  have hok (q : FolderPath) (hq : q ∈ before) (hqin : q.id ∈ loadActivePluginsFromDb w) :
      ¬ w.Fails q := ok_before hclash hfolders hid hclean hq hqin
  have hstopped := stopped_at_first env hclash hfolders hlisted hp hpathFails hoff hok
  have hne {q : FolderPath} (hq : q ∈ before) : q.id ≠ p.id :=
    hid ▸ (id_new hclash hfolders).1 q hq
  have hworks {q : FolderPath} (hq : q ∈ w.folders) (hqok : ¬ w.Fails q) : q ∈ before := by
    rcases hin hq with hb | rfl | ha
    · exact hb
    · exact absurd hpathFails hqok
    · exact absurd (fails_of_invalid (hafter q ha).2) hqok
  have hget {q : FolderPath} (hq : q ∈ before) {r : Plugin}
      (hr : Plugin.create q (w.disk.get? q) = .ok r) :
      (findPlugins env w).state.plugins.get? q.id = some (w.discovered r) :=
    (hstopped.plugins _ _ (hne hq)).mpr ⟨q, hq, rfl, r, hr, rfl⟩
  refine ⟨?_, ?_, determined_of_collect hstopped.caches, ?_, ?_⟩
  · intro q hq hqok
    obtain ⟨r, hr, _⟩ := not_fails hqok
    exact ⟨_, hget (hworks hq hqok) hr, (discovered_path w r).trans (created_path hr)⟩
  · intro q hq hqok hqin
    obtain ⟨r, hr, _⟩ := not_fails hqok
    have hloaded : w.discovered r = r.loaded w :=
      if_pos (created_path hr ▸ hqin : r.path.id ∈ loadActivePluginsFromDb w)
    refine ⟨_, hget (hworks hq hqok) hr, (discovered_path w r).trans (created_path hr), ?_, ?_⟩
    · rw [hloaded]
      rfl
    · rw [hstopped.activePlugins]
      exact (List.mem_erase_of_ne (hne (hworks hq hqok))).mpr hqin
  · intro q hq hqfails
    have hunlisted : q.id ∉ loadActivePluginsFromDb (w.without p) := by
      rcases hin hq with hb | rfl | ha
      · exact fun hstill => hok q hb (listed_of_without hstill) hqfails
      · exact hout
      · exact fun hstill => (hafter q ha).1 (listed_of_without hstill)
    constructor
    · rw [hstopped.activePlugins]
      exact fun hstill => hunlisted ((mem_without_iff w p _).mpr (Or.inl hstill))
    · rw [hstopped.mem_load_active]
      exact hunlisted
  · apply (find_plugins_returns_iff env ?_).mpr
    · exact (hstopped.clean_iff hfolders hpath (fun q hq => (hafter q hq).1) hout).mpr hclean
    · exact NoClash.congr hclash (folders_congr hstopped.keys)

/-- Discovery is fault tolerant exactly where no listed plugin fails, or only one does, in
its activation, that can be switched off and has nothing left to discover behind it. -/
theorem fault_tolerant_iff (env : Env) (w : World) :
    FaultTolerant env w ↔ w.NoClash ∧ (w.Clean ∨ w.OnlyLastFails) := by
  constructor
  · intro h
    refine ⟨h.noClash, ?_⟩
    by_cases hall : w.AllActivate
    · exact Or.inl ((tolerant_of_all h.noClash hall).mp h)
    · exact Or.inr (only_last_of_tolerant h hall)
  · intro h
    obtain ⟨hclash, hclean | hlast⟩ := h
    · exact (tolerant_of_all hclash hclean.activate).mpr hclean
    · exact tolerant_of_only_last hclash hlast

theorem ant_named : "ant" ≠ "" := by decide

/-- The zoo is listed and has no python file. -/
def emptyZoo : World :=
  World.boot (some ["zoo", "ant"])
    (Dict.ofList [(.core, coreFolder), (.plugin "zoo" zoo_named, { pyFiles := .empty }),
      (.plugin "ant" ant_named, zebraFolder)]) []

/-- The zoo stays listed, the plugin behind it is not loaded, and discovery raises again. -/
theorem empty_zoo_not_tolerated :
    (findPlugins Env.ascii emptyZoo).returns = false ∧
      (findPlugins Env.ascii emptyZoo).state.plugins.get? "ant" = none ∧
      "zoo" ∈ (findPlugins Env.ascii emptyZoo).state.activePlugins ∧
      "zoo" ∈ loadActivePluginsFromDb (findPlugins Env.ascii emptyZoo).state ∧
      (findPlugins Env.ascii (findPlugins Env.ascii emptyZoo).state).returns = false ∧
      ¬ FaultTolerant Env.ascii emptyZoo := by
  have hagain : (findPlugins Env.ascii (findPlugins Env.ascii emptyZoo).state).returns = false := by
    decide
  refine ⟨by decide, by decide, by decide, by decide, hagain, ?_⟩
  intro h
  have hreturns := h.again
  rw [hagain] at hreturns
  cases hreturns

end CheshireCat.MadHatter
