import CheshireCat.MadHatter.Caches
import CheshireCat.MadHatter.Reload

namespace CheshireCat.MadHatter
open Base

/-- The folders of `find_plugins`, in its order. -/
def World.folders (w : World) : List FolderPath := .core :: w.pluginFolders

/-- The construction of the plugin raises, or it is listed and its activation does. -/
def World.Fails (w : World) (path : FolderPath) : Prop :=
  ∀ p, Plugin.create path (w.disk.get? path) = .ok p →
    path.id ∈ loadActivePluginsFromDb w ∧ ¬ w.Activates p

/-! ### The state before the loop and in it -/

theorem core_listed (w : World) : "core_plugin" ∈ loadActivePluginsFromDb w :=
  (mem_load_active_iff w _).mpr (Or.inr rfl)

/-- No plugin folder takes the name of the core plugin. -/
def World.NoClash (w : World) : Prop := ∀ path ∈ w.pluginFolders, path.id ≠ "core_plugin"

theorem plugin_folder_named {w : World} {path : FolderPath} (h : path ∈ w.pluginFolders) :
    ∃ named : path.id ≠ "", path = .plugin path.id named := by
  have hpath := of_decide_eq_true (List.mem_filter.mp h).2
  cases path with
  | core => exact absurd rfl hpath.1
  | plugins => exact absurd rfl hpath.2
  | plugin name named => exact ⟨named, rfl⟩

theorem folder_ids_distinct {w : World} (h : w.NoClash) : (w.folders.map FolderPath.id).Nodup := by
  refine List.nodup_cons.mpr ⟨?_, ?_⟩
  · intro hmem
    obtain ⟨path, hpath, hid⟩ := List.mem_map.mp hmem
    exact h path hpath hid
  · refine List.Nodup.map_on ?_ (w.disk.distinct.filter _)
    intro a ha b hb hid
    obtain ⟨hnamed, ha⟩ := plugin_folder_named ha
    obtain ⟨hnamed', hb⟩ := plugin_folder_named hb
    rw [ha, hb]
    congr

theorem id_new {w : World} (h : w.NoClash) {done rest : List FolderPath} {path : FolderPath}
    (hfolders : w.folders = done ++ path :: rest) :
    (∀ q ∈ done, q.id ≠ path.id) ∧ ∀ q ∈ rest, q.id ≠ path.id := by
  have hnodup := folder_ids_distinct h
  rw [hfolders, List.map_append, List.map_cons] at hnodup
  obtain ⟨_, hrest, hdisjoint⟩ := List.nodup_append.mp hnodup
  refine ⟨?_, ?_⟩
  · intro q hq hid
    exact hdisjoint q.id (List.mem_map_of_mem hq) path.id List.mem_cons_self hid
  · intro q hq hid
    exact (List.nodup_cons.mp hrest).1 (hid ▸ List.mem_map_of_mem hq)

theorem created_path {path : FolderPath} {folder : Option PluginFolder} {p : Plugin}
    (h : Plugin.create path folder = .ok p) : p.path = path := by
  obtain ⟨f, _, rfl⟩ := Plugin.create_ok h
  rfl

/-- The plugin as discovery leaves it. -/
def World.discovered (w : World) (p : Plugin) : Plugin :=
  if p.id ∈ loadActivePluginsFromDb w then p.loaded w else p

theorem discovered_path (w : World) (p : Plugin) : (w.discovered p).path = p.path := by
  unfold World.discovered
  split <;> rfl

/-- The plugin is that of one of the folders. -/
def FoundIn (w : World) (done : List FolderPath) (id : String) (q : Plugin) : Prop :=
  ∃ path ∈ done, path.id = id ∧
    ∃ p, Plugin.create path (w.disk.get? path) = .ok p ∧ q = w.discovered p

/-- The listed plugins of the folders can all be activated again. -/
def AllReusable (w : World) (done : List FolderPath) (t : World) : Prop :=
  ∀ path ∈ done, path.id ∈ loadActivePluginsFromDb w →
    ∃ p, Plugin.create path (w.disk.get? path) = .ok p ∧ w.Activates p ∧ Reusable w p t

/-- The state after folders in which no listed plugin fails. -/
structure Discovered (w : World) (done : List FolderPath) (t : World) : Prop where
  activePlugins : t.activePlugins = loadActivePluginsFromDb w
  stored : t.stored = w.stored
  routes : t.routes = w.routes
  callback : t.callback = w.callback
  embedError : t.embedError = w.embedError
  keys : t.disk.keys = w.disk.keys
  plugins : ∀ id q, t.plugins.get? id = some q ↔ FoundIn w done id q
  rest : ∀ path, path ∉ done → SameAt path w t
  bound : ∀ e, (∀ path ∈ done, e.pluginId ≠ path.id) → (e ∈ t.bound ↔ e ∈ w.bound)
  reusable : AllReusable w done t

def World.start (w : World) : World :=
  { w with plugins := .empty, activePlugins := loadActivePluginsFromDb w }

theorem start_discovered (w : World) : Discovered w [] w.start where
  activePlugins := rfl
  stored := rfl
  routes := rfl
  callback := rfl
  embedError := rfl
  keys := rfl
  plugins := by
    intro id q
    refine iff_of_false ?_ ?_
    · intro h
      cases h
    · intro h
      obtain ⟨path, hpath, _⟩ := h
      cases hpath
  rest := fun path _ => ⟨rfl, fun _ => rfl⟩
  bound := fun _ _ => Iff.rfl
  reusable := by
    intro path hpath
    cases hpath

/-- A folder without a valid plugin adds none. -/
theorem found_in_skip {w : World} {done : List FolderPath} {path : FolderPath}
    (hnone : ∀ p, Plugin.create path (w.disk.get? path) ≠ .ok p) (id : String) (q : Plugin) :
    FoundIn w (done ++ [path]) id q ↔ FoundIn w done id q := by
  constructor
  · intro h
    obtain ⟨path', hmem, hid, p, hp, hq⟩ := h
    rcases List.mem_append.mp hmem with hdone | hlast
    · exact ⟨path', hdone, hid, p, hp, hq⟩
    · rw [List.mem_singleton.mp hlast] at hp
      exact absurd hp (hnone p)
  · intro h
    obtain ⟨path', hmem, hrest⟩ := h
    exact ⟨path', List.mem_append_left _ hmem, hrest⟩

theorem found_in_add {w : World} {done : List FolderPath} {path : FolderPath} {p : Plugin}
    (hp : Plugin.create path (w.disk.get? path) = .ok p) (hnew : ∀ q ∈ done, q.id ≠ path.id)
    {plugins : Dict String Plugin}
    (hplugins : ∀ id q, plugins.get? id = some q ↔ FoundIn w done id q) (id : String) (q : Plugin) :
    (plugins.set path.id (w.discovered p)).get? id = some q ↔ FoundIn w (done ++ [path]) id q := by
  rw [Dict.get?_set]
  split
  · rename_i hid
    constructor
    · intro h
      exact ⟨path, by simp, hid.symm, p, hp, (Option.some.inj h).symm⟩
    · intro h
      obtain ⟨path', hmem, hid', p', hp', hq⟩ := h
      rcases List.mem_append.mp hmem with hdone | hlast
      · exact absurd (hid'.trans hid) (hnew path' hdone)
      · rw [List.mem_singleton.mp hlast, hp] at hp'
        rw [hq, Except.ok.inj hp']
  · rename_i hid
    rw [hplugins]
    constructor
    · intro h
      obtain ⟨path', hmem, hrest⟩ := h
      exact ⟨path', List.mem_append_left _ hmem, hrest⟩
    · intro h
      obtain ⟨path', hmem, hid', hrest⟩ := h
      rcases List.mem_append.mp hmem with hdone | hlast
      · exact ⟨path', hdone, hid', hrest⟩
      · rw [List.mem_singleton.mp hlast] at hid'
        exact absurd hid'.symm hid

theorem AllReusable.frame {w t u : World} {done : List FolderPath} {p : Plugin}
    (h : AllReusable w done t) (hframe : Frame p t u) (hnew : ∀ q ∈ done, q.id ≠ p.id) :
    AllReusable w done u := by
  intro path hpath hlisted
  obtain ⟨p', hp', hactivates, hreusable⟩ := h path hpath hlisted
  have hpath' : p'.path = path := created_path hp'
  refine ⟨p', hp', hactivates, hreusable.sameAt (hframe.sameAt ?_)⟩
  intro he
  exact hnew path hpath (congrArg FolderPath.id (hpath' ▸ he))

theorem set_plugin_same_at (path : FolderPath) (t : World) (p : Plugin) :
    SameAt path t (t.setPlugin p) := ⟨rfl, fun _ => rfl⟩

theorem AllReusable.set_plugin {w t : World} {done : List FolderPath} (h : AllReusable w done t)
    (p : Plugin) : AllReusable w done (t.setPlugin p) := by
  intro path hpath hlisted
  obtain ⟨p', hp', hactivates, hreusable⟩ := h path hpath hlisted
  exact ⟨p', hp', hactivates, hreusable.sameAt (set_plugin_same_at _ t p)⟩

/-- The plugin object is there, before it is activated. -/
theorem discovered_set {w t : World} {done : List FolderPath} {path : FolderPath} {p : Plugin}
    (h : Discovered w done t) (hnew : ∀ q ∈ done, q.id ≠ path.id)
    (hp : Plugin.create path (w.disk.get? path) = .ok p) :
    t.loadPlugin path = t.setPlugin p ∧ SameAt p.path w (t.setPlugin p) := by
  have hpath : p.path = path := created_path hp
  have hsame : SameAt path w t := h.rest path (fun hmem => hnew path hmem rfl)
  refine ⟨load_plugin_valid (hsame.disk ▸ hp), ?_⟩
  rw [hpath]
  exact hsame.trans (set_plugin_same_at path t p)

theorem load_plugin_invalid {w : World} {path : FolderPath}
    (h : ∀ p, Plugin.create path (w.disk.get? path) ≠ .ok p) : w.loadPlugin path = w := by
  unfold World.loadPlugin
  cases hc : Plugin.create path (w.disk.get? path) with
  | error error => rfl
  | ok p => exact absurd hc (h p)

theorem discover_skips (env : Env) {w t : World} {done : List FolderPath} {path : FolderPath}
    (h : Discovered w done t) (hnew : ∀ q ∈ done, q.id ≠ path.id)
    (hnone : ∀ p, Plugin.create path (w.disk.get? path) ≠ .ok p)
    (hunlisted : path.id ∉ loadActivePluginsFromDb w) :
    discover env t path = .returned t ∧ Discovered w (done ++ [path]) t := by
  have hsame : SameAt path w t := h.rest path (fun hmem => hnew path hmem rfl)
  have hload : t.loadPlugin path = t := load_plugin_invalid (hsame.disk ▸ hnone)
  refine ⟨?_, ?_⟩
  · unfold discover
    simp only [hload]
    refine if_neg ?_
    rw [h.activePlugins]
    exact hunlisted
  · refine ⟨h.activePlugins, h.stored, h.routes, h.callback, h.embedError, h.keys, ?_, ?_, ?_, ?_⟩
    · intro id q
      rw [found_in_skip hnone]
      exact h.plugins id q
    · intro path' hpath'
      exact h.rest path' (fun hmem => hpath' (List.mem_append_left _ hmem))
    · intro e he
      exact h.bound e (fun path' hmem => he path' (List.mem_append_left _ hmem))
    · intro path' hmem hlisted
      rcases List.mem_append.mp hmem with hdone | hlast
      · exact h.reusable path' hdone hlisted
      · rw [List.mem_singleton.mp hlast] at hlisted
        exact absurd hlisted hunlisted

theorem discover_loads (env : Env) {w t : World} {done : List FolderPath} {path : FolderPath}
    {p : Plugin} (h : Discovered w done t) (hnew : ∀ q ∈ done, q.id ≠ path.id)
    (hp : Plugin.create path (w.disk.get? path) = .ok p)
    (hunlisted : path.id ∉ loadActivePluginsFromDb w) :
    discover env t path = .returned (t.setPlugin p) ∧
      Discovered w (done ++ [path]) (t.setPlugin p) := by
  have hid : p.id = path.id := congrArg FolderPath.id (created_path hp)
  obtain ⟨hload, _⟩ := discovered_set h hnew hp
  refine ⟨?_, ?_⟩
  · unfold discover
    simp only [hload]
    refine if_neg ?_
    change path.id ∉ t.activePlugins
    rw [h.activePlugins]
    exact hunlisted
  · refine ⟨h.activePlugins, h.stored, h.routes, h.callback, h.embedError, h.keys, ?_, ?_, ?_, ?_⟩
    · intro id q
      have hplain : w.discovered p = p := if_neg (hid ▸ hunlisted)
      rw [← found_in_add hp hnew h.plugins, hplain, ← hid]
      rfl
    · intro path' hpath'
      exact (h.rest path' (fun hmem => hpath' (List.mem_append_left _ hmem))).trans
        (set_plugin_same_at path' t p)
    · intro e he
      exact h.bound e (fun path' hmem => he path' (List.mem_append_left _ hmem))
    · intro path' hmem hlisted
      rcases List.mem_append.mp hmem with hdone | hlast
      · exact h.reusable.set_plugin p path' hdone hlisted
      · rw [List.mem_singleton.mp hlast] at hlisted
        exact absurd hlisted hunlisted

theorem discovered_activated {w t u : World} {done : List FolderPath} {path : FolderPath}
    {p : Plugin} (h : Discovered w done t) (hnew : ∀ q ∈ done, q.id ≠ path.id)
    (hp : Plugin.create path (w.disk.get? path) = .ok p)
    (hlisted : path.id ∈ loadActivePluginsFromDb w) (hactivates : w.Activates p)
    (hu : Activated p (t.setPlugin p) u) (hreusable : Reusable (t.setPlugin p) p u)
    (hkeys : u.disk.keys = t.disk.keys) : Discovered w (done ++ [path]) u := by
  have hpath : p.path = path := created_path hp
  have hid : p.id = path.id := congrArg FolderPath.id hpath
  obtain ⟨_, hsame⟩ := discovered_set h hnew hp
  refine ⟨hu.frame.activePlugins.trans h.activePlugins, hu.frame.stored.trans h.stored,
    hu.routes.trans h.routes, hu.frame.callback.trans h.callback,
    hu.frame.embedError.trans h.embedError, hkeys.trans h.keys, ?_, ?_, ?_, ?_⟩
  · intro id q
    have hloaded : w.discovered p = p.loaded (t.setPlugin p) := by
      rw [World.discovered, if_pos (hid ▸ hlisted), hsame.loaded]
    have hset : u.plugins = t.plugins.set path.id (w.discovered p) := by
      rw [hloaded, ← hid, hu.plugins]
      exact Dict.set_set _ _ _ _
    rw [hset]
    exact found_in_add hp hnew h.plugins id q
  · intro path' hpath'
    have hne : path' ≠ p.path := by
      rw [hpath]
      rintro rfl
      exact hpath' (by simp)
    have hbefore := h.rest path' (fun hmem => hpath' (List.mem_append_left _ hmem))
    exact hbefore.trans ((set_plugin_same_at path' t p).trans (hu.frame.sameAt hne))
  · intro e he
    have hfresh : e ∉ (t.setPlugin p).freshEndpoints p := by
      intro hmem
      exact he path (by simp) ((Plugin.with_functions_endpoint hmem).trans hid)
    have hkept : e ∈ u.bound ↔ e ∈ t.bound := by
      rw [hu.bound, List.mem_filter]
      exact and_iff_left (decide_eq_true hfresh)
    exact hkept.trans (h.bound e (fun path' hmem => he path' (List.mem_append_left _ hmem)))
  · have hdone : AllReusable w done u :=
      (h.reusable.set_plugin p).frame hu.frame (hid ▸ hnew)
    intro path' hmem hlisted'
    rcases List.mem_append.mp hmem with hin | hlast
    · exact hdone path' hin hlisted'
    · rw [List.mem_singleton.mp hlast]
      exact ⟨p, hp, hactivates, hreusable.of_sameAt hsame⟩

/-- A listed plugin that does not fail is activated. -/
theorem discover_activates {env : Env} {w t : World} {done : List FolderPath} {path : FolderPath}
    {p : Plugin} (h : Discovered w done t) (hnew : ∀ q ∈ done, q.id ≠ path.id)
    (hp : Plugin.create path (w.disk.get? path) = .ok p)
    (hlisted : path.id ∈ loadActivePluginsFromDb w) (hactivates : w.Activates p) :
    (discover env t path).Ends (Discovered w (done ++ [path])) (fun _ => False) := by
  have hpath : p.path = path := created_path hp
  have hid : p.id = path.id := congrArg FolderPath.id hpath
  obtain ⟨hload, hsame⟩ := discovered_set h hnew hp
  have hin : path.id ∈ (t.setPlugin p).activePlugins := by
    change path.id ∈ t.activePlugins
    rw [h.activePlugins]
    exact hlisted
  have hfind : (t.setPlugin p).activateById path.id = (t.setPlugin p).activate p := by
    unfold World.activateById
    have hget : (t.setPlugin p).plugins.get? path.id = some p := by
      change (t.plugins.set p.id p).get? path.id = some p
      rw [hid, Dict.get?_set_self]
    rw [hget]
  have hcreate : Plugin.create p.path ((t.setPlugin p).disk.get? p.path) = .ok p := by
    rw [hsame.disk, hpath]
    exact hp
  unfold discover
  simp only
  rw [hload, if_pos hin, hfind]
  have hends := ((activate_exact (t.setPlugin p) p).both (activate_reusable hcreate)).both
    (activate_keys (t.setPlugin p) p)
  refine (hends.mono ?_ ?_).rescue (R := fun _ => False) ?_
  · intro u hu
    obtain ⟨⟨⟨hu, _⟩, hreusable⟩, hkeys⟩ := hu
    exact discovered_activated h hnew hp hlisted hactivates hu hreusable hkeys
  · intro u hu
    have hagain := hsame.activates_iff.mpr hactivates
    cases hu.1.1 with
    | requirements error => exact error hagain.requirements
    | settings _ error => exact error hagain.settings
    | override _ _ _ error _ => exact error hagain.override
  · intro error u hu
    exact hu.elim

theorem not_fails {w : World} {path : FolderPath} (h : ¬ w.Fails path) :
    ∃ p, Plugin.create path (w.disk.get? path) = .ok p ∧
      (path.id ∈ loadActivePluginsFromDb w → w.Activates p) := by
  unfold World.Fails at h
  push Not at h
  exact h

theorem fails_of_invalid {w : World} {path : FolderPath}
    (h : ∀ p, Plugin.create path (w.disk.get? path) ≠ .ok p) : w.Fails path :=
  fun p hp => absurd hp (h p)

theorem discover_step {env : Env} {w t : World} {done : List FolderPath} {path : FolderPath}
    (h : Discovered w done t) (hnew : ∀ q ∈ done, q.id ≠ path.id)
    (hok : path.id ∈ loadActivePluginsFromDb w → ¬ w.Fails path) :
    (discover env t path).Ends (Discovered w (done ++ [path])) (fun _ => False) := by
  by_cases hlisted : path.id ∈ loadActivePluginsFromDb w
  · obtain ⟨p, hp, hactivates⟩ := not_fails (hok hlisted)
    exact discover_activates h hnew hp hlisted (hactivates hlisted)
  · cases hc : Plugin.create path (w.disk.get? path) with
    | error error =>
      have hnone : ∀ p, Plugin.create path (w.disk.get? path) ≠ .ok p := by
        intro p hp
        rw [hc] at hp
        cases hp
      obtain ⟨hstep, hdone⟩ := discover_skips env h hnew hnone hlisted
      rw [hstep]
      exact hdone
    | ok p =>
      obtain ⟨hstep, hdone⟩ := discover_loads env h hnew hc hlisted
      rw [hstep]
      exact hdone

/-- The loop runs through the folders before the first listed plugin that fails. -/
theorem discover_loop (env : Env) {w : World} (hclash : w.NoClash) {before rest : List FolderPath}
    (hfolders : w.folders = before ++ rest)
    (hok : ∀ path ∈ before, path.id ∈ loadActivePluginsFromDb w → ¬ w.Fails path) :
    (Outcome.loop (discover env) before w.start).Ends (Discovered w before) (fun _ => False) := by
  refine Outcome.Ends.loop_done ?_ (start_discovered w)
  intro done path rest' hbefore t ht
  have hsplit : w.folders = done ++ path :: (rest' ++ rest) := by
    rw [hfolders, hbefore, List.append_assoc]
    rfl
  exact discover_step ht (id_new hclash hsplit).1 (hok path (by simp [hbefore]))

end CheshireCat.MadHatter
