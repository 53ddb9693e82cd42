import CheshireCat.MadHatter.Caches

namespace CheshireCat.MadHatter
open Base

/-- Everything the plugin provides is cached. -/
structure Plugin.CachedIn (p : Plugin) (caches : Caches) : Prop where
  hooks : ∀ h ∈ p.hooks, ∃ hooks, caches.hooks.get? h.name = some hooks ∧ h ∈ hooks
  tools : ∀ t ∈ p.tools, t ∈ caches.tools
  forms : ∀ f ∈ p.forms, f ∈ caches.forms
  endpoints : ∀ e ∈ p.endpoints, e ∈ caches.endpoints

/-- The plugin is there, active, listed as active, and cached. -/
def Installed (w : World) (id : String) : Prop :=
  ∃ p, w.plugins.get? id = some p ∧ p.active = true ∧ id ∈ w.activePlugins ∧
    (∃ ids, w.stored = some ids ∧ id ∈ ids) ∧ p.CachedIn w.caches

theorem cached_of_active {w : World} (h : w.caches = w.collect) {p : Plugin}
    (hp : p ∈ w.activeObjects) : p.CachedIn w.caches := by
  have hd := determined_of_collect h
  refine ⟨?_, ?_, ?_, ?_⟩
  · intro k hk
    exact hd.hook_cached hp hk
  · intro t ht
    rw [hd.tools]
    exact List.mem_flatMap.mpr ⟨p, hp, ht⟩
  · intro f hf
    rw [hd.forms]
    exact List.mem_flatMap.mpr ⟨p, hp, hf⟩
  · intro e he
    rw [hd.endpoints]
    exact List.mem_flatMap.mpr ⟨p, hp, he⟩

/-- A toggle switches the plugin on exactly where it was not listed. -/
theorem toggled_installed_iff {env : Env} {p : Plugin} {w t : World} (h : Keyed w.plugins)
    {id : String} (hp : w.plugins.get? id = some p) (ht : Toggled env p id w t) :
    Installed t id ↔ id ∉ w.activePlugins := by
  obtain ⟨v, hv, hs⟩ := ht
  have hid : p.id = id := h id p hp
  cases hv with
  | off u hin hu =>
    have hplugins : t.plugins = w.plugins.set p.id p.emptied := hs.plugins.trans hu.plugins
    constructor
    · intro hx
      obtain ⟨q, hq, hactive, _⟩ := hx
      rw [hplugins, hid, Dict.get?_set_self] at hq
      rw [← Option.some.inj hq] at hactive
      cases hactive
    · intro hun
      exact absurd hin hun
  | on u hun hu =>
    have hplugins : t.plugins = w.plugins.set p.id (p.loaded w) := hs.plugins.trans hu.plugins
    have hlist : t.activePlugins = w.activePlugins ++ [id] := hs.activePlugins
    have hget : t.plugins.get? id = some (p.loaded w) := by
      rw [hplugins, hid, Dict.get?_set_self]
    have hin : id ∈ t.activePlugins := by
      rw [hlist]
      exact List.mem_append_right _ (List.mem_singleton_self id)
    have hobject : p.loaded w ∈ t.activeObjects := by
      refine List.mem_filter.mpr ⟨Dict.mem_values_of_get? hget, ?_⟩
      have hloaded : (p.loaded w).id = id := hid
      simpa [hloaded] using hin
    refine ⟨fun _ => hun, fun _ => ⟨p.loaded w, hget, rfl, hin, ?_, ?_⟩⟩
    · refine ⟨_, hs.stored, (env.mem _ id).mpr ?_⟩
      exact List.mem_append_right _ (List.mem_singleton_self id)
    · exact cached_of_active hs.caches hobject

/-- A valid plugin is installed by an installation that returns exactly where its
id was not listed as active before: the toggle deactivates it otherwise. -/
theorem install_activates_iff (env : Env) (stored : Option (List String))
    (disk : Dict FolderPath PluginFolder) (routes : List Route) (events : List Event)
    (v w t : World) (a : Archive) (folder : PluginFolder) (p : Plugin)
    (hstart : startUp env (World.boot stored disk routes) = .returned v)
    (hrun : run (attempted env) v events = some w)
    (hfolder : a.folder = .ok folder) (hvalid : Plugin.create a.path (some folder) = .ok p)
    (hinstall : installPlugin env w a = .returned t) :
    Installed t a.slug ↔ a.slug ∉ w.activePlugins := by
  have hkeyed : Keyed w.plugins :=
    run_keeps (keyed_lasting env).attempted
      (((keyed_lasting env).startUp keyed_empty).of_returned hstart) hrun
  obtain ⟨hplugins, hlist, settings, hdisk⟩ := extract_folder w a folder
  have hcreate : Plugin.create a.path ((w.extract a folder).disk.get? a.path) = .ok p := by
    rw [hdisk]
    exact hvalid
  obtain ⟨_, _, hp⟩ := Plugin.create_ok hvalid
  have hpid : p.id = a.path.id := by rw [hp]; rfl
  let x := (w.extract a folder).setPlugin p
  have hx : Keyed x.plugins := by
    have hk : Keyed (w.extract a folder).plugins := hplugins ▸ hkeyed
    exact hk.set rfl
  have htoggle : togglePlugin env x a.slug = .returned t := by
    rw [← hinstall, installPlugin, hfolder]
    simp only
    rw [load_plugin_valid hcreate]
  by_cases hslug : a.slug = ""
  · rw [hslug, toggle_not_present env hx.empty_id] at htoggle
    cases htoggle
  · have hid : p.id = a.slug := hpid.trans (archive_path_id hslug)
    have hget : x.plugins.get? a.slug = some p := by
      change ((w.extract a folder).plugins.set p.id p).get? a.slug = some p
      rw [hid, Dict.get?_set_self]
    have ht : Toggled env p a.slug x t := (toggle_ends env hget).of_returned htoggle
    rw [toggled_installed_iff hx hget ht]
    change a.slug ∉ (w.extract a folder).activePlugins ↔ _
    rw [hlist]

def zooArchive : Archive := ⟨"zoo", .ok zebraFolder⟩

/-- A first installation activates. -/
theorem install_activates_zoo :
    ∃ v t, startUp Env.ascii (World.boot none zooDisk []) = .returned v ∧
      installPlugin Env.ascii v zooArchive = .returned t ∧ Installed t "zoo" := by
  let v := (startUp Env.ascii (World.boot none zooDisk [])).state
  let t := (installPlugin Env.ascii v zooArchive).state
  have hv : startUp Env.ascii (World.boot none zooDisk []) = .returned v :=
    Outcome.eq_returned_of_returns (by decide)
  have ht : installPlugin Env.ascii v zooArchive = .returned t :=
    Outcome.eq_returned_of_returns (by decide)
  have h := install_activates_iff Env.ascii none zooDisk [] [] v v t zooArchive zebraFolder _ hv rfl
    rfl rfl ht
  exact ⟨v, t, hv, ht, h.mpr (by decide)⟩

/-- Installing an active plugin again deactivates it. -/
theorem reinstall_deactivates :
    ∃ v w t, startUp Env.ascii (World.boot none zooDisk []) = .returned v ∧
      installPlugin Env.ascii v zooArchive = .returned w ∧
      installPlugin Env.ascii w zooArchive = .returned t ∧ ¬ Installed t "zoo" := by
  let v := (startUp Env.ascii (World.boot none zooDisk [])).state
  let w := (installPlugin Env.ascii v zooArchive).state
  let t := (installPlugin Env.ascii w zooArchive).state
  refine ⟨v, w, t, Outcome.eq_returned_of_returns (by decide),
    Outcome.eq_returned_of_returns (by decide), Outcome.eq_returned_of_returns (by decide), ?_⟩
  intro hx
  obtain ⟨_, _, _, hlisted, _⟩ := hx
  revert hlisted
  decide

end CheshireCat.MadHatter
