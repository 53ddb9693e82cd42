import CheshireCat.MadHatter.Caches

namespace CheshireCat.MadHatter
open Base

/-! ### Where a toggle stops -/

/-- The state before the sync of a toggle that activates. -/
def World.switchedOn (w : World) (p : Plugin) (id : String) : World :=
  { w with plugins := w.plugins.set p.id (p.loaded w), activePlugins := w.activePlugins ++ [id] }

/-- The state before the sync of a toggle that deactivates. -/
def World.switchedOff (w : World) (p : Plugin) (id : String) : World :=
  { w with
    plugins := w.plugins.set p.id p.emptied
    activePlugins := w.activePlugins.erase id
    routes := w.routes.diff ((p.endpoints.filter (fun e => e ∈ w.bound)).map CustomEndpoint.spelled) }

theorem syncs_congr {w t : World} (hplugins : t.plugins = w.plugins)
    (hlist : t.activePlugins = w.activePlugins) (hroutes : t.routes = w.routes)
    (hcallback : t.callback = w.callback) (hembed : t.embedError = w.embedError) :
    t.Syncs ↔ w.Syncs := by
  have hcollect : t.collect = w.collect := by
    unfold World.collect World.activeObjects
    rw [hplugins, hlist]
  unfold World.Syncs World.Callable World.collected
  simp only [hcollect, hlist, hroutes, hcallback, hembed]

/-- The sync of a toggle depends on what was there before. -/
theorem Switched.syncs_iff {env : Env} {p : Plugin} {id : String} {w v : World}
    (h : Switched env p id w v) :
    v.Syncs ↔ (id ∈ w.activePlugins → (w.switchedOff p id).Syncs) ∧
      (id ∉ w.activePlugins → (w.switchedOn p id).Syncs) := by
  cases h with
  | off u listed hu =>
    have hsyncs : (u.listed env (w.activePlugins.erase id)).Syncs ↔ (w.switchedOff p id).Syncs :=
      syncs_congr hu.plugins rfl hu.routes hu.frame.callback hu.frame.embedError
    rw [hsyncs]
    exact ⟨fun h => ⟨fun _ => h, fun hun => absurd listed hun⟩, fun h => h.1 listed⟩
  | on u unlisted hu =>
    have hsyncs : (u.listed env (w.activePlugins ++ [id])).Syncs ↔ (w.switchedOn p id).Syncs :=
      syncs_congr hu.plugins rfl hu.routes hu.frame.callback hu.frame.embedError
    rw [hsyncs]
    exact ⟨fun h => ⟨fun hin => absurd hin unlisted, fun _ => h⟩, fun h => h.2 unlisted⟩

/-! ### What a toggle that raises must leave as it was -/

def Plugin.SameFunctions (p q : Plugin) : Prop :=
  p.hooks = q.hooks ∧ p.tools = q.tools ∧ p.forms = q.forms ∧ p.endpoints = q.endpoints

/-- The plugin, the lists of active plugins and the caches are as they were. -/
structure Restored (p : Plugin) (id : String) (w t : World) : Prop where
  plugin : ∃ q, t.plugins.get? id = some q ∧ q.active = p.active ∧ q.SameFunctions p
  activePlugins : t.activePlugins = w.activePlugins
  stored : t.stored = w.stored
  caches : t.caches = w.caches
  agrees : (p.active = true ↔ id ∈ w.activePlugins) →
    ∃ q, t.plugins.get? id = some q ∧ (q.active = true ↔ id ∈ t.activePlugins)

def Atomic (env : Env) (p : Plugin) (id : String) (w : World) : Prop :=
  ∀ error t, togglePlugin env w id = .raised error t → Restored p id w t

/-- An activation raises before it has changed anything, or in a way in which it had raised
before, or it returns and so does the callback. -/
def World.ActivatesCleanly (w : World) (p : Plugin) (id : String) : Prop :=
  w.requirementsError p = none →
    (w.settingsError (p.read w) ≠ none → (p.read w).SameFunctions p) ∧
    (w.settingsError (p.read w) = none → (p.read w).overrideError "activated" ≠ none →
      p.active = true ∧ (p.read w).SameFunctions p) ∧
    (w.settingsError (p.read w) = none → (p.read w).overrideError "activated" = none →
      (w.switchedOn p id).Syncs)

/-- A deactivation raises in the override, or with nothing to take away, or it returns and
so does the callback. -/
def World.DeactivatesCleanly (w : World) (p : Plugin) (id : String) : Prop :=
  p.overrideError "deactivated" = none →
    (¬ w.Removable p → p.hooks = [] ∧ p.tools = [] ∧ p.forms = []) ∧
    (w.Removable p → (w.switchedOff p id).Syncs)

def World.TogglesCleanly (w : World) (p : Plugin) (id : String) : Prop :=
  (id ∈ w.activePlugins → w.DeactivatesCleanly p id) ∧
    (id ∉ w.activePlugins → w.ActivatesCleanly p id)

theorem toggles_cleanly {w : World} {p : Plugin} {id : String} (h : w.Switches p id)
    (hoff : id ∈ w.activePlugins → (w.switchedOff p id).Syncs)
    (hon : id ∉ w.activePlugins → (w.switchedOn p id).Syncs) : w.TogglesCleanly p id := by
  refine ⟨?_, ?_⟩
  · intro hlisted _
    exact ⟨fun hnot => absurd (h.off hlisted).2 hnot, fun _ => hoff hlisted⟩
  · intro hunlisted _
    have hactivates := h.on hunlisted
    exact ⟨fun hnot => absurd hactivates.settings hnot,
      fun _ hnot => absurd hactivates.override hnot, fun _ _ => hon hunlisted⟩

/-- Before the lists change, it is the plugin object that decides. -/
theorem Frame.restored_iff {p q : Plugin} {id : String} {w t : World} (h : Frame p w t)
    (hq : t.plugins.get? id = some q) :
    Restored p id w t ↔ q.active = p.active ∧ q.SameFunctions p := by
  constructor
  · intro hr
    obtain ⟨q', hq', hsame⟩ := hr.plugin
    rw [hq] at hq'
    exact Option.some.inj hq' ▸ hsame
  · intro hsame
    refine ⟨⟨q, hq, hsame⟩, h.activePlugins, h.stored, h.caches, ?_⟩
    intro hagree
    exact ⟨q, hq, by rw [hsame.1, h.activePlugins, hagree]⟩

/-- A switch that raises leaves the plugin as it was in the clean cases only. -/
theorem failed_switch_restored_iff {p : Plugin} {id : String} {w t : World}
    (hkeyed : Keyed w.plugins) (hp : w.plugins.get? id = some p)
    (h : FailedSwitch p id w t) : Restored p id w t ↔ w.TogglesCleanly p id := by
  have hid : p.id = id := hkeyed id p hp
  have hself (q : Plugin) : (w.plugins.set p.id q).get? id = some q := by
    rw [hid, Dict.get?_set_self]
  by_cases hlisted : id ∈ w.activePlugins
  · have hclean : w.TogglesCleanly p id ↔ w.DeactivatesCleanly p id :=
      ⟨fun h => h.1 hlisted, fun h => ⟨fun _ => h, fun hun => absurd hlisted hun⟩⟩
    rw [hclean]
    cases h.off hlisted with
    | override error =>
      rw [(Frame.refl p w).restored_iff hp]
      exact iff_of_true ⟨rfl, rfl, rfl, rfl, rfl⟩ (fun hrun => absurd hrun error)
    | endpoints t run error frame plugins =>
      rw [frame.restored_iff (plugins ▸ hself _)]
      constructor
      · intro hsame _
        obtain ⟨_, hhooks, htools, hforms, _⟩ := hsame
        exact ⟨fun _ => ⟨hhooks.symm, htools.symm, hforms.symm⟩, fun h => absurd h error⟩
      · intro hclean
        obtain ⟨hhooks, htools, hforms⟩ := (hclean run).1 error
        exact ⟨rfl, hhooks.symm, htools.symm, hforms.symm, rfl⟩
  · have hclean : w.TogglesCleanly p id ↔ w.ActivatesCleanly p id :=
      ⟨fun h => h.2 hlisted, fun h => ⟨fun hin => absurd hin hlisted, fun _ => h⟩⟩
    rw [hclean]
    cases h.on hlisted with
    | requirements error =>
      rw [(Frame.refl p w).restored_iff hp]
      exact iff_of_true ⟨rfl, rfl, rfl, rfl, rfl⟩ (fun hrun => absurd hrun error)
    | settings installed error =>
      rw [(load_frame w p).restored_iff (hself (p.read w))]
      constructor
      · intro hsame _
        exact ⟨fun _ => hsame.2, fun h => absurd h error, fun h => absurd h error⟩
      · intro hclean
        exact ⟨rfl, (hclean installed).1 error⟩
    | override t installed created error activated =>
      rw [activated.frame.restored_iff (activated.plugins ▸ hself (p.loaded w))]
      constructor
      · intro hsame _
        exact ⟨fun h => absurd created h, fun _ _ => ⟨hsame.1.symm, hsame.2⟩,
          fun _ h => absurd h error⟩
      · intro hclean
        obtain ⟨hactive, hsame⟩ := (hclean installed).2.1 created error
        exact ⟨hactive.symm, hsame⟩

/-- Once the lists have changed, nothing restores them. -/
theorem Switched.not_restored {env : Env} {p q : Plugin} {id : String} {w v t : World}
    (h : Switched env p id w v) (ht : t.activePlugins = v.activePlugins) :
    ¬ Restored q id w t := by
  intro hr
  have hlist : v.activePlugins = w.activePlugins := ht.symm.trans hr.activePlugins
  cases h with
  | off u listed _ =>
    have hsame : w.activePlugins.erase id = w.activePlugins := hlist
    have hlength := List.length_erase_of_mem listed
    have hpos := List.length_pos_of_mem listed
    rw [hsame] at hlength
    omega
  | on u _ _ =>
    have hsame : w.activePlugins ++ [id] = w.activePlugins := hlist
    simp at hsame

/-- In every reachable state, a toggle of a loaded plugin that raises leaves the plugin, the
lists and the caches as they were exactly where it toggles cleanly. -/
theorem toggle_atomic_iff (env : Env) (stored : Option (List String))
    (disk : Dict FolderPath PluginFolder) (routes : List Route) (events : List Event) (w : World)
    (id : String) (p : Plugin)
    (hrun : run (attempted env) (startUp env (World.boot stored disk routes)).state events = some w)
    (hp : w.plugins.get? id = some p) :
    Atomic env p id w ↔ w.TogglesCleanly p id := by
  have hkeyed : Keyed w.plugins :=
    run_keeps (keyed_lasting env).attempted ((keyed_lasting env).startUp keyed_empty).state hrun
  have hends := toggle_exact env hp
  cases htoggle : togglePlugin env w id with
  | returned t =>
    rw [htoggle] at hends
    obtain ⟨v, hv, hswitches, _, hsyncs⟩ := hends
    obtain ⟨hoff, hon⟩ := hv.syncs_iff.mp hsyncs
    refine iff_of_true ?_ (toggles_cleanly hswitches hoff hon)
    intro error u hu
    rw [htoggle] at hu
    cases hu
  | raised error t =>
    rw [htoggle] at hends
    have hatomic : Atomic env p id w ↔ Restored p id w t := by
      constructor
      · intro h
        exact h error t htoggle
      · intro hr error' u hu
        rw [htoggle] at hu
        cases hu
        exact hr
    rw [hatomic]
    rcases hends with hfailed | ⟨v, hv, hswitches, hsynced, hblocked⟩
    · exact failed_switch_restored_iff hkeyed hp hfailed
    · refine iff_of_false (hv.not_restored hsynced.activePlugins) ?_
      intro hclean
      refine hblocked (hv.syncs_iff.mpr ⟨?_, ?_⟩)
      · intro hlisted
        obtain ⟨hrun, hremovable⟩ := hswitches.off hlisted
        exact (hclean.1 hlisted hrun).2 hremovable
      · intro hunlisted
        have hactivates := hswitches.on hunlisted
        exact (hclean.2 hunlisted hactivates.requirements).2.2 hactivates.settings
          hactivates.override

/-- The requirements cannot be installed. -/
def uninstallableFolder : PluginFolder :=
  { zebraFolder with
    requirementsError := some "Error during plugin zoo requirements installation" }

/-- The Cat with the zoo on disk, just started. -/
def zooStart (folder : PluginFolder) : World :=
  (startUp Env.ascii (World.boot none
    (Dict.ofList [(.core, coreFolder), (.plugin "zoo" zoo_named, folder)]) [])).state

/-- Without its requirements the plugin is left as it was. -/
theorem toggle_atomic_requirements :
    ∃ p, (zooStart uninstallableFolder).plugins.get? "zoo" = some p ∧
      Atomic Env.ascii p "zoo" (zooStart uninstallableFolder) := by
  have hloaded : ((zooStart uninstallableFolder).plugins.get? "zoo").map Plugin.path =
      some (.plugin "zoo" zoo_named) := by decide
  obtain ⟨p, hp, hpath⟩ := Option.map_eq_some_iff.mp hloaded
  refine ⟨p, hp, ?_⟩
  refine (toggle_atomic_iff Env.ascii none _ [] [] _ "zoo" p rfl hp).mpr ⟨?_, ?_⟩
  · intro hlisted
    exact absurd hlisted (by decide)
  · intro _ hinstalled
    unfold World.requirementsError at hinstalled
    rw [hpath] at hinstalled
    exact absurd hinstalled (by decide)

/-- The `activated` override raises. -/
def brokenFolder : PluginFolder :=
  oneFile [("activated", .pluginOverride ⟨"activated", .raises "ConnectionError"⟩),
    ("zebra", .hook ⟨"agent_prompt_prefix", "zebra", 1, ""⟩)]

/-- The plugin is left active, with its functions, and is not listed. -/
theorem activated_override_not_atomic :
    ∃ p error t q, (zooStart brokenFolder).plugins.get? "zoo" = some p ∧
      p.active = false ∧ p.hooks = [] ∧ "zoo" ∉ (zooStart brokenFolder).activePlugins ∧
      togglePlugin Env.ascii (zooStart brokenFolder) "zoo" = .raised error t ∧
      t.plugins.get? "zoo" = some q ∧ q.active = true ∧ q.hooks ≠ [] ∧ "zoo" ∉ t.activePlugins ∧
      ¬ Atomic Env.ascii p "zoo" (zooStart brokenFolder) := by
  have hbefore : ((zooStart brokenFolder).plugins.get? "zoo").map
      (fun p => decide (p.active = false ∧ p.hooks = [])) = some true := by decide
  have hafter : ((togglePlugin Env.ascii (zooStart brokenFolder) "zoo").state.plugins.get? "zoo").map
      (fun q => decide (q.active = true ∧ q.hooks ≠ [])) = some true := by decide
  obtain ⟨error, herror⟩ := Outcome.eq_raised_of_not_returns
    (o := togglePlugin Env.ascii (zooStart brokenFolder) "zoo") (by decide)
  obtain ⟨p, hp, hinactive⟩ := Option.map_eq_some_iff.mp hbefore
  obtain ⟨q, hq, hactive⟩ := Option.map_eq_some_iff.mp hafter
  have hpoff := of_decide_eq_true hinactive
  have hqon := of_decide_eq_true hactive
  refine ⟨p, error, _, q, hp, hpoff.1, hpoff.2, by decide, herror, hq, hqon.1, hqon.2, by decide, ?_⟩
  intro hatomic
  obtain ⟨q', hq', hsame, _⟩ := (hatomic error _ herror).plugin
  rw [hq] at hq'
  rw [← Option.some.inj hq', hqon.1, hpoff.1] at hsame
  cases hsame

end CheshireCat.MadHatter
