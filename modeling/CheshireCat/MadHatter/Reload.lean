import CheshireCat.MadHatter.Steps

namespace CheshireCat.MadHatter
open Base

/-- The folder is the same on disk, and so are the modules imported from it. -/
structure SameAt (path : FolderPath) (w t : World) : Prop where
  disk : t.disk.get? path = w.disk.get? path
  modules : ∀ file, t.sysModules.get? (path, file) = w.sysModules.get? (path, file)

section SameAt

variable {path : FolderPath} {p : Plugin} {w t u : World}

theorem SameAt.trans (h : SameAt path w t) (h' : SameAt path t u) : SameAt path w u :=
  ⟨h'.disk.trans h.disk, fun file => (h'.modules file).trans (h.modules file)⟩

theorem Frame.sameAt (h : Frame p w t) (hne : path ≠ p.path) : SameAt path w t :=
  ⟨h.disk path hne, fun file => h.sysModules path file hne⟩

theorem SameAt.importModule (h : SameAt path w t) (file : String) :
    t.importModule path file = w.importModule path file := by
  unfold World.importModule
  rw [h.modules, h.disk]

theorem imported_congr (h : ∀ file, t.importModule p.path file = w.importModule p.path file) :
    t.imported p = w.imported p := by
  unfold World.imported
  simp only [h]

theorem SameAt.imported (h : SameAt p.path w t) : t.imported p = w.imported p :=
  imported_congr h.importModule

theorem SameAt.read (h : SameAt p.path w t) : p.read t = p.read w := by
  rw [Plugin.read, Plugin.read, h.imported]

theorem SameAt.loaded (h : SameAt p.path w t) : p.loaded t = p.loaded w := by
  rw [Plugin.loaded, Plugin.loaded, h.imported]

theorem SameAt.freshEndpoints (h : SameAt p.path w t) : t.freshEndpoints p = w.freshEndpoints p := by
  have hkeys (file : String) :
      (p.path, file) ∈ t.sysModules.keys ↔ (p.path, file) ∈ w.sysModules.keys := by
    rw [Dict.mem_keys_iff, Dict.mem_keys_iff, h.modules]
  unfold World.freshEndpoints
  simp only [h.imported, hkeys]

theorem SameAt.requirementsError (h : SameAt p.path w t) :
    t.requirementsError p = w.requirementsError p := by
  rw [World.requirementsError, World.requirementsError, h.disk]

theorem SameAt.settingsError (h : SameAt p.path w t) :
    t.settingsError p = w.settingsError p := by
  unfold World.settingsError World.hasSettings
  rw [h.disk]

theorem SameAt.activates_iff (h : SameAt p.path w t) : t.Activates p ↔ w.Activates p := by
  have hsettings : t.settingsError (p.read w) = w.settingsError (p.read w) :=
    SameAt.settingsError (p := p.read w) h
  constructor
  · intro ha
    obtain ⟨hreq, hset, hover⟩ := ha
    rw [h.requirementsError] at hreq
    rw [h.read] at hset hover
    exact ⟨hreq, hsettings ▸ hset, hover⟩
  · intro ha
    obtain ⟨hreq, hset, hover⟩ := ha
    exact ⟨h.requirementsError.trans hreq, by rw [h.read, hsettings, hset], by rw [h.read, hover]⟩

end SameAt

/-! ### Activating again -/

/-- The plugin can be created and activated again, with the functions it had. -/
structure Reusable (w : World) (p : Plugin) (t : World) : Prop where
  create : Plugin.create p.path (t.disk.get? p.path) = .ok p
  activates : t.Activates p
  loaded : p.loaded t = p.loaded w

theorem Reusable.sameAt {w t u : World} {p : Plugin} (h : Reusable w p t)
    (hs : SameAt p.path t u) : Reusable w p u :=
  ⟨hs.disk ▸ h.create, hs.activates_iff.mpr h.activates, hs.loaded.trans h.loaded⟩

theorem Reusable.of_sameAt {w t u : World} {p : Plugin} (h : Reusable t p u)
    (hs : SameAt p.path w t) : Reusable w p u :=
  ⟨h.create, h.activates, h.loaded.trans hs.loaded⟩

/-- Importing again finds the modules that were imported. -/
theorem import_loaded {w t : World} {p : Plugin} {f : PluginFolder} {settings : Bool}
    (hdisk : w.disk.get? p.path = some f)
    (hdisk' : t.disk.get? p.path = some { f with hasSettings := settings })
    (hmodules : t.sysModules = (w.loadDecoratedFunctions p).sysModules) (file : String) :
    t.importModule p.path file = w.importModule p.path file := by
  have hfold : t.sysModules = (w.imported p).foldl
      (fun (d : Dict (FolderPath × String) Module) m => d.set (p.path, m.1) m.2) w.sysModules :=
    hmodules
  cases hget : t.sysModules.get? (p.path, file) with
  | some m =>
    have hleft : t.importModule p.path file = some m := by
      rw [World.importModule, hget]
    rw [hfold] at hget
    rcases Dict.get?_foldl_set _ _ hget with ⟨m', hm', hkey, hvalue⟩ | hold
    · have hfile : m'.1 = file := congrArg Prod.snd hkey
      have hright := imported_mem hm'
      rw [hfile, hvalue] at hright
      rw [hleft, hright]
    · rw [hleft, World.importModule, hold]
  | none =>
    have hold : w.sysModules.get? (p.path, file) = none := by
      cases hold : w.sysModules.get? (p.path, file) with
      | none => rfl
      | some m =>
        have hkey : (p.path, file) ∈ t.sysModules.keys := by
          rw [hfold]
          refine (Dict.mem_keys_foldl_set _ _ _ _ _).mpr (Or.inr ?_)
          exact (Dict.mem_keys_iff _ _).mpr ⟨m, hold⟩
        obtain ⟨m', hm'⟩ := (Dict.mem_keys_iff _ _).mp hkey
        rw [hget] at hm'
        cases hm'
    rw [World.importModule, World.importModule, hget, hold, hdisk, hdisk']
    rfl

/-- After the settings step there is a settings file, or its model has no defaults. -/
theorem settings_step_disk {w : World} {p : Plugin} {f : PluginFolder}
    (hdisk : w.disk.get? p.path = some f) :
    (if w.hasSettings p then .returned w else w.createSettings p).Ends
      (fun t => t.sysModules = w.sysModules ∧ ∃ settings,
        t.disk.get? p.path = some { f with hasSettings := settings } ∧
        (settings = true ∨ p.settingsModel = .validationError))
      (fun _ => True) := by
  unfold World.hasSettings World.createSettings
  simp only [hdisk]
  split
  · rename_i hsettings
    exact ⟨rfl, f.hasSettings, hdisk, Or.inl hsettings⟩
  · cases hmodel : p.settingsModel with
    | validationError => exact ⟨rfl, f.hasSettings, hdisk, Or.inr rfl⟩
    | raises error => trivial
    | returns => exact ⟨rfl, true, Dict.get?_set_self _ _ _, Or.inl rfl⟩

theorem activate_disk {w : World} {p : Plugin} {f : PluginFolder}
    (hdisk : w.disk.get? p.path = some f) :
    (w.activate p).Ends
      (fun t => t.sysModules = (w.loadDecoratedFunctions p).sysModules ∧ ∃ settings,
        t.disk.get? p.path = some { f with hasSettings := settings } ∧
        (settings = true ∨ (p.read w).settingsModel = .validationError))
      (fun _ => True) := by
  unfold World.activate
  split
  · trivial
  · simp only
    have hstep := settings_step_disk (w := w.loadDecoratedFunctions p) (p := p.read w) hdisk
    apply (hstep.mono (fun t ht => ht) (fun _ _ => trivial)).andThen
    intro t ht
    refine (run_override_ends (t.setPlugin (p.loaded w)) (p.loaded w) "activated").mono ?_
      (fun _ _ => trivial)
    intro u hu
    rw [hu.1]
    exact ht

/-- A plugin that has been activated can be activated again. -/
theorem activate_reusable {w : World} {p : Plugin}
    (hcreate : Plugin.create p.path (w.disk.get? p.path) = .ok p) :
    (w.activate p).Ends (Reusable w p) (fun _ => True) := by
  obtain ⟨f, hdisk, _⟩ := Plugin.create_ok hcreate
  refine ((activate_exact w p).both (activate_disk hdisk)).mono ?_ (fun _ _ => trivial)
  intro t ht
  obtain ⟨⟨_, hactivates⟩, hmodules, settings, hdisk', hsettings⟩ := ht
  have himported : t.imported p = w.imported p :=
    imported_congr (import_loaded hdisk hdisk' hmodules)
  have hread : p.read t = p.read w := by
    rw [Plugin.read, Plugin.read, himported]
  refine ⟨?_, ⟨?_, ?_, ?_⟩, ?_⟩
  · rw [hdisk']
    rw [hdisk] at hcreate
    exact hcreate
  · have hreq := hactivates.requirements
    rw [World.requirementsError, hdisk] at hreq
    rw [World.requirementsError, hdisk']
    exact hreq
  · rw [hread]
    have hfile : t.disk.get? (p.read w).path = some { f with hasSettings := settings } := hdisk'
    unfold World.settingsError World.hasSettings
    rw [hfile]
    rcases hsettings with rfl | hmodel
    · rfl
    · simp [hmodel]
  · rw [hread]
    exact hactivates.override
  · rw [Plugin.loaded, Plugin.loaded, himported]

/-! ### The folders on disk -/

theorem create_settings_keys (w : World) (p : Plugin) :
    (w.createSettings p).Ends (fun t => t.disk.keys = w.disk.keys) (fun t => t = w) := by
  unfold World.createSettings
  split
  · rfl
  · rfl
  · split
    · rfl
    · rename_i folder hdisk
      exact (Dict.keys_set _ _ _).trans (if_pos ((Dict.mem_keys_iff _ _).mpr ⟨folder, hdisk⟩))

theorem activate_keys (w : World) (p : Plugin) :
    (w.activate p).Ends (fun t => t.disk.keys = w.disk.keys)
      (fun t => t.disk.keys = w.disk.keys) := by
  unfold World.activate
  split
  · rfl
  · simp only
    have hsettings : (if (w.loadDecoratedFunctions p).hasSettings (p.read w) then
          .returned (w.loadDecoratedFunctions p)
        else (w.loadDecoratedFunctions p).createSettings (p.read w)).Ends
        (fun t => t.disk.keys = w.disk.keys) (fun t => t.disk.keys = w.disk.keys) := by
      split
      · rfl
      · apply (create_settings_keys _ _).mono (fun t ht => ht)
        intro t ht
        rw [ht]
        rfl
    apply hsettings.andThen
    intro t ht
    refine (run_override_ends (t.setPlugin (p.loaded w)) (p.loaded w) "activated").mono ?_ ?_
    all_goals
      intro u hu
      rw [hu.1]
      exact ht

theorem deactivate_disk (w : World) (p : Plugin) :
    (w.deactivate p).Ends (fun t => t.disk = w.disk) (fun t => t.disk = w.disk) := by
  unfold World.deactivate
  refine ((run_override_ends w p "deactivated").mono (fun t ht => ht) ?_).andThen ?_
  · intro t ht
    rw [ht.1]
  · intro t ht
    obtain ⟨rfl, _⟩ := ht
    refine ((deactivate_endpoints_ends _ _).mono (fun u hu => hu) ?_).andThen ?_
    · intro u hu
      obtain ⟨rs, hu⟩ := hu
      rw [hu]
      rfl
    · intro u hu
      rw [hu]
      rfl

/-- A toggle that deactivates writes nothing to disk. -/
theorem toggle_off_disk (env : Env) {w : World} {id : String} {p : Plugin}
    (hp : w.plugins.get? id = some p) (hlisted : id ∈ w.activePlugins) :
    (togglePlugin env w id).Ends (fun t => t.disk = w.disk) (fun t => t.disk = w.disk) := by
  unfold togglePlugin switchPlugin
  simp only [hp]
  rw [if_pos hlisted]
  have hswitch : ((w.deactivate p).andThen (fun w =>
      .returned { w with activePlugins := w.activePlugins.erase id })).Ends
      (fun t => t.disk = w.disk) (fun t => t.disk = w.disk) :=
    (deactivate_disk w p).andThen (fun t ht => ht)
  apply hswitch.andThen
  intro t ht
  refine (sync_ends env _).mono ?_ ?_
  all_goals
    intro u hu
    obtain ⟨routes, bound, rfl⟩ := hu
    exact ht

end CheshireCat.MadHatter
