import CheshireCat.MadHatter.Caches

namespace CheshireCat.MadHatter
open Base

/-- The modules of the files whose import does not raise. -/
def PluginFolder.modules (folder : PluginFolder) : List Module :=
  folder.pyFiles.keys.filterMap (fun file => (folder.pyFiles.get? file).join)

/-- The core plugin once it is active. -/
def PluginFolder.coreObject (folder : PluginFolder) : Plugin :=
  { ({ path := .core, pyFiles := folder.pyFiles.keys } : Plugin).withFunctions folder.modules with
    active := true }

/-- The folder of the core plugin is a plugin that activates. -/
structure CoreFolder where
  folder : PluginFolder
  files : folder.pyFiles.keys ≠ []
  manifest : folder.manifestError = none
  requirements : folder.requirementsError = none
  settings : folder.hasSettings = true ∨ ∀ error, folder.coreObject.settingsModel ≠ .raises error
  activated : folder.coreObject.overrideError "activated" = none

def CoreFolder.object (core : CoreFolder) : Plugin := core.folder.coreObject

/-- The core plugin's part of the disk and of `sys.modules`. -/
structure CoreOnDisk (core : CoreFolder) (w : World) : Prop where
  folder : ∃ settings, w.disk.get? .core = some { core.folder with hasSettings := settings } ∧
    (core.folder.hasSettings = true → settings = true)
  sysModules : ∀ file m, w.sysModules.get? (.core, file) = some m →
    core.folder.pyFiles.get? file = some (some m)

def HooksCached (core : CoreFolder) (w : World) : Prop :=
  ∀ h ∈ core.object.hooks, ∃ hooks, w.caches.hooks.get? h.name = some hooks ∧ h ∈ hooks

/-- No folder in the plugins folder is a valid plugin with the core plugin's id. -/
def NotShadowed (w : World) : Prop :=
  ∀ path, path ≠ .core → path.id = "core_plugin" →
    ∀ p, Plugin.create path (w.disk.get? path) ≠ .ok p

/-- The core plugin is loaded and listed. Its hooks are cached too once `cached`
holds, that is after the first sync; `clear` holds while folders are discovered. -/
structure CoreKept (core : CoreFolder) (cached clear : Prop) (w : World) : Prop where
  keyed : Keyed w.plugins
  onDisk : CoreOnDisk core w
  listed : "core_plugin" ∈ w.activePlugins
  object : w.plugins.get? "core_plugin" = some core.object
  hooks : cached → HooksCached core w
  notShadowed : clear → NotShadowed w

/-! ### The core plugin activates -/

theorem core_import {core : CoreFolder} {w : World} (h : CoreOnDisk core w) (file : String) :
    w.importModule .core file = (core.folder.pyFiles.get? file).join := by
  obtain ⟨settings, hdisk, _⟩ := h.folder
  unfold World.importModule
  cases hm : w.sysModules.get? (.core, file) with
  | some m => simp [h.sysModules file m hm]
  | none => simp [hdisk]

theorem core_imported {core : CoreFolder} {w : World} (h : CoreOnDisk core w) {p : Plugin}
    (hpath : p.path = .core) (hfiles : p.pyFiles = core.folder.pyFiles.keys) :
    (w.imported p).map Prod.snd = core.folder.modules := by
  unfold World.imported PluginFolder.modules
  rw [hpath, hfiles, List.map_filterMap]
  congr 1
  funext file
  rw [core_import h file]
  cases (core.folder.pyFiles.get? file).join <;> rfl

theorem core_create {core : CoreFolder} {w : World} (h : CoreOnDisk core w) :
    Plugin.create .core (w.disk.get? .core) =
      .ok { path := .core, pyFiles := core.folder.pyFiles.keys } := by
  obtain ⟨settings, hdisk, _⟩ := h.folder
  simp [hdisk, Plugin.create, core.files, core.manifest]

theorem core_loaded {core : CoreFolder} {w : World} (h : CoreOnDisk core w) {p : Plugin}
    (hpath : p.path = .core) (hfiles : p.pyFiles = core.folder.pyFiles.keys) :
    p.loaded w = core.object := by
  have hid : p.id = "core_plugin" := congrArg FolderPath.id hpath
  unfold Plugin.loaded CoreFolder.object PluginFolder.coreObject
  rw [core_imported h hpath hfiles]
  unfold Plugin.withFunctions
  rw [hid, hpath, hfiles]
  rfl

/-- Where files are imported, `sys.modules` agrees with the folder. -/
theorem core_load_on_disk {core : CoreFolder} {w : World} (h : CoreOnDisk core w) {p : Plugin}
    (hpath : p.path = .core) : CoreOnDisk core (w.loadDecoratedFunctions p) := by
  refine ⟨h.folder, ?_⟩
  intro file m hm
  rcases Dict.get?_foldl_set (fun m : String × Module => (p.path, m.1)) Prod.snd hm with
    ⟨b, hb, hk, hv⟩ | hold
  · have hi := imported_mem hb
    have hfile : b.1 = file := congrArg Prod.snd hk
    rw [hpath, core_import h, hfile, hv] at hi
    cases hget : core.folder.pyFiles.get? file with
    | none => simp [hget] at hi
    | some m' =>
      rw [hget] at hi
      exact congrArg some hi
  · exact h.sysModules file m hold

theorem core_activates {core : CoreFolder} {w : World} (h : CoreOnDisk core w) (p : Plugin)
    (hpath : p.path = .core) (hfiles : p.pyFiles = core.folder.pyFiles.keys) :
    ∃ t, w.activate p = .returned t ∧ CoreOnDisk core t ∧ Activated p w t := by
  have hloaded : p.loaded w = core.object := core_loaded h hpath hfiles
  have hmodel : (p.withFunctions ((w.imported p).map Prod.snd)).settingsModel =
      core.object.settingsModel := by rw [← hloaded]; rfl
  have hdisk := core_load_on_disk h hpath
  have hactivated (u : World) : u.runOverride core.object "activated" = .returned u := by
    simp [World.runOverride, CoreFolder.object, core.activated]
  have hreq : (w.disk.get? p.path).bind PluginFolder.requirementsError = none := by
    obtain ⟨settings, hd, _⟩ := h.folder
    rw [hpath, hd]
    exact core.requirements
  have hsettings : ∃ u, (if (w.loadDecoratedFunctions p).hasSettings
        (p.withFunctions ((w.imported p).map Prod.snd)) then
        .returned (w.loadDecoratedFunctions p)
      else (w.loadDecoratedFunctions p).createSettings
        (p.withFunctions ((w.imported p).map Prod.snd))) = .returned u ∧ CoreOnDisk core u := by
    obtain ⟨settings, hd, hkept⟩ := hdisk.folder
    split
    · exact ⟨_, rfl, hdisk⟩
    · rename_i hno
      have hpath' : (p.withFunctions ((w.imported p).map Prod.snd)).path = .core := hpath
      have hfalse : core.folder.hasSettings ≠ true := by
        intro htrue
        apply hno
        simp [World.hasSettings, hpath', hd, hkept htrue]
      have hnot := core.settings.resolve_left hfalse
      unfold World.createSettings
      rw [hmodel]
      split
      · exact ⟨_, rfl, hdisk⟩
      · rename_i error he
        exact absurd he (hnot error)
      · rw [hpath', hd]
        refine ⟨_, rfl, ⟨true, Dict.get?_set_self _ _ _, fun _ => rfl⟩, hdisk.sysModules⟩
  obtain ⟨u, hu, hud⟩ := hsettings
  have hreturn : w.activate p = .returned (u.setPlugin core.object) := by
    unfold World.activate
    rw [hreq]
    simp only
    rw [hu]
    change (u.setPlugin (p.loaded w)).runOverride (p.loaded w) "activated" = _
    rw [hloaded]
    exact hactivated _
  exact ⟨_, hreturn, ⟨hud.folder, hud.sysModules⟩, (activate_ends w p).of_returned hreturn⟩

/-! ### What the other plugins do to it -/

theorem CoreOnDisk.frame {core : CoreFolder} {w t : World} {p : Plugin} (h : CoreOnDisk core w)
    (hf : Frame p w t) (hp : p.path ≠ .core) : CoreOnDisk core t := by
  refine ⟨?_, ?_⟩
  · rw [hf.disk .core hp.symm]
    exact h.folder
  · intro file m hm
    rw [hf.sysModules .core file hp.symm] at hm
    exact h.sysModules file m hm

theorem path_ne_core {p : Plugin} {id : String} (h : p.id = id) (hid : id ≠ "core_plugin") :
    p.path ≠ .core := by
  intro hp
  have : p.id = "core_plugin" := congrArg FolderPath.id hp
  exact hid (h.symm.trans this)

theorem NotShadowed.frame {w t : World} {p : Plugin} (h : NotShadowed w) (hf : Frame p w t)
    (hp : p.id = "core_plugin" → p.path = .core) : NotShadowed t := by
  intro path hpath hid q
  rw [hf.disk path]
  · exact h path hpath hid q
  · intro he
    have hpid : p.id = "core_plugin" := (congrArg FolderPath.id he).symm.trans hid
    exact hpath (he.trans (hp hpid))

theorem CoreKept.frame {core : CoreFolder} {cached clear : Prop} {w t : World} {p : Plugin}
    (h : CoreKept core cached clear w) (hf : Frame p w t) (hp : p.id ≠ "core_plugin") :
    CoreKept core cached clear t := by
  refine ⟨h.keyed.frame hf, h.onDisk.frame hf (path_ne_core rfl hp), ?_, ?_, ?_,
    fun hc => (h.notShadowed hc).frame hf (fun he => absurd he hp)⟩
  · rw [hf.activePlugins]
    exact h.listed
  · rw [hf.other hp.symm]
    exact h.object
  · intro hc
    have hh := h.hooks hc
    unfold HooksCached
    rw [hf.caches]
    exact hh

/-- A sync caches the hooks of the core plugin, whether or not it raises. -/
theorem CoreKept.synced {core : CoreFolder} {cached clear : Prop} {w t : World}
    (h : CoreKept core cached clear w) (hs : Synced w t) : CoreKept core True clear t := by
  have hplugins := hs.plugins
  have hlist := hs.activePlugins
  have hcaches := hs.caches
  obtain ⟨routes, bound, rfl⟩ := hs
  refine ⟨h.keyed, ⟨h.onDisk.folder, h.onDisk.sysModules⟩, h.listed, h.object, ?_, h.notShadowed⟩
  intro _ k hk
  have hobject : core.object ∈ w.activeObjects :=
    List.mem_filter.mpr ⟨Dict.mem_values_of_get? h.object, decide_eq_true h.listed⟩
  exact (determined_of_collect hcaches).hook_cached hobject hk

theorem CoreKept.switched {env : Env} {core : CoreFolder} {cached clear : Prop} {w v : World}
    {p : Plugin} {id : String} (h : CoreKept core cached clear w) (hs : Switched env p id w v)
    (hp : p.id = id) (hid : id ≠ "core_plugin") : CoreKept core cached clear v := by
  have hpid : p.id ≠ "core_plugin" := hp ▸ hid
  have hlisted : "core_plugin" ∈ w.activePlugins := h.listed
  cases hs with
  | off u _ hu =>
    have hk := h.frame hu.frame hpid
    refine ⟨hk.keyed, ⟨hk.onDisk.folder, hk.onDisk.sysModules⟩, ?_, hk.object, hk.hooks,
      hk.notShadowed⟩
    exact (List.mem_erase_of_ne (Ne.symm hid)).mpr hlisted
  | on u _ hu =>
    have hk := h.frame hu.frame hpid
    refine ⟨hk.keyed, ⟨hk.onDisk.folder, hk.onDisk.sysModules⟩, ?_, hk.object, hk.hooks,
      hk.notShadowed⟩
    exact List.mem_append_left _ hlisted

theorem CoreKept.weaken {core : CoreFolder} {cached clear : Prop} {w : World}
    (h : CoreKept core True clear w) : CoreKept core cached clear w :=
  ⟨h.keyed, h.onDisk, h.listed, h.object, fun _ => h.hooks trivial, h.notShadowed⟩

theorem toggle_core_kept (env : Env) {core : CoreFolder} {cached clear : Prop} {w : World}
    (h : CoreKept core cached clear w) {id : String} (hid : id ≠ "core_plugin") :
    (togglePlugin env w id).Ends (CoreKept core cached clear) (CoreKept core cached clear) := by
  cases hp : w.plugins.get? id with
  | none =>
    rw [toggle_not_present env hp]
    exact h
  | some p =>
    have hpid : p.id = id := h.keyed id p hp
    have toggled {t : World} (ht : Toggled env p id w t) : CoreKept core cached clear t := by
      obtain ⟨v, hv, hs⟩ := ht
      exact ((h.switched hv hpid hid).synced hs).weaken
    apply (toggle_ends env hp).mono (fun t ht => toggled ht)
    intro t ht
    rcases ht with hf | ht
    · exact h.frame hf (hpid ▸ hid)
    · exact toggled ht

theorem load_core_kept {core : CoreFolder} {cached clear : Prop} {w : World}
    (h : CoreKept core cached clear w) {path : FolderPath} (hid : path.id ≠ "core_plugin") :
    CoreKept core cached clear (w.loadPlugin path) := by
  unfold World.loadPlugin
  split
  · rename_i p hp
    obtain ⟨f, _, rfl⟩ := Plugin.create_ok hp
    refine ⟨h.keyed.set rfl, ⟨h.onDisk.folder, h.onDisk.sysModules⟩, h.listed, ?_, h.hooks,
      h.notShadowed⟩
    exact (Dict.get?_set_other _ _ (Ne.symm hid)).trans h.object
  · exact h

/-! ### Discovery -/

theorem CoreKept.activated {core : CoreFolder} {cached clear : Prop} {w t : World} {p : Plugin}
    (h : CoreKept core cached clear w) (hp : p.path = .core) (hfiles : p.pyFiles = core.folder.pyFiles.keys)
    (hd : CoreOnDisk core t) (ht : Activated p w t) : CoreKept core cached clear t := by
  have hpid : p.id = "core_plugin" := congrArg FolderPath.id hp
  refine ⟨h.keyed.frame ht.frame, hd, ?_, ?_, ?_,
    fun hc => (h.notShadowed hc).frame ht.frame (fun _ => hp)⟩
  · rw [ht.frame.activePlugins]
    exact h.listed
  · rw [ht.plugins, hpid, Dict.get?_set_self, core_loaded h.onDisk hp hfiles]
  · intro hc
    have hh := h.hooks hc
    unfold HooksCached
    rw [ht.frame.caches]
    exact hh

/-- The folders after the core plugin's do not disturb it. -/
theorem discover_core_kept (env : Env) {core : CoreFolder} {cached : Prop} {w : World}
    (h : CoreKept core cached True w) {path : FolderPath} (hp : path ≠ .core) :
    (discover env w path).Ends (CoreKept core cached True) (CoreKept core cached True) := by
  unfold discover
  simp only
  by_cases hid : path.id = "core_plugin"
  · -- an invalid folder of that name: the core plugin is activated once more
    have hload : w.loadPlugin path = w := by
      unfold World.loadPlugin
      split
      · rename_i p hcreate
        exact absurd hcreate (h.notShadowed trivial path hp hid p)
      · rfl
    rw [hload, hid, if_pos h.listed]
    obtain ⟨t, ht, hd, hact⟩ := core_activates h.onDisk core.object rfl rfl
    have hby : w.activateById "core_plugin" = .returned t := by
      simp [World.activateById, h.object, ht]
    rw [hby]
    exact h.activated rfl rfl hd hact
  · have hload := load_core_kept h hid
    split
    · have hact : ((w.loadPlugin path).activateById path.id).Ends (CoreKept core cached True)
          (CoreKept core cached True) := by
        unfold World.activateById
        split
        · exact hload
        · rename_i p hget
          have hpid : p.id ≠ "core_plugin" := hload.keyed _ p hget ▸ hid
          exact (activate_ends _ p).mono (fun t ht => hload.frame ht.frame hpid)
            (fun t ht => hload.frame ht hpid)
      apply hact.rescue
      intro error u hu
      split
      · exact (toggle_core_kept env hu hid).andThen (fun t ht => ht)
      · exact hu
    · exact hload

/-- The core plugin's folder comes first, and brings it back. -/
theorem discover_core (env : Env) {core : CoreFolder} {cached : Prop} {w : World}
    (hplugins : w.plugins = .empty) (hlisted : "core_plugin" ∈ w.activePlugins)
    (hd : CoreOnDisk core w) (hs : NotShadowed w) (hh : cached → HooksCached core w) :
    (discover env w .core).Ends (CoreKept core cached True) (fun _ => False) := by
  have hcreate := core_create hd
  let p : Plugin := { path := .core, pyFiles := core.folder.pyFiles.keys }
  have hload : w.loadPlugin .core = w.setPlugin p := by simp [World.loadPlugin, hcreate, p]
  have hd' : CoreOnDisk core (w.setPlugin p) := ⟨hd.folder, hd.sysModules⟩
  obtain ⟨t, ht, htd, hact⟩ := core_activates hd' p rfl rfl
  have hby : (w.setPlugin p).activateById "core_plugin" = .returned t := by
    have hget : (w.setPlugin p).plugins.get? "core_plugin" = some p := Dict.get?_set_self _ _ _
    simp [World.activateById, hget, ht]
  have hlisted' : "core_plugin" ∈ (w.setPlugin p).activePlugins := hlisted
  have hkeyed : Keyed (w.setPlugin p).plugins := by
    have hempty : Keyed w.plugins := by
      rw [hplugins]
      intro id q hq
      cases hq
    exact hempty.set rfl
  have hend : discover env w .core = .returned t := by
    unfold discover
    simp only
    rw [hload]
    change (if "core_plugin" ∈ (w.setPlugin p).activePlugins then
      ((w.setPlugin p).activateById "core_plugin").rescue _ else _) = _
    rw [if_pos hlisted', hby]
    rfl
  rw [hend]
  refine ⟨hkeyed.frame hact.frame, htd, ?_, ?_, ?_, ?_⟩
  · rw [hact.frame.activePlugins]
    exact hlisted
  · rw [hact.plugins, core_loaded hd' rfl rfl]
    exact Dict.get?_set_self _ _ _
  · intro hc
    have hcached := hh hc
    unfold HooksCached
    rw [hact.frame.caches]
    exact hcached
  · intro _
    have hs' : NotShadowed (w.setPlugin p) := hs
    exact hs'.frame hact.frame (fun _ => rfl)

theorem core_listed_in_db (w : World) : "core_plugin" ∈ loadActivePluginsFromDb w := by
  unfold loadActivePluginsFromDb
  simp only
  split
  · assumption
  · simp

theorem find_plugins_core_kept (env : Env) {core : CoreFolder} {cached : Prop} {w : World}
    (hd : CoreOnDisk core w) (hs : NotShadowed w) (hh : cached → HooksCached core w) :
    (findPlugins env w).Ends (CoreKept core True True) (CoreKept core cached True) := by
  let x := { w with plugins := .empty, activePlugins := loadActivePluginsFromDb w }
  have hcore : (discover env x .core).Ends (CoreKept core cached True) (fun _ => False) :=
    discover_core env rfl (core_listed_in_db w) ⟨hd.folder, hd.sysModules⟩ hs hh
  have hloop : (Outcome.loop (discover env) (.core :: x.pluginFolders) x).Ends
      (CoreKept core cached True) (CoreKept core cached True) := by
    apply (hcore.mono (fun t ht => ht) (fun t ht => ht.elim)).andThen
    intro t ht
    refine Outcome.Ends.loop ?_ ht
    intro path hpath u hu
    have hne : path ≠ .core := (of_decide_eq_true (List.mem_filter.mp hpath).2).1
    exact discover_core_kept env hu hne
  apply (hloop.mono (fun t ht => ht) (fun t ht => ht)).andThen
  intro t ht
  apply (sync_ends env t).mono (fun u hu => ht.synced hu)
  intro u hu
  exact (ht.synced hu).weaken

/-! ### Runs -/

theorem extract_core_kept {core : CoreFolder} {cached clear : Prop} {w : World}
    (h : CoreKept core cached clear w) (a : Archive) (folder : PluginFolder) :
    CoreKept core cached False (w.extract a folder) := by
  have hpath : a.path ≠ .core := by
    unfold Archive.path
    split
    · exact nofun
    · exact nofun
  have hfolder : (w.extract a folder).disk.get? .core = w.disk.get? .core := by
    unfold World.extract
    simp only
    rw [Dict.get?_set_other _ _ hpath.symm]
    unfold World.removeFolder
    split
    · simp [Dict.get?_restrict]
    · exact (Dict.get?_erase _ _ _).trans (if_neg hpath.symm)
  have hrest : (w.extract a folder).plugins = w.plugins ∧
      (w.extract a folder).activePlugins = w.activePlugins ∧
      (w.extract a folder).sysModules = w.sysModules ∧
      (w.extract a folder).caches = w.caches := by
    unfold World.extract World.removeFolder
    simp only
    split <;> exact ⟨rfl, rfl, rfl, rfl⟩
  obtain ⟨hplugins, hlist, hmodules, hcaches⟩ := hrest
  refine ⟨hplugins ▸ h.keyed, ⟨hfolder ▸ h.onDisk.folder, ?_⟩, hlist ▸ h.listed,
    hplugins ▸ h.object, ?_, False.elim⟩
  · rw [hmodules]
    exact h.onDisk.sysModules
  · unfold HooksCached
    rw [hcaches]
    exact h.hooks

theorem install_core_kept (env : Env) {core : CoreFolder} {w : World}
    (h : CoreKept core True False w) (a : Archive)
    (ha : a.slug = "core_plugin" → ∀ folder, a.folder ≠ .ok folder) :
    (installPlugin env w a).Ends (CoreKept core True False) (CoreKept core True False) := by
  unfold installPlugin
  split
  · exact h
  · rename_i folder hfolder
    have hslug : a.slug ≠ "core_plugin" := fun he => ha he folder hfolder
    have hid : a.path.id ≠ "core_plugin" := by
      unfold Archive.path
      split
      · decide
      · exact hslug
    exact toggle_core_kept env (load_core_kept (extract_core_kept h a folder) hid) hslug

theorem uninstall_core_kept (env : Env) {core : CoreFolder} {w : World}
    (h : CoreKept core True False w) (id : String) :
    (uninstallPlugin env w id).Ends (CoreKept core True False) (CoreKept core True False) := by
  unfold uninstallPlugin
  split
  · rename_i hid
    have hoff : (if id ∈ w.activePlugins then togglePlugin env w id else .returned w).Ends
        (CoreKept core True False) (CoreKept core True False) := by
      split
      · exact toggle_core_kept env h hid.2
      · exact h
    apply hoff.andThen
    intro t ht
    split
    · exact ht
    · rename_i p hp
      have hpath : p.path ≠ .core := path_ne_core (ht.keyed id p hp) hid.2
      have hobject : (t.plugins.erase id).get? "core_plugin" = some core.object := by
        rw [Dict.get?_erase, if_neg (Ne.symm hid.2)]
        exact ht.object
      have hleft (disk : Dict FolderPath PluginFolder)
          (hdisk : disk.get? .core = t.disk.get? .core) :
          CoreKept core True False { t with plugins := t.plugins.erase id, disk := disk } :=
        ⟨ht.keyed.erase id, ⟨hdisk ▸ ht.onDisk.folder, ht.onDisk.sysModules⟩, ht.listed, hobject,
          ht.hooks, False.elim⟩
      unfold World.removeTree World.removeFolder
      split
      · split
        · exact hleft _ (by simp [Dict.get?_restrict])
        · exact hleft _ ((Dict.get?_erase _ _ _).trans (if_neg hpath.symm))
      · exact hleft t.disk rfl
  · exact h

/-- The steps that leave the core plugin alone. -/
def SparesCore (w : World) : Event → Prop
  | .operation (.togglePlugin id) => id ≠ "core_plugin"
  | .operation (.installPlugin a) => a.slug = "core_plugin" → ∀ folder, a.folder ≠ .ok folder
  | .operation .findPlugins => NotShadowed w
  | _ => True

theorem attempted_core_kept (env : Env) {core : CoreFolder} (w : World) (e : Event) (t : World)
    (hc : SparesCore w e) (h : CoreKept core True False w) (ht : attempted env w e = some t) :
    CoreKept core True False t := by
  have forget {u : World} (hu : CoreKept core True True u) : CoreKept core True False u :=
    ⟨hu.keyed, hu.onDisk, hu.listed, hu.object, hu.hooks, False.elim⟩
  cases e with
  | operation op =>
    cases ht
    apply Outcome.Ends.state
    cases op with
    | findPlugins =>
      exact (find_plugins_core_kept env h.onDisk hc h.hooks).mono (fun u hu => forget hu)
        (fun u hu => forget hu)
    | installPlugin a => exact install_core_kept env h a hc
    | uninstallPlugin id => exact uninstall_core_kept env h id
    | togglePlugin id => exact toggle_core_kept env h hc
  | folder path content =>
    obtain ⟨disk, rfl, hdisk⟩ := surround_disk ht
    exact ⟨h.keyed, ⟨hdisk ▸ h.onDisk.folder, h.onDisk.sysModules⟩, h.listed, h.object, h.hooks,
      False.elim⟩
  | embedder error =>
    cases ht
    exact ⟨h.keyed, ⟨h.onDisk.folder, h.onDisk.sysModules⟩, h.listed, h.object, h.hooks, False.elim⟩

/-- Along every run, also through operations that raise, the core plugin stays
listed and its hooks stay cached, as long as the steps leave it alone. -/
theorem core_plugin_stays_active (env : Env) (core : CoreFolder) (stored : Option (List String))
    (disk : Dict FolderPath PluginFolder) (routes : List Route) (events : List Event) (v w : World)
    (hdisk : disk.get? .core = some core.folder)
    (hfirst : NotShadowed (World.boot stored disk routes))
    (hstart : startUp env (World.boot stored disk routes) = .returned v)
    (hmeets : Meets (attempted env) SparesCore v events)
    (hrun : run (attempted env) v events = some w) :
    "core_plugin" ∈ w.activePlugins ∧
      ∀ h ∈ core.object.hooks,
        (∃ hooks, w.caches.hooks.get? h.name = some hooks ∧ h ∈ hooks) ∧
        ∀ (α : Type) (call : CatHook → Option α → Except String (Option α)) (teaCup : Option α),
          executeHook w call h.name teaCup ≠ .error (.notPresent h.name) := by
  have hboot : CoreOnDisk core (World.boot stored disk routes) :=
    ⟨⟨core.folder.hasSettings, hdisk, id⟩, fun _ _ hm => by cases hm⟩
  have hv : CoreKept core True False v := by
    have hfind : (findPlugins env (World.boot stored disk routes)).Ends
        (CoreKept core True True) (CoreKept core False True) :=
      find_plugins_core_kept env hboot hfirst False.elim
    have hend : (startUp env (World.boot stored disk routes)).Ends (CoreKept core True False)
        (fun _ => True) := by
      apply (hfind.mono (fun t ht => ht) (fun _ _ => trivial)).andThen
      intro t ht
      refine (callback_ends env { t with callback := true }).mono ?_ (fun _ _ => trivial)
      intro u hu
      obtain ⟨routes, bound, hu⟩ := hu
      rw [hu]
      exact ⟨ht.keyed, ⟨ht.onDisk.folder, ht.onDisk.sysModules⟩, ht.listed, ht.object, ht.hooks,
        False.elim⟩
    exact hend.of_returned hstart
  have hw : CoreKept core True False w := run_keeps_when (attempted_core_kept env) hmeets hv hrun
  refine ⟨hw.listed, ?_⟩
  intro h hh
  obtain ⟨hooks, hget, hmem⟩ := hw.hooks trivial h hh
  refine ⟨⟨hooks, hget, hmem⟩, ?_⟩
  intro α call teaCup
  exact execute_hook_present hget call teaCup h.name

def catCore : CoreFolder where
  folder := coreFolder
  files := by decide
  manifest := rfl
  requirements := rfl
  settings := Or.inl rfl
  activated := by decide

/-- The guarded operation, among others. -/
def zooEvents : List Event :=
  [.operation (.togglePlugin "zoo"), .operation (.uninstallPlugin "core_plugin")]

theorem core_plugin_stays_active_zoo :
    ∃ v w, startUp Env.ascii (World.boot none zooDisk []) = .returned v ∧
      run (attempted Env.ascii) v zooEvents = some w ∧ "core_plugin" ∈ w.activePlugins := by
  let v := (startUp Env.ascii (World.boot none zooDisk [])).state
  have hv : startUp Env.ascii (World.boot none zooDisk []) = .returned v :=
    Outcome.eq_returned_of_returns (by decide)
  refine ⟨v, _, hv, rfl, ?_⟩
  refine (core_plugin_stays_active Env.ascii catCore none zooDisk [] zooEvents v _ rfl ?_ hv ?_ rfl).1
  · intro path hpath hid p hp
    obtain ⟨folder, hfolder, _⟩ := Plugin.create_ok hp
    cases path with
    | core => exact absurd rfl hpath
    | plugins => exact absurd hid (by decide)
    | plugin name named =>
      have hname : name = "core_plugin" := hid
      subst hname
      have hnone : zooDisk.get? (.plugin "core_plugin" (by decide)) = none := by decide
      have hsome : zooDisk.get? (.plugin "core_plugin" named) = some folder := hfolder
      rw [hnone] at hsome
      cases hsome
  · have hzoo : "zoo" ≠ "core_plugin" := by decide
    exact ⟨hzoo, fun t ht => ⟨trivial, fun _ _ => trivial⟩⟩

/-- The toggle has no guard: it takes the core plugin out, and its hooks with it. -/
theorem toggle_deactivates_core :
    ∃ v w, startUp Env.ascii (World.boot none zooDisk []) = .returned v ∧
      run (attempted Env.ascii) v [.operation (.togglePlugin "core_plugin")] = some w ∧
      "core_plugin" ∉ w.activePlugins ∧
      ∀ (call : CatHook → Option String → Except String (Option String)) (teaCup : Option String),
        executeHook w call "agent_prompt_prefix" teaCup =
          .error (.notPresent "agent_prompt_prefix") := by
  let v := (startUp Env.ascii (World.boot none zooDisk [])).state
  let w := (togglePlugin Env.ascii v "core_plugin").state
  have hv : startUp Env.ascii (World.boot none zooDisk []) = .returned v :=
    Outcome.eq_returned_of_returns (by decide)
  have hnone : w.caches.hooks.get? "agent_prompt_prefix" = none := by decide
  refine ⟨v, w, hv, rfl, by decide, ?_⟩
  intro call teaCup
  simp only [executeHook, hnone]

end CheshireCat.MadHatter
