import CheshireCat.Base.Runs
import CheshireCat.Base.StableSort
import CheshireCat.MadHatter.World

namespace CheshireCat.MadHatter
open Base

/-- The plugins that are listed as active, in the order of `self.plugins`. -/
def World.activeObjects (w : World) : List Plugin :=
  w.plugins.values.filter (fun p => p.id ∈ w.activePlugins)

def addHook (hooks : Dict String (List CatHook)) (h : CatHook) : Dict String (List CatHook) :=
  hooks.push h.name h

def addHooks (hooks : Dict String (List CatHook)) (p : Plugin) : Dict String (List CatHook) :=
  p.hooks.foldl addHook hooks

def World.collect (w : World) : Caches where
  hooks := (w.activeObjects.foldl addHooks Dict.empty).mapValues (sortDescending CatHook.priority)
  tools := w.activeObjects.flatMap Plugin.tools
  forms := w.activeObjects.flatMap Plugin.forms
  endpoints := w.activeObjects.flatMap Plugin.endpoints

/-- `CheshireCat.activate_endpoints`. -/
def activateEndpoints (env : Env) (w : World) : Outcome World :=
  Outcome.loop (fun w e =>
    if e.pluginId ∈ w.activePlugins then e.activate env w else .returned w) w.caches.endpoints w

def embedProcedures (w : World) : Outcome World :=
  match w.embedError with
  | none => .returned w
  | some error => .raised error w

def onFinishPluginsSyncCallback (env : Env) (w : World) : Outcome World :=
  (activateEndpoints env w).andThen embedProcedures

def syncHooksToolsAndForms (env : Env) (w : World) : Outcome World :=
  let w := { w with caches := w.collect }
  if w.callback then onFinishPluginsSyncCallback env w else .returned w

/-- The message lacks its `f`, so it does not name the plugin. -/
def notPresent : String := "Plugin \x7bplugin_id\x7d not present in plugins folder"

/-- The first half of `toggle_plugin`: the plugin and the list of active plugins. -/
def switchPlugin (w : World) (p : Plugin) (id : String) : Outcome World :=
  if id ∈ w.activePlugins then
    (w.deactivate p).andThen (fun w =>
      .returned { w with activePlugins := w.activePlugins.erase id })
  else
    (w.activate p).andThen (fun w =>
      .returned { w with activePlugins := w.activePlugins ++ [id] })

def togglePlugin (env : Env) (w : World) (id : String) : Outcome World :=
  match w.plugins.get? id with
  | none => .raised notPresent w
  | some p =>
    (switchPlugin w p id).andThen (fun w =>
      syncHooksToolsAndForms env { w with stored := some (env.listOfSet w.activePlugins) })

def loadActivePluginsFromDb (w : World) : List String :=
  let activePlugins := w.stored.getD []
  if "core_plugin" ∈ activePlugins then activePlugins else activePlugins ++ ["core_plugin"]

/-- `load_plugin`: a folder that is not a valid plugin is only logged. -/
def World.loadPlugin (w : World) (path : FolderPath) : World :=
  match Plugin.create path (w.disk.get? path) with
  | .ok p => w.setPlugin p
  | .error _ => w

def World.pluginFolders (w : World) : List FolderPath :=
  w.disk.keys.filter (fun path => path ≠ .core ∧ path ≠ .plugins)

/-- `self.plugins[plugin_id].activate()`. -/
def World.activateById (w : World) (id : String) : Outcome World :=
  match w.plugins.get? id with
  | none => .raised "KeyError" w
  | some p => w.activate p

/-- One folder of `find_plugins`. -/
def discover (env : Env) (w : World) (path : FolderPath) : Outcome World :=
  let w := w.loadPlugin path
  if path.id ∈ w.activePlugins then
    (w.activateById path.id).rescue (fun error w =>
      if path.id ∈ w.activePlugins then
        (togglePlugin env w path.id).andThen (fun w => .raised error w)
      else .raised error w)
  else .returned w

def findPlugins (env : Env) (w : World) : Outcome World :=
  let w := { w with plugins := .empty, activePlugins := loadActivePluginsFromDb w }
  (Outcome.loop (discover env) (.core :: w.pluginFolders) w).andThen (syncHooksToolsAndForms env)

/-- A package: the slug of its file name, and the folder it unpacks to. -/
structure Archive where
  slug : String
  folder : Except String PluginFolder

def Archive.path (a : Archive) : FolderPath :=
  if h : a.slug = "" then .plugins else .plugin a.slug h

def World.removeFolder (w : World) (path : FolderPath) : World :=
  match path with
  | .plugins => { w with disk := w.disk.restrict (fun k => k = .core) }
  | path => { w with disk := w.disk.erase path }

/-- `PluginExtractor.extract`. An empty slug is the plugins folder itself. The
settings file of a folder that is replaced is kept. -/
def World.extract (w : World) (a : Archive) (folder : PluginFolder) : World :=
  let kept := match w.disk.get? a.path with
    | some old => old.hasSettings
    | none => false
  let w := w.removeFolder a.path
  { w with disk := w.disk.set a.path { folder with hasSettings := folder.hasSettings || kept } }

def installPlugin (env : Env) (w : World) (a : Archive) : Outcome World :=
  match a.folder with
  | .error error => .raised error w
  | .ok folder => togglePlugin env ((w.extract a folder).loadPlugin a.path) a.slug

def World.removeTree (w : World) (path : FolderPath) : Outcome World :=
  if path ∈ w.disk.keys then .returned (w.removeFolder path) else .raised "FileNotFoundError" w

def uninstallPlugin (env : Env) (w : World) (id : String) : Outcome World :=
  if id ∈ w.plugins.keys ∧ id ≠ "core_plugin" then
    (if id ∈ w.activePlugins then togglePlugin env w id else .returned w).andThen (fun w =>
      match w.plugins.get? id with
      | none => .raised "KeyError" w
      | some p => { w with plugins := w.plugins.erase id }.removeTree p.path)
  else .returned w

inductive HookError where
  | notPresent (hookName : String)
  | keyError (pluginId : String)
deriving DecidableEq

def HookError.text : HookError → String
  | .notPresent hookName => "Hook " ++ hookName ++ " not present in any plugin"
  | .keyError pluginId => pluginId

/-- One hook of the pipe. A hook that raises is logged, under its plugin's name, where no other plugin
has imported it. -/
def pourTea {α : Type} (w : World) (call : CatHook → Option α → Except String (Option α))
    (piped : Bool) (teaCup : Option α) (h : CatHook) : Except HookError (Option α) :=
  match call h teaCup with
  | .ok (some teaSpoon) => .ok (if piped then some teaSpoon else none)
  | .ok none => .ok teaCup
  | .error _ => if h.pluginId ∈ w.plugins.keys then .ok teaCup else .error (.keyError h.pluginId)

/-- `execute_hook`. `call` is the Python call of a hook on the tea cup, which is
`none` without arguments. -/
def executeHook {α : Type} (w : World) (call : CatHook → Option α → Except String (Option α))
    (hookName : String) (teaCup : Option α) : Except HookError (Option α) :=
  match w.caches.hooks.get? hookName with
  | none => .error (.notPresent hookName)
  | some hooks => hooks.foldlM (pourTea w call teaCup.isSome) teaCup

/-- Only a hook that is not cached is reported as not present. -/
theorem execute_hook_present {α : Type} {w : World} {hookName : String} {hooks : List CatHook}
    (h : w.caches.hooks.get? hookName = some hooks)
    (call : CatHook → Option α → Except String (Option α)) (teaCup : Option α) (name : String) :
    executeHook w call hookName teaCup ≠ .error (.notPresent name) := by
  unfold executeHook
  simp only [h]
  clear h
  generalize teaCup.isSome = piped
  induction hooks generalizing teaCup with
  | nil =>
    intro he
    cases he
  | cons k ks ih =>
    rw [List.foldlM_cons]
    cases hk : pourTea w call piped teaCup k with
    | ok cup => exact ih cup
    | error error =>
      intro he
      have herror : error = .notPresent name := Except.error.inj he
      unfold pourTea at hk
      split at hk
      · cases hk
      · cases hk
      · split at hk
        · cases hk
        · rw [herror] at hk
          cases hk

/-! ### Runs -/

inductive Operation where
  | findPlugins
  | installPlugin (archive : Archive)
  | uninstallPlugin (id : String)
  | togglePlugin (id : String)

def perform (env : Env) (w : World) : Operation → Outcome World
  | .findPlugins => findPlugins env w
  | .installPlugin archive => installPlugin env w archive
  | .uninstallPlugin id => uninstallPlugin env w id
  | .togglePlugin id => togglePlugin env w id

/-- Between two operations a plugin folder may change on disk, and the embedder
may fail or recover. -/
inductive Event where
  | operation (op : Operation)
  | folder (path : FolderPath) (content : Option PluginFolder)
  | embedder (error : Option String)

def World.changeFolder (w : World) (path : FolderPath) (content : Option PluginFolder) : World :=
  match content with
  | none => { w with disk := w.disk.erase path }
  | some folder => { w with disk := w.disk.set path folder }

/-- The events that are no operation. The core plugin is part of the program. -/
def surround (w : World) (path : FolderPath) (content : Option PluginFolder) : Option World :=
  if path = .core then none else some (w.changeFolder path content)

/-- One event, where only operations that return are taken. -/
def completed (env : Env) (w : World) : Event → Option World
  | .operation op =>
    match perform env w op with
    | .returned w => some w
    | .raised _ _ => none
  | .folder path content => surround w path content
  | .embedder error => some { w with embedError := error }

/-- One event. After an operation that raises, the state it left is used. -/
def attempted (env : Env) (w : World) : Event → Option World
  | .operation op => some (perform env w op).state
  | .folder path content => surround w path content
  | .embedder error => some { w with embedError := error }

theorem surround_disk {w t : World} {path : FolderPath} {content : Option PluginFolder}
    (h : surround w path content = some t) :
    ∃ disk, t = { w with disk := disk } ∧ disk.get? .core = w.disk.get? .core := by
  unfold surround at h
  split at h
  · cases h
  · rename_i hpath
    cases h
    cases content with
    | none => exact ⟨_, rfl, (Dict.get?_erase _ _ _).trans (if_neg (Ne.symm hpath))⟩
    | some folder => exact ⟨_, rfl, Dict.get?_set_other _ _ (Ne.symm hpath)⟩

theorem completed_operation {env : Env} {w t : World} {op : Operation} :
    completed env w (.operation op) = some t ↔ perform env w op = .returned t := by
  cases h : perform env w op with
  | returned u => simp [completed, h]
  | raised error u => simp [completed, h]

/-- A new process: nothing is loaded and the app has its core routes. -/
def World.boot (stored : Option (List String)) (disk : Dict FolderPath PluginFolder)
    (routes : List Route) : World :=
  { stored := stored, disk := disk, routes := routes }

/-- `MadHatter.__init__`, then the Cat sets its callback and calls it once. -/
def startUp (env : Env) (w : World) : Outcome World :=
  (findPlugins env w).andThen (fun w => onFinishPluginsSyncCallback env { w with callback := true })

end CheshireCat.MadHatter
