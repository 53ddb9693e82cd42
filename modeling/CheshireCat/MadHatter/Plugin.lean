import CheshireCat.Base.Dict
import Mathlib.Data.Finset.Basic
import Mathlib.Data.List.Sort
import Mathlib.Data.String.Basic

namespace CheshireCat.MadHatter
open Base

/-- A `@hook`. `function` is the qualified name of the decorated function. -/
structure CatHook where
  name : String
  function : String
  priority : Int
  pluginId : String
deriving DecidableEq

/-- What the tools and the forms of a plugin have in common. -/
structure Procedure where
  name : String
  procedureType : String
  triggersMap : Dict String (List String)
  pluginId : String
deriving DecidableEq

structure CustomEndpoint where
  routePrefix : String
  path : String
  function : String
  methods : Finset String
  pluginId : String
deriving DecidableEq

def CustomEndpoint.name (e : CustomEndpoint) : String := e.routePrefix ++ e.path

/-- How a call of an override ends. -/
inductive OverrideEnd where
  | returns
  | validationError
  | raises (error : String)
deriving DecidableEq

structure PluginOverride where
  name : String
  function : OverrideEnd
deriving DecidableEq

/-- An attribute of an imported module. -/
inductive Member where
  | hook (h : CatHook)
  | tool (t : Procedure)
  | form (f : Procedure) (autopilot : Bool)
  | endpoint (e : CustomEndpoint)
  | pluginOverride (o : PluginOverride)
  | other
deriving DecidableEq

/-- The attributes of a module, in definition order. -/
abbrev Module := Dict String Member

/-- `inspect.getmembers`: the attributes of one kind, sorted by name. -/
def getmembers {α : Type} (module : Module) (kind : Member → Option α) : List (String × α) :=
  (module.entries.filterMap (fun p => (kind p.2).map (fun x => (p.1, x)))).insertionSort
    (fun p q => p.1 ≤ q.1)

def isCatHook : Member → Option CatHook
  | .hook h => some h
  | _ => none

def isCatTool : Member → Option Procedure
  | .tool t => some t
  | _ => none

def isCatForm : Member → Option Procedure
  | .form f true => some f
  | _ => none

def isCustomEndpoint : Member → Option CustomEndpoint
  | .endpoint e => some e
  | _ => none

def isCatPluginOverride : Member → Option PluginOverride
  | .pluginOverride o => some o
  | _ => none

/-- A plugin folder on disk. A python file is `none` where its import raises. -/
structure PluginFolder where
  pyFiles : Dict String (Option Module)
  manifestError : Option String := none
  requirementsError : Option String := none
  hasSettings : Bool := false
deriving DecidableEq

inductive FolderPath where
  | core
  | plugins
  | plugin (name : String) (named : name ≠ "")
deriving DecidableEq

/-- The base name of the folder. -/
def FolderPath.id : FolderPath → String
  | .core => "core_plugin"
  | .plugins => "plugins"
  | .plugin name _ => name

def FolderPath.text : FolderPath → String
  | .core => "cat/mad_hatter/core_plugin/"
  | .plugins => "cat/plugins/"
  | .plugin name _ => "cat/plugins/" ++ name ++ "/"

theorem FolderPath.id_ne_empty (path : FolderPath) : path.id ≠ "" := by
  cases path with
  | core => decide
  | plugins => decide
  | plugin name named => exact named

structure Plugin where
  path : FolderPath
  pyFiles : List String
  hooks : List CatHook := []
  tools : List Procedure := []
  forms : List Procedure := []
  endpoints : List CustomEndpoint := []
  overrides : Dict String PluginOverride := .empty
  active : Bool := false
deriving DecidableEq

def Plugin.id (p : Plugin) : String := p.path.id

/-- `Plugin.__init__`. The names of the python files are read here, their
contents on activation. -/
def Plugin.create (path : FolderPath) (folder : Option PluginFolder) : Except String Plugin :=
  match folder with
  | none => .error (path.text ++ " does not exist or is not a folder. Cannot create Plugin.")
  | some folder =>
    if folder.pyFiles.keys = [] then
      .error (path.text ++ " does not contain any python files. Cannot create Plugin.")
    else match folder.manifestError with
      | some error => .error error
      | none => .ok { path := path, pyFiles := folder.pyFiles.keys }

theorem Plugin.create_ok {path : FolderPath} {folder : Option PluginFolder} {p : Plugin}
    (h : Plugin.create path folder = .ok p) :
    ∃ f, folder = some f ∧ p = { path := path, pyFiles := f.pyFiles.keys } := by
  unfold Plugin.create at h
  cases folder with
  | none => cases h
  | some f =>
    refine ⟨f, rfl, ?_⟩
    simp only at h
    split at h
    · cases h
    · split at h
      · cases h
      · exact (Except.ok.inj h).symm

/-- The function with the id of its plugin, for an object that no other plugin has: the source sets the
id on the object itself. -/
def cleanHook (id : String) (h : String × CatHook) : CatHook := { h.2 with pluginId := id }

def cleanTool (id : String) (t : String × Procedure) : Procedure := { t.2 with pluginId := id }

def cleanForm (id : String) (f : String × Procedure) : Procedure := { f.2 with pluginId := id }

def cleanEndpoint (id : String) (e : String × CustomEndpoint) : CustomEndpoint :=
  { e.2 with pluginId := id }

/-- The plugin with the decorated functions of the imported modules. -/
def Plugin.withFunctions (p : Plugin) (modules : List Module) : Plugin :=
  { p with
    hooks := (modules.flatMap (fun m => getmembers m isCatHook)).map (cleanHook p.id)
    tools := (modules.flatMap (fun m => getmembers m isCatTool)).map (cleanTool p.id)
    forms := (modules.flatMap (fun m => getmembers m isCatForm)).map (cleanForm p.id)
    endpoints := (modules.flatMap (fun m => getmembers m isCustomEndpoint)).map (cleanEndpoint p.id)
    overrides := Dict.ofList ((modules.flatMap (fun m => getmembers m isCatPluginOverride)).map
      (fun o => (o.2.name, o.2))) }

/-- The hooks come in the order of the python files of the plugin, and in each
file in the order of the names of their attributes. -/
def Plugin.Ordered (p : Plugin) : Prop :=
  ∃ modules : List (String × Module), (modules.map Prod.fst).Sublist p.pyFiles ∧
    p.hooks = (modules.flatMap (fun m => getmembers m.2 isCatHook)).map (cleanHook p.id)

/-- A deactivated plugin keeps no decorated function. -/
def Plugin.emptied (p : Plugin) : Plugin :=
  { p with hooks := [], tools := [], forms := [], endpoints := [], overrides := .empty,
           active := false }

theorem Plugin.ordered_of_nil {p : Plugin} (h : p.hooks = []) : p.Ordered :=
  ⟨[], by simp, by simp [h]⟩

theorem Plugin.with_functions_endpoint {p : Plugin} {modules : List Module} {e : CustomEndpoint}
    (h : e ∈ (p.withFunctions modules).endpoints) : e.pluginId = p.id := by
  obtain ⟨x, _, rfl⟩ := List.mem_map.mp h
  rfl

/-- The settings model: overridden, or the default one, which is always valid. -/
def Plugin.settingsModel (p : Plugin) : OverrideEnd :=
  match p.overrides.get? "settings_model" with
  | some o => o.function
  | none => .returns

/-- How `@plugin` functions such as `activated` end, where the plugin has them. -/
def Plugin.overrideError (p : Plugin) (name : String) : Option String :=
  match p.overrides.get? name with
  | none => none
  | some o =>
    match o.function with
    | .returns => none
    | .validationError => some "ValidationError"
    | .raises error => some error

end CheshireCat.MadHatter
