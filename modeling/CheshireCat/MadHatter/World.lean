import CheshireCat.Base.Outcome
import CheshireCat.MadHatter.Plugin
import Mathlib.Data.Finset.Image
import Mathlib.Data.List.Dedup

namespace CheshireCat.MadHatter
open Base

/-- A route of the app. Mounts and websockets have no `methods` attribute. -/
structure Route where
  path : String
  methods : Option (Finset String)
deriving DecidableEq

/-- What the MadHatter caches of the active plugins. -/
structure Caches where
  hooks : Dict String (List CatHook) := .empty
  tools : List Procedure := []
  forms : List Procedure := []
  endpoints : List CustomEndpoint := []
deriving DecidableEq

/-- The MadHatter and what its operations read and write: the stored
`active_plugins` setting, the disk, `sys.modules` and the FastAPI app. -/
structure World where
  plugins : Dict String Plugin := .empty
  activePlugins : List String := []
  caches : Caches := {}
  stored : Option (List String) := none
  disk : Dict FolderPath PluginFolder
  sysModules : Dict (FolderPath × String) Module := .empty
  routes : List Route
  /-- The endpoint objects whose `cheshire_cat_api` is set. -/
  bound : List CustomEndpoint := []
  /-- The Cat has set `on_finish_plugins_sync_callback`. -/
  callback : Bool := false
  /-- What `embed_procedures` raises, while it does. -/
  embedError : Option String := none
deriving DecidableEq

/-- What the interpreter and FastAPI decide: the order in which a set of ids is
listed, and the normalisation of HTTP methods. -/
structure Env where
  listOfSet : List String → List String
  nodup : ∀ ids, (listOfSet ids).Nodup
  mem : ∀ ids id, id ∈ listOfSet ids ↔ id ∈ ids
  upper : String → String
  upper_upper : ∀ s, upper (upper s) = upper s

theorem toUpper_toUpper (c : Char) : c.toUpper.toUpper = c.toUpper := by
  unfold Char.toUpper
  split
  · rename_i h
    rw [dif_neg]
    intro h'
    have := h.1
    have := h.2
    have := h'.1
    have := h'.2
    simp only [UInt32.le_iff_toNat_le, UInt32.toNat_add] at *
    simp at *
    omega
  · rfl

/-- Sets are listed without their earlier duplicates, methods are ASCII. -/
def Env.ascii : Env where
  listOfSet := List.dedup
  nodup := List.nodup_dedup
  mem := fun _ _ => List.mem_dedup
  upper := fun s => String.ofList (s.toList.map Char.toUpper)
  upper_upper := fun s => by
    have h : Char.toUpper ∘ Char.toUpper = Char.toUpper := funext toUpper_toUpper
    simp [h]

/-! ### The routes of the app -/

def attributeError : String := "AttributeError: 'methods'"

/-- Is there a route with this path and these methods, as they are spelled? -/
def hasRoute (e : CustomEndpoint) : List Route → Except String Bool
  | [] => .ok false
  | r :: rs =>
    if r.path = e.name then
      match r.methods with
      | none => .error attributeError
      | some methods => if methods = e.methods then .ok true else hasRoute e rs
    else hasRoute e rs

/-- The routes without the first one that has this path and these methods. -/
def removeRoute (e : CustomEndpoint) : List Route → Except String (List Route)
  | [] => .ok []
  | r :: rs =>
    if r.path = e.name then
      match r.methods with
      | none => .error attributeError
      | some methods =>
        if methods = e.methods then .ok rs else (removeRoute e rs).map (fun l => r :: l)
    else (removeRoute e rs).map (fun l => r :: l)

/-- The route that `include_router` appends. -/
def CustomEndpoint.route (env : Env) (e : CustomEndpoint) : Route :=
  ⟨e.name, some (e.methods.image env.upper)⟩

def CustomEndpoint.activate (env : Env) (w : World) (e : CustomEndpoint) : Outcome World :=
  let w := { w with bound := e :: w.bound }
  match hasRoute e w.routes with
  | .error error => .raised error w
  | .ok true => .returned w
  | .ok false => .returned { w with routes := w.routes ++ [e.route env] }

def CustomEndpoint.deactivate (w : World) (e : CustomEndpoint) : Outcome World :=
  if e ∈ w.bound then
    match removeRoute e w.routes with
    | .error error => .raised error w
    | .ok routes => .returned { w with routes := routes }
  else .returned w

/-! ### Activation of one plugin -/

def World.setPlugin (w : World) (p : Plugin) : World :=
  { w with plugins := w.plugins.set p.id p }

/-- `importlib.import_module`: a module that is in `sys.modules` is not read
from disk again. -/
def World.importModule (w : World) (path : FolderPath) (file : String) : Option Module :=
  match w.sysModules.get? (path, file) with
  | some module => some module
  | none => ((w.disk.get? path).bind (fun folder => folder.pyFiles.get? file)).join

def World.imported (w : World) (p : Plugin) : List (String × Module) :=
  p.pyFiles.filterMap (fun file => (w.importModule p.path file).map (fun m => (file, m)))

/-- The endpoint objects that importing the files of the plugin creates. -/
def World.freshEndpoints (w : World) (p : Plugin) : List CustomEndpoint :=
  let fresh := (w.imported p).filter (fun m : String × Module => (p.path, m.1) ∉ w.sysModules.keys)
  (p.withFunctions (fresh.map Prod.snd)).endpoints

/-- `_load_decorated_functions`: a file whose import raises is only logged. -/
def World.loadDecoratedFunctions (w : World) (p : Plugin) : World :=
  let sysModules := (w.imported p).foldl
    (fun (d : Dict (FolderPath × String) Module) m => d.set (p.path, m.1) m.2) w.sysModules
  let bound := w.bound.filter (fun e => e ∉ w.freshEndpoints p)
  { w with sysModules := sysModules, bound := bound }.setPlugin
    (p.withFunctions ((w.imported p).map Prod.snd))

/-- `_create_settings_from_model`, called where there is no settings file. -/
def World.createSettings (w : World) (p : Plugin) : Outcome World :=
  match p.settingsModel with
  | .validationError => .returned w
  | .raises error => .raised error w
  | .returns =>
    match w.disk.get? p.path with
    | none => .raised "FileNotFoundError" w
    | some folder =>
      .returned { w with disk := w.disk.set p.path { folder with hasSettings := true } }

def World.runOverride (w : World) (p : Plugin) (name : String) : Outcome World :=
  match p.overrideError name with
  | none => .returned w
  | some error => .raised error w

def World.hasSettings (w : World) (p : Plugin) : Bool :=
  match w.disk.get? p.path with
  | some folder => folder.hasSettings
  | none => false

/-- `Plugin.activate`. -/
def World.activate (w : World) (p : Plugin) : Outcome World :=
  match (w.disk.get? p.path).bind PluginFolder.requirementsError with
  | some error => .raised error w
  | none =>
    let q := p.withFunctions ((w.imported p).map Prod.snd)
    let w := w.loadDecoratedFunctions p
    (if w.hasSettings q then .returned w else w.createSettings q).andThen (fun w =>
      let q := { q with active := true }
      (w.setPlugin q).runOverride q "activated")

/-- `Plugin.deactivate`, where no part of a path of a file starts with `py`: then the modules are removed
under the names of their import. -/
def World.deactivate (w : World) (p : Plugin) : Outcome World :=
  (w.runOverride p "deactivated").andThen (fun w =>
    let sysModules := w.sysModules.restrict (fun m => m.1 ≠ p.path ∨ m.2 ∉ p.pyFiles)
    let w := { w with sysModules := sysModules }.setPlugin { p with hooks := [], tools := [], forms := [] }
    (Outcome.loop CustomEndpoint.deactivate p.endpoints w).andThen (fun w =>
      .returned (w.setPlugin p.emptied)))

end CheshireCat.MadHatter
