import CheshireCat.MadHatter.Caches
import CheshireCat.Procedures.EmbedRuns

/-! The procedural memory along the operations on the plugins. -/

namespace CheshireCat.LookingGlass
open Base MadHatter
open Procedures (Call Collection Exact activeKeys limit storedKeys)

variable {ν τ : Type}

structure Cat (ν τ : Type) where
  madHatter : World
  procedural : Collection ν τ := .empty
  /-- The point operations that a call of `embed_procedures` has done when it raises. -/
  cut : Nat := 0
  /-- The procedures of each call of `embed_procedures`, which no step reads. -/
  embedded : List (List Procedure) := []

/-- `MadHatter.procedures` -/
def procedures (caches : Caches) : List Procedure := caches.tools ++ caches.forms

section Operations

variable (env : MadHatter.Env) (store : Procedures.Env ν τ)

/-- Code that knows the MadHatter alone. -/
def Cat.onHatter (f : World → Outcome World) (cat : Cat ν τ) : Outcome (Cat ν τ) :=
  (f cat.madHatter).map (fun w => { cat with madHatter := w })

def Cat.embedProcedures (cat : Cat ν τ) : Outcome (Cat ν τ) :=
  let active := procedures cat.madHatter.caches
  let embedded := cat.embedded ++ [active]
  match cat.madHatter.embedError with
  | none => .returned { cat with
      procedural := Procedures.embedProcedures store cat.procedural active, embedded := embedded }
  | some error => .raised error { cat with
      procedural := Procedures.embedProceduresCut store cat.procedural active cat.cut, embedded := embedded }

def Cat.onFinishPluginsSyncCallback (cat : Cat ν τ) : Outcome (Cat ν τ) :=
  (cat.onHatter (activateEndpoints env)).andThen (Cat.embedProcedures store)

def Cat.syncHooksToolsAndForms (cat : Cat ν τ) : Outcome (Cat ν τ) :=
  let cat := { cat with madHatter.caches := cat.madHatter.collect }
  if cat.madHatter.callback then cat.onFinishPluginsSyncCallback env store else .returned cat

def Cat.togglePlugin (cat : Cat ν τ) (id : String) : Outcome (Cat ν τ) :=
  match cat.madHatter.plugins.get? id with
  | none => .raised notPresent cat
  | some p =>
    (cat.onHatter (fun w => switchPlugin w p id)).andThen (fun cat =>
      Cat.syncHooksToolsAndForms env store
        { cat with madHatter.stored := some (env.listOfSet cat.madHatter.activePlugins) })

def Cat.discover (cat : Cat ν τ) (path : FolderPath) : Outcome (Cat ν τ) :=
  let cat := { cat with madHatter := cat.madHatter.loadPlugin path }
  if path.id ∈ cat.madHatter.activePlugins then
    (cat.onHatter (fun w => w.activateById path.id)).rescue (fun error cat =>
      if path.id ∈ cat.madHatter.activePlugins then
        (cat.togglePlugin env store path.id).andThen (fun cat => .raised error cat)
      else .raised error cat)
  else .returned cat

def Cat.findPlugins (cat : Cat ν τ) : Outcome (Cat ν τ) :=
  let cat := { cat with madHatter := cat.madHatter.relisted }
  (Outcome.loop (Cat.discover env store) (.core :: cat.madHatter.pluginFolders) cat).andThen
    (Cat.syncHooksToolsAndForms env store)

def Cat.installPlugin (cat : Cat ν τ) (a : Archive) : Outcome (Cat ν τ) :=
  match a.folder with
  | .error error => .raised error cat
  | .ok folder =>
    Cat.togglePlugin env store
      { cat with madHatter := (cat.madHatter.extract a folder).loadPlugin a.path } a.slug

def Cat.uninstallPlugin (cat : Cat ν τ) (id : String) : Outcome (Cat ν τ) :=
  if id ∈ cat.madHatter.plugins.keys ∧ id ≠ "core_plugin" then
    (if id ∈ cat.madHatter.activePlugins then cat.togglePlugin env store id else .returned cat).andThen
      (fun cat => match cat.madHatter.plugins.get? id with
        | none => .raised "KeyError" cat
        | some p => cat.onHatter (fun w => { w with plugins := w.plugins.erase id }.removeTree p.path))
  else .returned cat

def Cat.perform (cat : Cat ν τ) : Operation → Outcome (Cat ν τ)
  | .findPlugins => cat.findPlugins env store
  | .installPlugin archive => cat.installPlugin env store archive
  | .uninstallPlugin id => cat.uninstallPlugin env store id
  | .togglePlugin id => cat.togglePlugin env store id

/-- `CheshireCat.__init__`: the memories are loaded before the callback is set. -/
def Cat.startUp (cat : Cat ν τ) : Outcome (Cat ν τ) :=
  (cat.findPlugins env store).andThen (fun cat =>
    Cat.onFinishPluginsSyncCallback env store { cat with madHatter.callback := true })

/-! ### The MadHatter's part -/

/-- Once there is a memory, the operations do to the MadHatter what they do without one. -/
theorem embed_hatter (cat : Cat ν τ) :
    (cat.embedProcedures store).map Cat.madHatter = MadHatter.embedProcedures cat.madHatter := by
  unfold Cat.embedProcedures MadHatter.embedProcedures
  cases cat.madHatter.embedError <;> rfl

theorem on_hatter (f : World → Outcome World) (cat : Cat ν τ) :
    (cat.onHatter f).map Cat.madHatter = f cat.madHatter := by
  rw [Cat.onHatter, Outcome.map_map]
  exact Outcome.map_id _

theorem callback_hatter (cat : Cat ν τ) : (cat.onFinishPluginsSyncCallback env store).map Cat.madHatter =
    MadHatter.onFinishPluginsSyncCallback env cat.madHatter := by
  rw [Cat.onFinishPluginsSyncCallback, Outcome.map_andThen (embed_hatter store), on_hatter]
  rfl

theorem sync_hatter (cat : Cat ν τ) : (cat.syncHooksToolsAndForms env store).map Cat.madHatter =
    MadHatter.syncHooksToolsAndForms env cat.madHatter := by
  unfold Cat.syncHooksToolsAndForms MadHatter.syncHooksToolsAndForms
  simp only
  split
  · exact callback_hatter env store _
  · rfl

theorem toggle_hatter (cat : Cat ν τ) (id : String) : (cat.togglePlugin env store id).map Cat.madHatter =
    MadHatter.togglePlugin env cat.madHatter id := by
  unfold Cat.togglePlugin MadHatter.togglePlugin
  cases cat.madHatter.plugins.get? id with
  | none => rfl
  | some p =>
    simp only
    rw [Outcome.map_andThen (k := fun w => MadHatter.syncHooksToolsAndForms env
      { w with stored := some (env.listOfSet w.activePlugins) }), on_hatter]
    exact fun cat => sync_hatter env store _

theorem discover_hatter (cat : Cat ν τ) (path : FolderPath) :
    (cat.discover env store path).map Cat.madHatter = MadHatter.discover env cat.madHatter path := by
  unfold Cat.discover MadHatter.discover
  simp only
  split
  · rw [Outcome.map_rescue, on_hatter]
    intro error cat
    split
    · rw [Outcome.map_andThen (k := fun w => .raised error w) (fun _ => rfl), toggle_hatter]
    · rfl
  · rfl

theorem find_hatter (cat : Cat ν τ) : (cat.findPlugins env store).map Cat.madHatter =
    MadHatter.findPlugins env cat.madHatter := by
  unfold Cat.findPlugins
  rw [Outcome.map_andThen (sync_hatter env store), Outcome.map_loop (discover_hatter env store)]
  rfl

theorem install_hatter (cat : Cat ν τ) (a : Archive) : (cat.installPlugin env store a).map Cat.madHatter =
    MadHatter.installPlugin env cat.madHatter a := by
  unfold Cat.installPlugin MadHatter.installPlugin
  cases a.folder with
  | error error => rfl
  | ok folder => exact toggle_hatter env store _ _

theorem uninstall_hatter (cat : Cat ν τ) (id : String) :
    (cat.uninstallPlugin env store id).map Cat.madHatter = MadHatter.uninstallPlugin env cat.madHatter id := by
  unfold Cat.uninstallPlugin MadHatter.uninstallPlugin
  split
  · rw [Outcome.map_andThen (k := fun w => match w.plugins.get? id with
      | none => .raised "KeyError" w
      | some p => { w with plugins := w.plugins.erase id }.removeTree p.path)]
    · congr 1
      split
      · exact toggle_hatter env store cat id
      · rfl
    · intro cat
      cases cat.madHatter.plugins.get? id with
      | none => rfl
      | some p => exact on_hatter _ cat
  · rfl

theorem perform_hatter (cat : Cat ν τ) (op : Operation) :
    (cat.perform env store op).map Cat.madHatter = MadHatter.perform env cat.madHatter op := by
  cases op with
  | findPlugins => exact find_hatter env store cat
  | installPlugin archive => exact install_hatter env store cat archive
  | uninstallPlugin id => exact uninstall_hatter env store cat id
  | togglePlugin id => exact toggle_hatter env store cat id

theorem start_up_hatter (cat : Cat ν τ) :
    (cat.startUp env store).map Cat.madHatter = MadHatter.startUp env cat.madHatter := by
  unfold Cat.startUp MadHatter.startUp
  rw [Outcome.map_andThen (k := fun w => MadHatter.onFinishPluginsSyncCallback env { w with callback := true }),
    find_hatter]
  exact fun cat => callback_hatter env store _

end Operations

/-! ### What the operations keep -/

/-- The triggers of every call fit on one page. -/
def Cat.Fits (cat : Cat ν τ) : Prop := ∀ active ∈ cat.embedded, (activeKeys active).length ≤ limit

/-- What also an operation that raises leaves: no key has two points, all points fit on one page, and
the Cat has started or not. -/
structure Cat.Sound (started : Bool) (cat : Cat ν τ) : Prop where
  exact : cat.Fits → Exact cat.procedural
  callback : cat.madHatter.callback = started

/-- The points are those of the triggers of the active plugins, each once. -/
structure Cat.InSync (cat : Cat ν τ) : Prop where
  cached : cat.madHatter.caches = cat.madHatter.collect
  exact : Exact cat.procedural
  keys : (storedKeys cat.procedural).Perm (activeKeys (procedures cat.madHatter.collect))

/-- What an operation leaves that returns from a sync. -/
structure Cat.Settled (started : Bool) (cat : Cat ν τ) : Prop extends cat.Sound started where
  cached : cat.madHatter.caches = cat.madHatter.collect
  keys : started = true → cat.Fits →
    (storedKeys cat.procedural).Perm (activeKeys (procedures cat.madHatter.caches))

theorem Cat.Settled.in_sync {cat : Cat ν τ} (h : cat.Settled true) (hfits : cat.Fits) : cat.InSync := by
  have hkeys := h.keys rfl hfits
  rw [h.cached] at hkeys
  exact ⟨h.cached, h.exact hfits, hkeys⟩

section Sound

variable {env : MadHatter.Env} {store : Procedures.Env ν τ} {started : Bool} {cat : Cat ν τ}

/-- Code of the MadHatter that leaves the callback set or not set. -/
def Calm (f : World → Outcome World) : Prop :=
  ∀ w, (f w).Ends (fun t => t.callback = w.callback) (fun t => t.callback = w.callback)

theorem switch_calm (env : MadHatter.Env) (p : Plugin) (id : String) :
    Calm (fun w => switchPlugin w p id) := by
  intro w
  have hswitched {v : World} (hv : Switched env p id w v) : v.callback = w.callback := by
    cases hv with
    | off u _ hu => exact hu.frame.callback
    | on u _ hu => exact hu.frame.callback
  refine (switch_ends env w p id).mono ?_ (fun t ht => ht.frame.callback)
  intro t ht
  have hlisted := hswitched ht.1
  exact hlisted

theorem activate_calm (id : String) : Calm (fun w => w.activateById id) := by
  intro w
  simp only [World.activateById]
  cases w.plugins.get? id with
  | none => rfl
  | some p => exact (activate_ends w p).mono (fun t ht => ht.frame.callback) (fun t ht => ht.callback)

theorem endpoints_calm : Calm (activateEndpoints env) := by
  intro w
  refine (activate_endpoints_ends env w.caches.endpoints w).mono ?_ ?_
  all_goals
    intro t ht
    obtain ⟨more, bound, rfl, _⟩ := ht.1
    rfl

theorem load_plugin_callback (w : World) (path : FolderPath) : (w.loadPlugin path).callback = w.callback := by
  unfold World.loadPlugin
  split <;> rfl

theorem Cat.Sound.hatter (h : cat.Sound started) {w : World} (hw : w.callback = cat.madHatter.callback) :
    Cat.Sound started { cat with madHatter := w } := ⟨h.exact, hw.trans h.callback⟩

/-- What knows the MadHatter alone does not touch the points. -/
theorem Cat.Sound.on_hatter (h : cat.Sound started) {f : World → Outcome World} (hf : Calm f) :
    (cat.onHatter f).Ends (Cat.Sound started) (Cat.Sound started) :=
  Outcome.ends_map.mpr ((hf cat.madHatter).mono (fun _ hw => h.hatter hw) (fun _ hw => h.hatter hw))

theorem Cat.Sound.embed (h : cat.Sound started) : (cat.embedProcedures store).Ends
    (fun t => t.Sound started ∧ (t.Fits →
      (storedKeys t.procedural).Perm (activeKeys (procedures t.madHatter.caches)))) (Cat.Sound started) := by
  have hbefore {embedded : List (List Procedure)}
      (hfits : ∀ active ∈ cat.embedded ++ embedded, (activeKeys active).length ≤ limit) :
      Exact cat.procedural :=
    h.exact (fun active hactive => hfits active (List.mem_append_left embedded hactive))
  have hlast {active : List Procedure}
      (hfits : ∀ a ∈ cat.embedded ++ [active], (activeKeys a).length ≤ limit) :
      (activeKeys active).length ≤ limit := hfits active (by simp)
  unfold Cat.embedProcedures
  simp only
  cases cat.madHatter.embedError with
  | none =>
    have hexact (hfits : ∀ a ∈ cat.embedded ++ [procedures cat.madHatter.caches],
        (activeKeys a).length ≤ limit) :
        Exact (Call.run cat.procedural ⟨store, procedures cat.madHatter.caches, none⟩) :=
      Procedures.run_exact (hbefore hfits) (hlast hfits)
    refine ⟨⟨hexact, h.callback⟩, ?_⟩
    intro hfits
    have hstored := hbefore hfits
    refine (List.perm_ext_iff_of_nodup (hexact hfits).nodup (Procedures.active_keys_nodup _)).mpr ?_
    exact Procedures.mem_embed_settled hstored.fits (hstored.nodup.filter _)
  | some error =>
    refine ⟨?_, h.callback⟩
    intro hfits
    have hexact : Exact (Call.run cat.procedural ⟨store, procedures cat.madHatter.caches, some cat.cut⟩) :=
      Procedures.run_exact (hbefore hfits) (hlast hfits)
    exact hexact

theorem Cat.Sound.finish (h : cat.Sound started) : (cat.onFinishPluginsSyncCallback env store).Ends
    (fun t => t.Sound started ∧ (t.Fits →
      (storedKeys t.procedural).Perm (activeKeys (procedures t.madHatter.caches)))) (Cat.Sound started) :=
  (h.on_hatter endpoints_calm).andThen (fun _ ht => ht.embed)

/-- What holds of the MadHatter without a memory holds of it with one. -/
theorem ends_hatter {o : Outcome (Cat ν τ)} {o' : Outcome World} (h : o.map Cat.madHatter = o')
    {Q E : World → Prop} (hends : o'.Ends Q E) :
    o.Ends (fun t => Q t.madHatter) (fun t => E t.madHatter) :=
  Outcome.ends_map.mp (h ▸ hends)

theorem Cat.Sound.sync (h : cat.Sound started) :
    (cat.syncHooksToolsAndForms env store).Ends (Cat.Settled started) (Cat.Sound started) := by
  have hworld := ends_hatter (sync_hatter env store cat) (sync_ends env cat.madHatter)
  have hsound : (cat.syncHooksToolsAndForms env store).Ends (fun t => t.Sound started ∧
      (started = true → t.Fits →
        (storedKeys t.procedural).Perm (activeKeys (procedures t.madHatter.caches)))) (Cat.Sound started) := by
    unfold Cat.syncHooksToolsAndForms
    simp only
    split
    · have hcollected : Cat.Sound started { cat with madHatter.caches := cat.madHatter.collect } :=
        ⟨h.exact, h.callback⟩
      exact hcollected.finish.mono (fun t ht => ⟨ht.1, fun _ => ht.2⟩) (fun t ht => ht)
    · rename_i hcallback
      exact ⟨⟨h.exact, h.callback⟩, fun hstarted => absurd (h.callback.trans hstarted) hcallback⟩
  refine (hworld.both hsound).mono ?_ (fun t ht => ht.2)
  intro t ht
  obtain ⟨hsynced, hsound, hkeys⟩ := ht
  exact ⟨hsound, hsynced.caches, hkeys⟩

theorem Cat.Sound.toggle (h : cat.Sound started) (id : String) :
    (cat.togglePlugin env store id).Ends (Cat.Settled started) (Cat.Sound started) := by
  unfold Cat.togglePlugin
  cases cat.madHatter.plugins.get? id with
  | none => exact h
  | some p =>
    refine (h.on_hatter (switch_calm env p id)).andThen ?_
    intro t ht
    have hstored : Cat.Sound started
        { t with madHatter.stored := some (env.listOfSet t.madHatter.activePlugins) } := ⟨ht.exact, ht.callback⟩
    exact hstored.sync

theorem Cat.Sound.discover (h : cat.Sound started) (path : FolderPath) :
    (cat.discover env store path).Ends (Cat.Sound started) (Cat.Sound started) := by
  have hload := h.hatter (load_plugin_callback cat.madHatter path)
  unfold Cat.discover
  simp only
  split
  · refine (hload.on_hatter (activate_calm path.id)).rescue ?_
    intro error t ht
    split
    · exact (ht.toggle path.id).andThen (fun _ hu => hu.toSound)
    · exact ht
  · exact hload

theorem Cat.Sound.find (h : cat.Sound started) :
    (cat.findPlugins env store).Ends (Cat.Settled started) (Cat.Sound started) := by
  have hloop : (Outcome.loop (Cat.discover env store) (.core :: cat.madHatter.relisted.pluginFolders)
      { cat with madHatter := cat.madHatter.relisted }).Ends (Cat.Sound started) (Cat.Sound started) :=
    Outcome.Ends.loop (fun path _ t ht => ht.discover path) ⟨h.exact, h.callback⟩
  exact hloop.andThen (fun t ht => ht.sync)

theorem Cat.Sound.install (h : cat.Sound started) (a : Archive) :
    (cat.installPlugin env store a).Ends (Cat.Settled started) (Cat.Sound started) := by
  unfold Cat.installPlugin
  cases a.folder with
  | error error => exact h
  | ok folder =>
    have hextract : (cat.madHatter.extract a folder).callback = cat.madHatter.callback := by
      unfold World.extract World.removeFolder
      simp only
      split <;> rfl
    exact (h.hatter ((load_plugin_callback _ a.path).trans hextract)).toggle a.slug

/-- A plugin that a toggle has switched off has been emptied. -/
theorem toggled_off (hkeyed : Keyed cat.madHatter.plugins) {id : String}
    (hlisted : id ∈ cat.madHatter.activePlugins) :
    (cat.togglePlugin env store id).Ends
      (fun t => Keyed t.madHatter.plugins ∧ SwitchedOff t.madHatter id) (fun _ => True) := by
  refine ends_hatter (toggle_hatter env store cat id)
    (Q := fun w => Keyed w.plugins ∧ SwitchedOff w id) (E := fun _ => True) ?_
  cases hp : cat.madHatter.plugins.get? id with
  | none =>
    rw [toggle_not_present env hp]
    trivial
  | some p =>
    refine (toggle_ends env hp).mono ?_ (fun _ _ => trivial)
    intro w hw
    obtain ⟨v, hv, hs⟩ := hw
    refine ⟨hs.plugins ▸ hv.keyed hkeyed, ?_⟩
    intro q hq _
    cases hv with
    | on u hun _ => exact absurd hlisted hun
    | off u _ hu =>
      have hset : w.plugins = cat.madHatter.plugins.set p.id p.emptied := hs.plugins.trans hu.plugins
      rw [hset, hkeyed id p hp, Dict.get?_set_self] at hq
      rw [← Option.some.inj hq]
      exact ⟨rfl, rfl, rfl, rfl⟩

/-- Only an uninstallation of a plugin that is not active goes without a sync. -/
theorem Cat.Sound.uninstall (h : cat.Sound started) (hkeyed : Keyed cat.madHatter.plugins) (id : String) :
    (cat.uninstallPlugin env store id).Ends
      (fun t => t.Sound started ∧ (cat.Settled started ∨ id ∈ cat.madHatter.plugins.keys ∧
        id ≠ "core_plugin" ∧ id ∈ cat.madHatter.activePlugins → t.Settled started)) (Cat.Sound started) := by
  have hoff : (if id ∈ cat.madHatter.activePlugins then cat.togglePlugin env store id else .returned cat).Ends
      (fun t => t.Sound started ∧ Keyed t.madHatter.plugins ∧ SwitchedOff t.madHatter id ∧
        (cat.Settled started ∨ id ∈ cat.madHatter.activePlugins → t.Settled started)) (Cat.Sound started) := by
    split
    · rename_i hlisted
      refine ((h.toggle id).both (toggled_off hkeyed hlisted)).mono ?_ (fun t ht => ht.1)
      exact fun t ht => ⟨ht.1.toSound, ht.2.1, ht.2.2, fun _ => ht.1⟩
    · rename_i hlisted
      exact ⟨h, hkeyed, fun p _ hlisted' => absurd hlisted' hlisted, fun hx => hx.resolve_right hlisted⟩
  unfold Cat.uninstallPlugin
  split
  · refine hoff.andThen ?_
    intro t ht
    obtain ⟨hsound, hkeyed, hswitched, hsettled⟩ := ht
    cases t.madHatter.plugins.get? id with
    | none => exact hsound
    | some p =>
      have hcollect := collect_erase hkeyed hswitched
      refine Outcome.ends_map.mpr ((remove_tree_ends _ p.path).mono ?_ ?_)
      · intro w hw
        obtain ⟨disk, rfl⟩ := hw
        refine ⟨⟨hsound.exact, hsound.callback⟩, ?_⟩
        intro hx
        have ht := hsettled (hx.imp_right (fun h => h.2.2))
        exact ⟨⟨hsound.exact, hsound.callback⟩, ht.cached.trans hcollect.symm, ht.keys⟩
      · intro w hw
        rw [hw]
        exact ⟨hsound.exact, hsound.callback⟩
  · rename_i hno
    exact ⟨h, fun hx => hx.resolve_right (fun hplugin => hno ⟨hplugin.1, hplugin.2.1⟩)⟩

theorem Cat.Sound.start_up (h : cat.Sound started) : (cat.startUp env store).Ends
    (Cat.Settled true) (fun t => ∃ started, t.Sound started) := by
  have hfind : (cat.findPlugins env store).Ends (Cat.Settled started) (fun t => ∃ started, t.Sound started) :=
    h.find.mono (fun t ht => ht) (fun t ht => ⟨started, ht⟩)
  refine hfind.andThen ?_
  intro t ht
  have hworld := ends_hatter (callback_hatter env store { t with madHatter.callback := true })
    (callback_ends env { t.madHatter with callback := true })
  have hsound : Cat.Sound true { t with madHatter.callback := true } := ⟨ht.exact, rfl⟩
  refine (hworld.both hsound.finish).mono ?_ (fun u hu => ⟨true, hu.2⟩)
  intro u hu
  obtain ⟨⟨routes, bound, hworld⟩, hsound, hkeys⟩ := hu
  refine ⟨hsound, ?_, fun _ => hkeys⟩
  rw [hworld]
  exact ht.cached

end Sound

/-! ### Runs -/

/-- What happens to the Cat. `loadMemory` is a request that changes an embedder or wipes a collection,
`deletePoints` one that deletes procedural points. -/
inductive CatEvent (ν τ : Type) where
  | operation (op : Operation) (store : Procedures.Env ν τ)
  | restart (routes : List Route) (store : Procedures.Env ν τ)
  | loadMemory (recreated : Bool) (store : Procedures.Env ν τ)
  | deletePoints (deleted : String → Bool)
  | folder (path : FolderPath) (content : Option PluginFolder)
  | embedder (error : Option String) (cut : Nat)

section Runs

variable (env : MadHatter.Env)

/-- A new process, over what is stored. -/
def Cat.reboot (cat : Cat ν τ) (routes : List Route) : Cat ν τ :=
  { cat with madHatter := { World.boot cat.madHatter.stored cat.madHatter.disk routes with
      embedError := cat.madHatter.embedError } }

def Cat.loadMemory (cat : Cat ν τ) (recreated : Bool) : Cat ν τ :=
  if recreated then { cat with procedural := .empty } else cat

def Cat.handle (cat : Cat ν τ) : CatEvent ν τ → Outcome (Cat ν τ)
  | .operation op store => cat.perform env store op
  | .restart routes store => (cat.reboot routes).startUp env store
  | .loadMemory recreated store => (cat.loadMemory recreated).findPlugins env store
  | .deletePoints deleted =>
    .returned { cat with procedural := cat.procedural.restrict (fun id => !deleted id) }
  | .folder path content => .returned { cat with madHatter := cat.madHatter.changeFolder path content }
  | .embedder error cut => .returned { cat with madHatter.embedError := error, cut := cut }

/-- Only a Cat that has started serves requests. -/
def Cat.enabled (cat : Cat ν τ) : CatEvent ν τ → Bool
  | .operation _ _ | .loadMemory _ _ | .deletePoints _ => cat.madHatter.callback
  | .restart _ _ | .folder _ _ | .embedder _ _ => true

/-- After an event that raises, the state it left is used. -/
def Cat.step (cat : Cat ν τ) (e : CatEvent ν τ) : Option (Cat ν τ) :=
  if cat.enabled e then some (cat.handle env e).state else none

/-- Nothing is stored yet, and nothing runs. -/
def Cat.new (stored : Option (List String)) (disk : Dict FolderPath PluginFolder) : Cat ν τ where
  madHatter := World.boot stored disk []

/-- The event ends with a sync where it returns. -/
def Cat.Syncs (cat : Cat ν τ) : CatEvent ν τ → Prop
  | .operation (.uninstallPlugin id) _ => id ∈ cat.madHatter.plugins.keys ∧ id ≠ "core_plugin" ∧
      id ∈ cat.madHatter.activePlugins
  | .operation _ _ | .restart _ _ | .loadMemory _ _ => True
  | .deletePoints _ | .folder _ _ | .embedder _ _ => False

def CatEvent.deletes : CatEvent ν τ → Bool
  | .deletePoints _ => true
  | _ => false

variable {env} {cat : Cat ν τ}

/-- The invariant of the runs, also of those in which something raises. -/
structure Cat.Kept (cat : Cat ν τ) : Prop where
  sound : ∃ started, cat.Sound started
  keyed : Keyed cat.madHatter.plugins

theorem perform_ends {started : Bool} (h : cat.Sound started) (hkeyed : Keyed cat.madHatter.plugins)
    (store : Procedures.Env ν τ) (op : Operation) : (cat.perform env store op).Ends
      (fun t => t.Kept ∧ (cat.Settled started ∨ cat.Syncs (.operation op store) → t.Settled started))
      Cat.Kept := by
  have hworld := ends_hatter (perform_hatter env store cat op) ((keyed_lasting env).perform hkeyed op)
  have hsound : (cat.perform env store op).Ends (fun t => t.Sound started ∧
      (cat.Settled started ∨ cat.Syncs (.operation op store) → t.Settled started)) (Cat.Sound started) := by
    cases op with
    | findPlugins => exact h.find.mono (fun t ht => ⟨ht.toSound, fun _ => ht⟩) (fun t ht => ht)
    | installPlugin archive =>
      exact (h.install archive).mono (fun t ht => ⟨ht.toSound, fun _ => ht⟩) (fun t ht => ht)
    | togglePlugin id => exact (h.toggle id).mono (fun t ht => ⟨ht.toSound, fun _ => ht⟩) (fun t ht => ht)
    | uninstallPlugin id => exact h.uninstall hkeyed id
  exact (hworld.both hsound).mono (fun t ht => ⟨⟨⟨_, ht.2.1⟩, ht.1⟩, ht.2.2⟩) (fun t ht => ⟨⟨_, ht.2⟩, ht.1⟩)

/-- A loss of points keeps an exact collection exact. -/
theorem restrict_exact {c : Collection ν τ} (h : Exact c) (keep : String → Bool) :
    Exact (c.restrict keep) := by
  have hsub : (c.restrict keep).entries.Sublist c.entries := List.filter_sublist
  exact ⟨h.nodup.sublist (hsub.map _), hsub.length_le.trans h.fits⟩

theorem Cat.InSync.settled (h : cat.InSync) {started : Bool} (hsound : cat.Sound started) :
    cat.Settled started := by
  refine ⟨hsound, h.cached, fun _ _ => ?_⟩
  rw [h.cached]
  exact h.keys

/-- Every event keeps the invariant. One that syncs, or that deletes no points of what is in sync, leaves
the memory in sync where it returns. -/
theorem handle_ends (h : cat.Kept) {e : CatEvent ν τ} (henabled : cat.enabled e = true) :
    (cat.handle env e).Ends
      (fun t => t.Kept ∧ (t.Fits → cat.InSync ∧ e.deletes = false ∨ cat.Syncs e → t.InSync)) Cat.Kept := by
  obtain ⟨⟨started, hsound⟩, hkeyed⟩ := h
  cases e with
  | operation op store =>
    obtain rfl : started = true := hsound.callback.symm.trans henabled
    refine (perform_ends hsound hkeyed store op).mono ?_ (fun t ht => ht)
    intro t ht
    refine ⟨ht.1, fun hfits hx => ?_⟩
    exact (ht.2 (hx.imp_left (fun h => h.1.settled hsound))).in_sync hfits
  | restart routes store =>
    have hboot : (cat.reboot routes).Sound false := ⟨hsound.exact, rfl⟩
    have hworld := ends_hatter (start_up_hatter env store (cat.reboot routes))
      ((keyed_lasting env).startUp keyed_empty)
    refine (hworld.both hboot.start_up).mono ?_ (fun t ht => ⟨ht.2, ht.1⟩)
    exact fun t ht => ⟨⟨⟨true, ht.2.toSound⟩, ht.1⟩, fun hfits _ => ht.2.in_sync hfits⟩
  | loadMemory recreated store =>
    obtain rfl : started = true := hsound.callback.symm.trans henabled
    have hloaded : (cat.loadMemory recreated).Sound true := by
      cases recreated with
      | true => exact ⟨fun _ => ⟨List.nodup_nil, Nat.zero_le _⟩, hsound.callback⟩
      | false => exact hsound
    have hworld := ends_hatter (find_hatter env store (cat.loadMemory recreated))
      ((keyed_lasting env).findPlugins keyed_empty)
    refine (hworld.both hloaded.find).mono ?_ (fun t ht => ⟨⟨true, ht.2⟩, ht.1⟩)
    exact fun t ht => ⟨⟨⟨true, ht.2.toSound⟩, ht.1⟩, fun hfits _ => ht.2.in_sync hfits⟩
  | deletePoints deleted =>
    have hexact (hfits : cat.Fits) := restrict_exact (hsound.exact hfits) (fun id => !deleted id)
    refine ⟨⟨⟨started, hexact, hsound.callback⟩, hkeyed⟩, ?_⟩
    exact fun _ hx => hx.elim (fun h => nomatch h.2) False.elim
  | folder path content =>
    cases content with
    | none =>
      refine ⟨⟨⟨started, hsound.exact, hsound.callback⟩, hkeyed⟩, fun _ hx => ?_⟩
      obtain ⟨h, -⟩ := hx.resolve_right id
      exact ⟨h.cached, h.exact, h.keys⟩
    | some folder =>
      refine ⟨⟨⟨started, hsound.exact, hsound.callback⟩, hkeyed⟩, fun _ hx => ?_⟩
      obtain ⟨h, -⟩ := hx.resolve_right id
      exact ⟨h.cached, h.exact, h.keys⟩
  | embedder error cut =>
    refine ⟨⟨⟨started, hsound.exact, hsound.callback⟩, hkeyed⟩, fun _ hx => ?_⟩
    obtain ⟨h, -⟩ := hx.resolve_right id
    exact ⟨h.cached, h.exact, h.keys⟩

theorem new_kept (stored : Option (List String)) (disk : Dict FolderPath PluginFolder) :
    (Cat.new stored disk : Cat ν τ).Kept :=
  ⟨⟨false, fun _ => ⟨List.nodup_nil, Nat.zero_le _⟩, rfl⟩, keyed_empty⟩

theorem step_kept (cat : Cat ν τ) (e : CatEvent ν τ) (t : Cat ν τ) (h : cat.Kept)
    (ht : cat.step env e = some t) : t.Kept := by
  unfold Cat.step at ht
  split at ht
  · rename_i henabled
    cases ht
    exact ((handle_ends h henabled).mono (fun t ht => ht.1) (fun t ht => ht)).state
  · cases ht

/-- After any run, whatever has raised in it, was cut short or was deleted, no trigger of the procedural
memory is stored twice. An event that ends with a sync brings the memory in sync with the active plugins
where it returns, and it stays so over all events that return and delete no points. -/
theorem procedural_memory_in_sync (stored : Option (List String)) (disk : Dict FolderPath PluginFolder)
    (events : List (CatEvent ν τ)) {t u : Cat ν τ} {e : CatEvent ν τ}
    (hrun : run (Cat.step env) (Cat.new stored disk) events = some t) (henabled : t.enabled e = true)
    (hreturned : t.handle env e = .returned u) (hfits : u.Fits) :
    (storedKeys u.procedural).Nodup ∧ (t.InSync ∧ e.deletes = false ∨ t.Syncs e → u.InSync) := by
  have hkept : t.Kept := run_keeps step_kept (new_kept stored disk) hrun
  obtain ⟨hu, hsync⟩ := (handle_ends hkept henabled).of_returned hreturned
  obtain ⟨started, hsound⟩ := hu.sound
  exact ⟨(hsound.exact hfits).nodup, hsync hfits⟩

end Runs

/-- A tool with a description and an example. -/
def clockTool : Procedure where
  name := "get_the_time"
  procedureType := "tool"
  triggersMap := Dict.ofList [("description", ["get_the_time: the current time"]),
    ("start_example", ["what time is it"])]
  pluginId := ""

def clockDisk : Dict FolderPath PluginFolder :=
  Dict.ofList [(.core, coreFolder), (.plugin "zoo" zoo_named, oneFile [("get_the_time", .tool clockTool)])]

def firstPage : Procedures.Env Nat Nat := Procedures.Env.avoiding (fun _ => false)

/-- The embedder fails after the first of the two triggers, which is then deleted. -/
def failedToggle : List (CatEvent Nat Nat) :=
  [.restart [] firstPage, .embedder (some "quota") 1, .operation (.togglePlugin "zoo") firstPage,
    .deletePoints (fun _ => true), .embedder none 0]

def interrupted : Cat Nat Nat :=
  (run (Cat.step MadHatter.Env.ascii) (Cat.new none clockDisk) failedToggle).getD (Cat.new none clockDisk)

def recovered : Cat Nat Nat := (interrupted.handle MadHatter.Env.ascii (.loadMemory false firstPage)).state

theorem memory_recovers :
    run (Cat.step MadHatter.Env.ascii) (Cat.new none clockDisk) failedToggle = some interrupted ∧
      interrupted.handle MadHatter.Env.ascii (.loadMemory false firstPage) = .returned recovered ∧
      (storedKeys recovered.procedural).Nodup ∧ recovered.InSync := by
  have hsome : (run (Cat.step MadHatter.Env.ascii) (Cat.new none clockDisk) failedToggle).isSome := by
    decide +kernel
  have hrun : run (Cat.step MadHatter.Env.ascii) (Cat.new none clockDisk) failedToggle = some interrupted := by
    obtain ⟨t, ht⟩ := Option.isSome_iff_exists.mp hsome
    rw [interrupted, ht]
    rfl
  have hreturned : interrupted.handle MadHatter.Env.ascii (.loadMemory false firstPage) = .returned recovered :=
    Outcome.eq_returned_of_returns (by decide +kernel)
  have hfits : ∀ active ∈ recovered.embedded, (activeKeys active).length ≤ limit := by decide +kernel
  obtain ⟨hnodup, hsync⟩ := procedural_memory_in_sync none clockDisk failedToggle hrun
    (by decide +kernel) hreturned hfits
  exact ⟨hrun, hreturned, hnodup, hsync (Or.inr trivial)⟩

end CheshireCat.LookingGlass
