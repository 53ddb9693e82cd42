import CheshireCat.MadHatter.Activation
import CheshireCat.MadHatter.Operations

namespace CheshireCat.MadHatter
open Base

/-- A sync only rebuilds the caches and, through the callback, adds routes. -/
def Synced (w t : World) : Prop :=
  ∃ routes bound, t = { w with caches := w.collect, routes := routes, bound := bound }

/-- Registering the endpoint does not run into a mount or a websocket. -/
def Unblocked (routes : List Route) (e : CustomEndpoint) : Prop :=
  ∀ error, hasRoute e routes ≠ .error error

/-- Routes of endpoints block no endpoint. -/
theorem unblocked_append {e : CustomEndpoint} {rs more : List Route}
    (hmore : ∀ r ∈ more, r.methods ≠ none) : Unblocked (rs ++ more) e ↔ Unblocked rs e := by
  have hfree : Unblocked more e := by
    induction more with
    | nil =>
      intro error h
      cases h
    | cons r more ih =>
      intro error h
      have hrest := ih (fun r' hr' => hmore r' (List.mem_cons_of_mem r hr')) error
      unfold hasRoute at h
      split at h
      · split at h
        · exact absurd ‹_› (hmore r List.mem_cons_self)
        · split at h
          · cases h
          · exact hrest h
      · exact hrest h
  induction rs with
  | nil => exact iff_of_true hfree (fun error h => by cases h)
  | cons r rs ih =>
    unfold Unblocked at ih ⊢
    rw [List.cons_append]
    unfold hasRoute
    split
    · split
      · exact Iff.rfl
      · split
        · exact Iff.rfl
        · exact ih
    · exact ih

/-- Only routes of endpoints are added, and endpoints get the app. -/
def Registered (w t : World) : Prop :=
  ∃ more bound, t = { w with routes := w.routes ++ more, bound := bound } ∧
    ∀ r ∈ more, r.methods ≠ none

theorem Registered.refl (w : World) : Registered w w :=
  ⟨[], w.bound, by rw [List.append_nil], by simp⟩

theorem Registered.trans {w t u : World} (h : Registered w t) (h' : Registered t u) :
    Registered w u := by
  obtain ⟨more, bound, rfl, hmore⟩ := h
  obtain ⟨more', bound', rfl, hmore'⟩ := h'
  refine ⟨more ++ more', bound', by simp [List.append_assoc], ?_⟩
  intro r hr
  exact (List.mem_append.mp hr).elim (hmore r) (hmore' r)

theorem Registered.activePlugins {w t : World} (h : Registered w t) :
    t.activePlugins = w.activePlugins := by
  obtain ⟨more, bound, rfl, _⟩ := h
  rfl

theorem Registered.embedError {w t : World} (h : Registered w t) : t.embedError = w.embedError := by
  obtain ⟨more, bound, rfl, _⟩ := h
  rfl

theorem Registered.unblocked {w t : World} (h : Registered w t) (e : CustomEndpoint) :
    Unblocked t.routes e ↔ Unblocked w.routes e := by
  obtain ⟨more, bound, rfl, hmore⟩ := h
  exact unblocked_append hmore

theorem activate_endpoint_ends (env : Env) (w : World) (e : CustomEndpoint) :
    (e.activate env w).Ends (fun t => Registered w t ∧ Unblocked w.routes e)
      (fun t => Registered w t ∧ ¬ Unblocked w.routes e) := by
  unfold CustomEndpoint.activate
  simp only
  split
  · rename_i error herror
    exact ⟨⟨[], _, by rw [List.append_nil], by simp⟩, fun h => h error herror⟩
  · rename_i hfound
    exact ⟨⟨[], _, by rw [List.append_nil], by simp⟩, by simp [Unblocked, hfound]⟩
  · rename_i hfound
    exact ⟨⟨[e.route env], _, rfl, by simp [CustomEndpoint.route]⟩, by simp [Unblocked, hfound]⟩

/-- The endpoints of listed plugins are registered up to the first that is blocked. -/
theorem activate_endpoints_ends (env : Env) (es : List CustomEndpoint) (w : World) :
    (Outcome.loop (fun w e =>
      if e.pluginId ∈ w.activePlugins then e.activate env w else .returned w) es w).Ends
      (fun t => Registered w t ∧ ∀ e ∈ es, e.pluginId ∈ w.activePlugins → Unblocked w.routes e)
      (fun t => Registered w t ∧
        ¬ ∀ e ∈ es, e.pluginId ∈ w.activePlugins → Unblocked w.routes e) := by
  induction es generalizing w with
  | nil => exact ⟨Registered.refl w, by simp⟩
  | cons e es ih =>
    have hstep : (if e.pluginId ∈ w.activePlugins then e.activate env w else .returned w).Ends
        (fun t => Registered w t ∧ (e.pluginId ∈ w.activePlugins → Unblocked w.routes e))
        (fun t => Registered w t ∧ ¬ (e.pluginId ∈ w.activePlugins → Unblocked w.routes e)) := by
      split
      · rename_i hid
        refine (activate_endpoint_ends env w e).mono ?_ ?_
        · intro t ht
          exact ⟨ht.1, fun _ => ht.2⟩
        · intro t ht
          exact ⟨ht.1, fun h => ht.2 (h hid)⟩
      · rename_i hid
        exact ⟨Registered.refl w, fun h => absurd h hid⟩
    unfold Outcome.loop
    refine (hstep.mono (fun t ht => ht) ?_).andThen ?_
    · intro t ht
      exact ⟨ht.1, fun h => ht.2 (h e List.mem_cons_self)⟩
    · intro t ht
      obtain ⟨hreg, hfirst⟩ := ht
      have hrest : (∀ x ∈ es, x.pluginId ∈ t.activePlugins → Unblocked t.routes x) ↔
          ∀ x ∈ e :: es, x.pluginId ∈ w.activePlugins → Unblocked w.routes x := by
        rw [List.forall_mem_cons, and_iff_right hfirst, hreg.activePlugins]
        exact forall₃_congr (fun x _ _ => hreg.unblocked x)
      refine (ih t).mono ?_ ?_
      · intro u hu
        exact ⟨hreg.trans hu.1, hrest.mp hu.2⟩
      · intro u hu
        exact ⟨hreg.trans hu.1, fun h => hu.2 (hrest.mpr h)⟩

/-- The Cat can register the cached endpoints and embed the procedures. -/
def World.Callable (w : World) : Prop :=
  w.embedError = none ∧
    ∀ e ∈ w.caches.endpoints, e.pluginId ∈ w.activePlugins → Unblocked w.routes e

theorem callback_exact (env : Env) (w : World) :
    (onFinishPluginsSyncCallback env w).Ends (fun t => Registered w t ∧ w.Callable)
      (fun t => Registered w t ∧ ¬ w.Callable) := by
  refine ((activate_endpoints_ends env w.caches.endpoints w).mono (fun t ht => ht) ?_).andThen ?_
  · intro t ht
    exact ⟨ht.1, fun h => ht.2 h.2⟩
  · intro t ht
    obtain ⟨hreg, hall⟩ := ht
    unfold embedProcedures
    cases hembed : t.embedError with
    | none => exact ⟨hreg, hreg.embedError ▸ hembed, hall⟩
    | some error =>
      refine ⟨hreg, ?_⟩
      intro h
      rw [hreg.embedError, h.1] at hembed
      cases hembed

theorem callback_ends (env : Env) (w : World) :
    (onFinishPluginsSyncCallback env w).Ends
      (fun t => ∃ routes bound, t = { w with routes := routes, bound := bound })
      (fun t => ∃ routes bound, t = { w with routes := routes, bound := bound }) := by
  refine (callback_exact env w).mono ?_ ?_
  all_goals
    intro t ht
    obtain ⟨more, bound, h, _⟩ := ht.1
    exact ⟨_, bound, h⟩

def World.collected (w : World) : World := { w with caches := w.collect }

/-- The callback, where there is one, can be called after a sync. -/
def World.Syncs (w : World) : Prop := w.callback = true → w.collected.Callable

theorem sync_exact (env : Env) (w : World) :
    (syncHooksToolsAndForms env w).Ends
      (fun t => Registered w.collected t ∧ w.Syncs)
      (fun t => Registered w.collected t ∧ ¬ w.Syncs) := by
  unfold syncHooksToolsAndForms
  simp only
  split
  · rename_i hcallback
    refine (callback_exact env w.collected).mono ?_ ?_
    · intro t ht
      exact ⟨ht.1, fun _ => ht.2⟩
    · intro t ht
      exact ⟨ht.1, fun h => ht.2 (h hcallback)⟩
  · rename_i hcallback
    exact ⟨Registered.refl _, fun h => absurd h hcallback⟩

theorem Registered.synced {w t : World} (h : Registered w.collected t) : Synced w t := by
  obtain ⟨more, bound, h, _⟩ := h
  exact ⟨_, bound, h⟩

theorem sync_ends (env : Env) (w : World) :
    (syncHooksToolsAndForms env w).Ends (Synced w) (Synced w) :=
  (sync_exact env w).mono (fun _ ht => ht.1.synced) (fun _ ht => ht.1.synced)

/-- The list of active plugins is replaced and stored. -/
def World.listed (env : Env) (w : World) (ids : List String) : World :=
  { w with activePlugins := ids, stored := some (env.listOfSet ids) }

/-- The two directions of a toggle, before the sync. -/
inductive Switched (env : Env) (p : Plugin) (id : String) (w : World) : World → Prop where
  | off (u : World) (listed : id ∈ w.activePlugins) (deactivated : Deactivated p w u) :
      Switched env p id w (u.listed env (w.activePlugins.erase id))
  | on (u : World) (unlisted : id ∉ w.activePlugins) (activated : Activated p w u) :
      Switched env p id w (u.listed env (w.activePlugins ++ [id]))

def Toggled (env : Env) (p : Plugin) (id : String) (w t : World) : Prop :=
  ∃ v, Switched env p id w v ∧ Synced v t

/-- Nothing on the way to the other side raises. -/
structure World.Switches (w : World) (p : Plugin) (id : String) : Prop where
  off : id ∈ w.activePlugins → p.overrideError "deactivated" = none ∧ w.Removable p
  on : id ∉ w.activePlugins → w.Activates p

structure FailedSwitch (p : Plugin) (id : String) (w t : World) : Prop where
  off : id ∈ w.activePlugins → FailedDeactivation p w t
  on : id ∉ w.activePlugins → FailedActivation p w t

theorem FailedSwitch.frame {p : Plugin} {id : String} {w t : World} (h : FailedSwitch p id w t) :
    Frame p w t := by
  by_cases hid : id ∈ w.activePlugins
  · exact (h.off hid).frame
  · exact (h.on hid).frame

theorem switch_ends (env : Env) (w : World) (p : Plugin) (id : String) :
    (switchPlugin w p id).Ends
      (fun t => Switched env p id w (t.listed env t.activePlugins) ∧ w.Switches p id)
      (FailedSwitch p id w) := by
  unfold switchPlugin
  split
  · rename_i hid
    refine ((deactivate_exact w p).mono (fun t ht => ht) ?_).andThen ?_
    · intro t ht
      exact ⟨fun _ => ht, fun hun => absurd hid hun⟩
    intro u hu
    obtain ⟨hu, hrun⟩ := hu
    have hoff : Switched env p id w (u.listed env (w.activePlugins.erase id)) := .off u hid hu
    rw [← hu.frame.activePlugins] at hoff
    exact ⟨hoff, fun _ => hrun, fun hun => absurd hid hun⟩
  · rename_i hid
    refine ((activate_exact w p).mono (fun t ht => ht) ?_).andThen ?_
    · intro t ht
      exact ⟨fun hin => absurd hin hid, fun _ => ht⟩
    intro u hu
    obtain ⟨hu, hactivates⟩ := hu
    have hon : Switched env p id w (u.listed env (w.activePlugins ++ [id])) := .on u hid hu
    rw [← hu.frame.activePlugins] at hon
    exact ⟨hon, fun hin => absurd hin hid, fun _ => hactivates⟩

/-- A toggle raises where the switch does, or where the callback does after it. -/
theorem toggle_exact (env : Env) {w : World} {id : String} {p : Plugin}
    (h : w.plugins.get? id = some p) :
    (togglePlugin env w id).Ends
      (fun t => ∃ v, Switched env p id w v ∧ w.Switches p id ∧ Registered v.collected t ∧ v.Syncs)
      (fun t => FailedSwitch p id w t ∨
        ∃ v, Switched env p id w v ∧ w.Switches p id ∧ Registered v.collected t ∧ ¬ v.Syncs) := by
  unfold togglePlugin
  simp only [h]
  apply ((switch_ends env w p id).mono (fun t ht => ht) (fun t ht => Or.inl ht)).andThen
  intro u hu
  refine (sync_exact env (u.listed env u.activePlugins)).mono ?_ ?_
  · intro t ht
    exact ⟨_, hu.1, hu.2, ht⟩
  · intro t ht
    exact Or.inr ⟨_, hu.1, hu.2, ht⟩

theorem toggle_ends (env : Env) {w : World} {id : String} {p : Plugin}
    (h : w.plugins.get? id = some p) :
    (togglePlugin env w id).Ends (Toggled env p id w)
      (fun t => Frame p w t ∨ Toggled env p id w t) := by
  refine (toggle_exact env h).mono ?_ ?_
  · intro t ht
    obtain ⟨v, hv, _, hsynced, _⟩ := ht
    exact ⟨v, hv, hsynced.synced⟩
  · intro t ht
    rcases ht with hfailed | ⟨v, hv, _, hsynced, _⟩
    · exact Or.inl hfailed.frame
    · exact Or.inr ⟨v, hv, hsynced.synced⟩

theorem toggle_not_present (env : Env) {w : World} {id : String} (h : w.plugins.get? id = none) :
    togglePlugin env w id = .raised notPresent w := by
  simp [togglePlugin, h]

/-- Every plugin is kept under its own id. -/
def Keyed (plugins : Dict String Plugin) : Prop :=
  ∀ id p, plugins.get? id = some p → p.id = id

/-- No plugin has the empty id. -/
theorem Keyed.empty_id {plugins : Dict String Plugin} (h : Keyed plugins) :
    plugins.get? "" = none := by
  cases hget : plugins.get? "" with
  | none => rfl
  | some q => exact absurd (h "" q hget) q.path.id_ne_empty

theorem Keyed.set {plugins : Dict String Plugin} (h : Keyed plugins) {id : String} {q : Plugin}
    (hq : q.id = id) : Keyed (plugins.set id q) :=
  Dict.forall_set h hq

theorem Keyed.erase {plugins : Dict String Plugin} (h : Keyed plugins) (id : String) :
    Keyed (plugins.erase id) :=
  Dict.forall_erase h id

theorem Keyed.frame {p : Plugin} {w t : World} (h : Keyed w.plugins) (hf : Frame p w t) :
    Keyed t.plugins := by
  rcases hf.plugins with hp | ⟨q, hq, hp⟩
  · rw [hp]
    exact h
  · rw [hp]
    exact h.set (congrArg FolderPath.id hq)

theorem Switched.keyed {env : Env} {p : Plugin} {id : String} {w v : World}
    (hs : Switched env p id w v) (h : Keyed w.plugins) : Keyed v.plugins := by
  cases hs with
  | off u _ hu =>
    have hk : Keyed u.plugins := h.frame hu.frame
    exact hk
  | on u _ hu =>
    have hk : Keyed u.plugins := h.frame hu.frame
    exact hk

theorem mem_load_active_iff (w : World) (id : String) :
    id ∈ loadActivePluginsFromDb w ↔ id ∈ w.stored.getD [] ∨ id = "core_plugin" := by
  unfold loadActivePluginsFromDb
  simp only
  split
  · rename_i hcore
    refine ⟨Or.inl, ?_⟩
    intro h
    rcases h with hstored | rfl
    · exact hstored
    · exact hcore
  · simp

theorem load_plugin_valid {w : World} {path : FolderPath} {p : Plugin}
    (h : Plugin.create path (w.disk.get? path) = .ok p) : w.loadPlugin path = w.setPlugin p := by
  simp [World.loadPlugin, h]

theorem archive_path_id {a : Archive} (h : a.slug ≠ "") : a.path.id = a.slug := by
  rw [Archive.path, dif_neg h]
  rfl

theorem extract_folder (w : World) (a : Archive) (folder : PluginFolder) :
    (w.extract a folder).plugins = w.plugins ∧
      (w.extract a folder).activePlugins = w.activePlugins ∧
      ∃ settings, (w.extract a folder).disk.get? a.path =
        some { folder with hasSettings := settings } := by
  unfold World.extract World.removeFolder
  simp only
  split <;> exact ⟨rfl, rfl, _, Dict.get?_set_self _ _ _⟩

theorem remove_tree_ends (w : World) (path : FolderPath) :
    (w.removeTree path).Ends (fun t => ∃ disk, t = { w with disk := disk }) (fun t => t = w) := by
  unfold World.removeTree World.removeFolder
  split
  · split <;> exact ⟨_, rfl⟩
  · rfl

theorem load_plugin_keyed {w : World} (h : Keyed w.plugins) (path : FolderPath) :
    Keyed (w.loadPlugin path).plugins := by
  unfold World.loadPlugin
  split
  · exact h.set rfl
  · exact h

theorem Synced.plugins {w t : World} (h : Synced w t) : t.plugins = w.plugins := by
  obtain ⟨routes, bound, rfl⟩ := h
  rfl

theorem Synced.activePlugins {w t : World} (h : Synced w t) :
    t.activePlugins = w.activePlugins := by
  obtain ⟨routes, bound, rfl⟩ := h
  rfl

theorem Synced.stored {w t : World} (h : Synced w t) : t.stored = w.stored := by
  obtain ⟨routes, bound, rfl⟩ := h
  rfl

theorem Synced.caches {w t : World} (h : Synced w t) : t.caches = t.collect := by
  obtain ⟨routes, bound, rfl⟩ := h
  rfl

/-! ### Invariants -/

/-- Find starts without plugins, and with the stored list. -/
def World.relisted (w : World) : World :=
  { w with plugins := .empty, activePlugins := loadActivePluginsFromDb w }

/-- A property of the plugins and of the two lists that every change of them keeps. -/
structure Lasting (env : Env) (I : World → Prop) : Prop where
  congr : ∀ {w t}, I w → t.plugins = w.plugins → t.activePlugins = w.activePlugins →
    t.stored = w.stored → I t
  relisted : ∀ {w}, I w → I w.relisted
  loadPlugin : ∀ {w}, I w → ∀ path, I (w.loadPlugin path)
  erase : ∀ {w}, I w → ∀ id, I { w with plugins := w.plugins.erase id }
  frame : ∀ {p w t}, I w → Frame p w t → I t
  switched : ∀ {p id w v}, I w → Switched env p id w v → I v

section Lasting

variable {env : Env} {I : World → Prop} (hI : Lasting env I)
include hI

theorem Lasting.synced {w t : World} (h : I w) (hs : Synced w t) : I t :=
  hI.congr h hs.plugins hs.activePlugins hs.stored

theorem Lasting.toggle {w : World} (h : I w) (id : String) : (togglePlugin env w id).Ends I I := by
  have toggled {p : Plugin} {t : World} (ht : Toggled env p id w t) : I t := by
    obtain ⟨v, hv, ht⟩ := ht
    exact hI.synced (hI.switched h hv) ht
  cases hp : w.plugins.get? id with
  | none =>
    rw [toggle_not_present env hp]
    exact h
  | some p =>
    apply (toggle_ends env hp).mono (fun t ht => toggled ht)
    intro t ht
    rcases ht with hf | ht
    · exact hI.frame h hf
    · exact toggled ht

theorem Lasting.activateById {w : World} (h : I w) (id : String) :
    (w.activateById id).Ends I I := by
  unfold World.activateById
  split
  · exact h
  · rename_i p _
    exact (activate_ends w p).mono (fun t ht => hI.frame h ht.frame) (fun t ht => hI.frame h ht)

theorem Lasting.discover {w : World} (h : I w) (path : FolderPath) :
    (discover env w path).Ends I I := by
  have hload := hI.loadPlugin h path
  unfold MadHatter.discover
  simp only
  split
  · apply (hI.activateById hload path.id).rescue
    intro error u hu
    split
    · exact (hI.toggle hu path.id).andThen (fun t ht => ht)
    · exact hu
  · exact hload

theorem Lasting.findPlugins {w : World} (h : I w.relisted) : (findPlugins env w).Ends I I := by
  unfold MadHatter.findPlugins
  apply (Outcome.Ends.loop (fun path _ t ht => hI.discover ht path) h).andThen
  intro t ht
  exact (sync_ends env t).mono (fun u hu => hI.synced ht hu) (fun u hu => hI.synced ht hu)

theorem Lasting.install {w : World} (h : I w) (a : Archive) : (installPlugin env w a).Ends I I := by
  unfold installPlugin
  split
  · exact h
  · rename_i folder _
    have hx : I (w.extract a folder) := by
      unfold World.extract World.removeFolder
      simp only
      split <;> exact hI.congr h rfl rfl rfl
    exact hI.toggle (hI.loadPlugin hx a.path) a.slug

theorem Lasting.uninstall {w : World} (h : I w) (id : String) :
    (uninstallPlugin env w id).Ends I I := by
  unfold uninstallPlugin
  split
  · have hoff : (if id ∈ w.activePlugins then togglePlugin env w id else .returned w).Ends I I := by
      split
      · exact hI.toggle h id
      · exact h
    apply hoff.andThen
    intro t ht
    split
    · exact ht
    · have hleft := hI.erase ht id
      refine (remove_tree_ends _ _).mono ?_ ?_
      · intro u hu
        obtain ⟨disk, rfl⟩ := hu
        exact hI.congr hleft rfl rfl rfl
      · intro u hu
        rw [hu]
        exact hleft
  · exact h

theorem Lasting.perform {w : World} (h : I w) (op : Operation) : (perform env w op).Ends I I := by
  cases op with
  | findPlugins => exact hI.findPlugins (hI.relisted h)
  | installPlugin a => exact hI.install h a
  | uninstallPlugin id => exact hI.uninstall h id
  | togglePlugin id => exact hI.toggle h id

/-- It holds after the start, whether the start returns or raises. -/
theorem Lasting.startUp {w : World} (h : I w.relisted) : (startUp env w).Ends I I := by
  apply (hI.findPlugins h).andThen
  intro t ht
  refine (callback_ends env { t with callback := true }).mono ?_ ?_
  all_goals
    intro u hu
    obtain ⟨routes, bound, hu⟩ := hu
    rw [hu]
    exact hI.congr ht rfl rfl rfl

/-- It holds after every event that it holds before. -/
theorem Lasting.attempted (w : World) (e : Event) (t : World) (h : I w)
    (ht : attempted env w e = some t) : I t := by
  cases e with
  | operation op =>
    cases ht
    exact (hI.perform h op).state
  | folder path content =>
    obtain ⟨disk, rfl, _⟩ := surround_disk ht
    exact hI.congr h rfl rfl rfl
  | embedder error =>
    cases ht
    exact hI.congr h rfl rfl rfl

end Lasting

theorem keyed_empty : Keyed .empty := by
  intro id p hp
  cases hp

theorem keyed_lasting (env : Env) : Lasting env (fun w => Keyed w.plugins) where
  congr := by
    intro w t h hplugins _ _
    rw [hplugins]
    exact h
  relisted := fun _ => keyed_empty
  loadPlugin := load_plugin_keyed
  erase := Keyed.erase
  frame := Keyed.frame
  switched := fun h hs => hs.keyed h

end CheshireCat.MadHatter
