import CheshireCat.MadHatter.World

namespace CheshireCat.MadHatter
open Base

/-- What `activate` and `deactivate` of one plugin leave as it was. -/
structure Frame (p : Plugin) (w t : World) : Prop where
  activePlugins : t.activePlugins = w.activePlugins
  caches : t.caches = w.caches
  stored : t.stored = w.stored
  callback : t.callback = w.callback
  embedError : t.embedError = w.embedError
  plugins : t.plugins = w.plugins ∨ ∃ q, q.path = p.path ∧ t.plugins = w.plugins.set p.id q
  disk : ∀ path, path ≠ p.path → t.disk.get? path = w.disk.get? path
  sysModules : ∀ path file, path ≠ p.path →
    t.sysModules.get? (path, file) = w.sysModules.get? (path, file)

theorem Frame.refl (p : Plugin) (w : World) : Frame p w w :=
  ⟨rfl, rfl, rfl, rfl, rfl, Or.inl rfl, fun _ _ => rfl, fun _ _ _ => rfl⟩

theorem Frame.setPlugin {p q : Plugin} {w t : World} (h : Frame p w t) (hq : q.path = p.path) :
    Frame p w (t.setPlugin q) where
  activePlugins := h.activePlugins
  caches := h.caches
  stored := h.stored
  callback := h.callback
  embedError := h.embedError
  plugins := by
    have hid : q.id = p.id := congrArg FolderPath.id hq
    refine Or.inr ⟨q, hq, ?_⟩
    change t.plugins.set q.id q = _
    rw [hid]
    rcases h.plugins with hp | ⟨r, _, hp⟩
    · rw [hp]
    · rw [hp, Dict.set_set]
  disk := h.disk
  sysModules := h.sysModules

/-- The plugins other than `p` are the same objects. -/
theorem Frame.other {p : Plugin} {w t : World} (h : Frame p w t) {id : String} (hid : id ≠ p.id) :
    t.plugins.get? id = w.plugins.get? id := by
  rcases h.plugins with hp | ⟨q, _, hp⟩
  · rw [hp]
  · rw [hp, Dict.get?_set_other _ _ hid]

/-- The plugin object after a successful activation. -/
def Plugin.loaded (w : World) (p : Plugin) : Plugin :=
  { p.withFunctions ((w.imported p).map Prod.snd) with active := true }

theorem imported_mem {w : World} {p : Plugin} {m : String × Module} (h : m ∈ w.imported p) :
    w.importModule p.path m.1 = some m.2 := by
  obtain ⟨file, _, hm⟩ := List.mem_filterMap.mp h
  obtain ⟨module, hi, rfl⟩ := Option.map_eq_some_iff.mp hm
  exact hi

theorem load_frame (w : World) (p : Plugin) : Frame p w (w.loadDecoratedFunctions p) := by
  have h : Frame p w { w with
      sysModules := (w.imported p).foldl
        (fun (d : Dict (FolderPath × String) Module) m => d.set (p.path, m.1) m.2) w.sysModules
      bound := w.bound.filter (fun e => e ∉ w.freshEndpoints p) } := by
    refine ⟨rfl, rfl, rfl, rfl, rfl, Or.inl rfl, fun _ _ => rfl, ?_⟩
    intro path file hpath
    refine Dict.get?_foldl_set_other (fun m : String × Module => (p.path, m.1)) Prod.snd ?_
    intro m _ hm
    exact hpath (congrArg Prod.fst hm).symm
  exact h.setPlugin rfl

theorem create_settings_ends (w : World) (p : Plugin) :
    (w.createSettings p).Ends
      (fun t => Frame p w t ∧ t.plugins = w.plugins ∧ t.routes = w.routes ∧ t.bound = w.bound ∧
        t.sysModules = w.sysModules)
      (fun t => t = w) := by
  unfold World.createSettings
  split
  · exact ⟨Frame.refl p w, rfl, rfl, rfl, rfl⟩
  · rfl
  · split
    · rfl
    · refine ⟨⟨rfl, rfl, rfl, rfl, rfl, Or.inl rfl, ?_, fun _ _ _ => rfl⟩, rfl, rfl, rfl, rfl⟩
      intro path hpath
      exact Dict.get?_set_other _ _ hpath

theorem Frame.trans {p : Plugin} {w t u : World} (h : Frame p w t) (h' : Frame p t u) :
    Frame p w u where
  activePlugins := h'.activePlugins.trans h.activePlugins
  caches := h'.caches.trans h.caches
  stored := h'.stored.trans h.stored
  callback := h'.callback.trans h.callback
  embedError := h'.embedError.trans h.embedError
  plugins := by
    rcases h'.plugins with he | ⟨q, hq, he⟩
    · rw [he]
      exact h.plugins
    · rcases h.plugins with hp | ⟨r, _, hp⟩
      · exact Or.inr ⟨q, hq, by rw [he, hp]⟩
      · exact Or.inr ⟨q, hq, by rw [he, hp, Dict.set_set]⟩
  disk := fun path hpath => (h'.disk path hpath).trans (h.disk path hpath)
  sysModules := fun path file hpath =>
    (h'.sysModules path file hpath).trans (h.sysModules path file hpath)

theorem Frame.congr {p q : Plugin} {w t : World} (h : Frame p w t) (hq : p.path = q.path) :
    Frame q w t := by
  obtain ⟨h1, h2, h3, h4, h5, h6, h7, h8⟩ := h
  have hid : p.id = q.id := congrArg FolderPath.id hq
  rw [hq] at h7 h8
  rw [hq, hid] at h6
  exact ⟨h1, h2, h3, h4, h5, h6, h7, h8⟩

/-- What a successful activation does. -/
structure Activated (p : Plugin) (w t : World) : Prop where
  frame : Frame p w t
  plugins : t.plugins = w.plugins.set p.id (p.loaded w)
  routes : t.routes = w.routes
  bound : t.bound = w.bound.filter (fun e => e ∉ w.freshEndpoints p)

/-- The plugin with the functions that its files define now. -/
def Plugin.read (w : World) (p : Plugin) : Plugin :=
  p.withFunctions ((w.imported p).map Prod.snd)

def World.requirementsError (w : World) (p : Plugin) : Option String :=
  (w.disk.get? p.path).bind PluginFolder.requirementsError

/-- What creating the settings file raises. A file that is there is kept. -/
def World.settingsError (w : World) (p : Plugin) : Option String :=
  if w.hasSettings p then none
  else match p.settingsModel with
    | .validationError => none
    | .raises error => some error
    | .returns => if (w.disk.get? p.path).isSome then none else some "FileNotFoundError"

/-- Nothing on the way to an active plugin raises. -/
structure World.Activates (w : World) (p : Plugin) : Prop where
  requirements : w.requirementsError p = none
  settings : w.settingsError (p.read w) = none
  override : (p.read w).overrideError "activated" = none

/-- Where an activation stops, and what it has done until then. -/
inductive FailedActivation (p : Plugin) (w : World) : World → Prop where
  | requirements (error : w.requirementsError p ≠ none) : FailedActivation p w w
  | settings (installed : w.requirementsError p = none)
      (error : w.settingsError (p.read w) ≠ none) :
      FailedActivation p w (w.loadDecoratedFunctions p)
  | override (t : World) (installed : w.requirementsError p = none)
      (created : w.settingsError (p.read w) = none)
      (error : (p.read w).overrideError "activated" ≠ none) (activated : Activated p w t) :
      FailedActivation p w t

theorem settings_error_ends (w : World) (p : Plugin) :
    (if w.hasSettings p then .returned w else w.createSettings p).Ends
      (fun _ => w.settingsError p = none) (fun _ => w.settingsError p ≠ none) := by
  unfold World.settingsError World.createSettings
  split
  · rfl
  · cases p.settingsModel with
    | validationError => rfl
    | raises error => exact Option.some_ne_none error
    | returns =>
      cases hdisk : w.disk.get? p.path with
      | none => simp [Outcome.Ends]
      | some folder => simp [Outcome.Ends]

theorem run_override_ends (w : World) (p : Plugin) (name : String) :
    (w.runOverride p name).Ends (fun t => t = w ∧ p.overrideError name = none)
      (fun t => t = w ∧ p.overrideError name ≠ none) := by
  unfold World.runOverride
  split
  · rename_i hnone
    exact ⟨rfl, hnone⟩
  · rename_i error herror
    exact ⟨rfl, by rw [herror]; exact Option.some_ne_none error⟩

/-- The settings step, after the functions are loaded. -/
theorem settings_step_ends (w : World) (p : Plugin) :
    (if (w.loadDecoratedFunctions p).hasSettings (p.read w) then
        .returned (w.loadDecoratedFunctions p)
      else (w.loadDecoratedFunctions p).createSettings (p.read w)).Ends
      (fun t => (Frame p w t ∧ t.plugins = (w.loadDecoratedFunctions p).plugins ∧
        t.routes = w.routes ∧ t.bound = (w.loadDecoratedFunctions p).bound) ∧
        w.settingsError (p.read w) = none)
      (fun t => t = w.loadDecoratedFunctions p ∧ w.settingsError (p.read w) ≠ none) := by
  have hload := load_frame w p
  have hframe : Outcome.Ends (if (w.loadDecoratedFunctions p).hasSettings (p.read w) then
        .returned (w.loadDecoratedFunctions p)
      else (w.loadDecoratedFunctions p).createSettings (p.read w))
      (fun t => Frame p w t ∧ t.plugins = (w.loadDecoratedFunctions p).plugins ∧
        t.routes = w.routes ∧ t.bound = (w.loadDecoratedFunctions p).bound)
      (fun t => t = w.loadDecoratedFunctions p) := by
    split
    · exact ⟨hload, rfl, rfl, rfl⟩
    · refine (create_settings_ends _ _).mono ?_ (fun t ht => ht)
      intro t ht
      obtain ⟨hf, hp, hr, hb, _⟩ := ht
      exact ⟨hload.trans (hf.congr rfl), hp, hr, hb⟩
  have herror := settings_error_ends (w.loadDecoratedFunctions p) (p.read w)
  exact hframe.both herror

/-- An activation returns exactly where nothing on the way raises. -/
theorem activate_exact (w : World) (p : Plugin) :
    (w.activate p).Ends (fun t => Activated p w t ∧ w.Activates p) (FailedActivation p w) := by
  unfold World.activate
  split
  · rename_i error herror
    exact .requirements (by rw [World.requirementsError, herror]; exact Option.some_ne_none error)
  · rename_i hinstalled
    simp only
    refine ((settings_step_ends w p).mono (fun t ht => ht) ?_).andThen ?_
    · intro t ht
      obtain ⟨rfl, herror⟩ := ht
      exact .settings hinstalled herror
    · intro t ht
      obtain ⟨⟨hf, hp, hr, hb⟩, hcreated⟩ := ht
      have hactivated : Activated p w (t.setPlugin (p.loaded w)) := by
        refine ⟨hf.setPlugin rfl, ?_, hr, hb⟩
        change t.plugins.set p.id (p.loaded w) = _
        rw [hp]
        exact Dict.set_set _ _ _ _
      refine (run_override_ends (t.setPlugin (p.loaded w)) (p.loaded w) "activated").mono ?_ ?_
      · intro u hu
        obtain ⟨rfl, hnone⟩ := hu
        exact ⟨hactivated, hinstalled, hcreated, hnone⟩
      · intro u hu
        obtain ⟨rfl, herror⟩ := hu
        exact .override _ hinstalled hcreated herror hactivated

theorem FailedActivation.frame {p : Plugin} {w t : World} (h : FailedActivation p w t) :
    Frame p w t := by
  cases h with
  | requirements _ => exact Frame.refl p w
  | settings _ _ => exact load_frame w p
  | override _ _ _ _ activated => exact activated.frame

theorem activate_ends (w : World) (p : Plugin) :
    (w.activate p).Ends (Activated p w) (Frame p w) :=
  (activate_exact w p).mono (fun _ ht => ht.1) (fun _ ht => ht.frame)

/-- The route that the endpoint looks for, with its methods as they are spelled. -/
def CustomEndpoint.spelled (e : CustomEndpoint) : Route := ⟨e.name, some e.methods⟩

theorem has_route_ok {e : CustomEndpoint} {rs : List Route} {found : Bool}
    (h : hasRoute e rs = .ok found) : found = true ↔ e.spelled ∈ rs := by
  induction rs with
  | nil =>
    cases h
    simp
  | cons r rs ih =>
    unfold hasRoute at h
    obtain ⟨path, methods⟩ := r
    simp only at h
    split at h
    · rename_i hpath
      cases methods with
      | none => cases h
      | some ms =>
        simp only at h
        split at h
        · rename_i hms
          cases h
          simp [CustomEndpoint.spelled, hpath, hms]
        · rename_i hms
          simp [ih h, CustomEndpoint.spelled, Ne.symm hms]
    · rename_i hpath
      simp [ih h, CustomEndpoint.spelled, Ne.symm hpath]

theorem remove_route_ok {e : CustomEndpoint} {rs rs' : List Route}
    (h : removeRoute e rs = .ok rs') : rs' = rs.erase e.spelled := by
  induction rs generalizing rs' with
  | nil =>
    cases h
    rfl
  | cons r rs ih =>
    have keep (hne : r ≠ e.spelled) (h : (removeRoute e rs).map (fun l => r :: l) = .ok rs') :
        rs' = (r :: rs).erase e.spelled := by
      cases hr : removeRoute e rs with
      | error error =>
        rw [hr] at h
        cases h
      | ok l =>
        rw [hr] at h
        cases h
        rw [ih hr, List.erase_cons_tail (by simpa using hne)]
    unfold removeRoute at h
    split at h
    · rename_i hpath
      split at h
      · cases h
      · rename_i ms hms
        split at h
        · rename_i heq
          cases h
          have hr : r = e.spelled := by
            obtain ⟨path, methods⟩ := r
            simp_all [CustomEndpoint.spelled]
          rw [hr, List.erase_cons_head]
        · rename_i hne
          refine keep ?_ h
          rintro rfl
          exact hne (Option.some.inj hms).symm
    · rename_i hpath
      refine keep ?_ h
      rintro rfl
      exact hpath rfl

/-- Deactivating endpoints removes the routes that those with an app look for. -/
theorem deactivate_endpoints_ends (es : List CustomEndpoint) (w : World) :
    (Outcome.loop CustomEndpoint.deactivate es w).Ends
      (fun t => t = { w with
        routes := w.routes.diff ((es.filter (fun e => e ∈ w.bound)).map CustomEndpoint.spelled) })
      (fun t => ∃ rs, t = { w with routes := rs }) := by
  induction es generalizing w with
  | nil => rfl
  | cons e es ih =>
    have hstep : (e.deactivate w).Ends
        (fun t => t = { w with routes := if e ∈ w.bound then w.routes.erase e.spelled else w.routes })
        (fun t => ∃ rs, t = { w with routes := rs }) := by
      unfold CustomEndpoint.deactivate
      split
      · cases hr : removeRoute e w.routes with
        | error error => exact ⟨w.routes, rfl⟩
        | ok rs => rw [remove_route_ok hr]; rfl
      · rfl
    refine hstep.andThen ?_
    intro t ht
    subst ht
    refine (ih _).mono ?_ ?_
    · intro u hu
      rw [hu]
      by_cases hb : e ∈ w.bound
      · simp [hb, List.diff_cons]
      · simp [hb]
    · intro u hu
      obtain ⟨rs, hu⟩ := hu
      exact ⟨rs, hu⟩

/-- What a successful deactivation does. -/
structure Deactivated (p : Plugin) (w t : World) : Prop where
  frame : Frame p w t
  plugins : t.plugins = w.plugins.set p.id p.emptied
  bound : t.bound = w.bound
  routes : t.routes =
    w.routes.diff ((p.endpoints.filter (fun e => e ∈ w.bound)).map CustomEndpoint.spelled)

/-- The endpoints of the plugin can be taken out of the app. -/
def World.Removable (w : World) (p : Plugin) : Prop :=
  (Outcome.loop CustomEndpoint.deactivate p.endpoints w).returns = true

/-- A deactivation that raises has done nothing yet, or has emptied all but the endpoints. -/
inductive FailedDeactivation (p : Plugin) (w : World) : World → Prop where
  | override (error : p.overrideError "deactivated" ≠ none) : FailedDeactivation p w w
  | endpoints (t : World) (run : p.overrideError "deactivated" = none)
      (error : ¬ w.Removable p) (frame : Frame p w t)
      (plugins : t.plugins = w.plugins.set p.id { p with hooks := [], tools := [], forms := [] }) :
      FailedDeactivation p w t

/-- Endpoints are removed from the routes alone, and only those with an app. -/
theorem removal_congr (es : List CustomEndpoint) {w t : World}
    (hbound : ∀ e ∈ es, e ∈ t.bound ↔ e ∈ w.bound) (hroutes : t.routes = w.routes) :
    (Outcome.loop CustomEndpoint.deactivate es t).returns =
      (Outcome.loop CustomEndpoint.deactivate es w).returns := by
  induction es generalizing w t with
  | nil => rfl
  | cons e es ih =>
    have hrest : ∀ x ∈ es, x ∈ t.bound ↔ x ∈ w.bound :=
      fun x hx => hbound x (List.mem_cons_of_mem e hx)
    unfold Outcome.loop CustomEndpoint.deactivate
    simp only [hbound e List.mem_cons_self, hroutes]
    split
    · cases removeRoute e w.routes with
      | error error => rfl
      | ok routes => exact ih hrest rfl
    · exact ih hrest hroutes

/-- A deactivation returns exactly where neither the override nor an endpoint raises. -/
theorem deactivate_exact (w : World) (p : Plugin) :
    (w.deactivate p).Ends
      (fun t => Deactivated p w t ∧ p.overrideError "deactivated" = none ∧ w.Removable p)
      (FailedDeactivation p w) := by
  unfold World.deactivate
  refine ((run_override_ends w p "deactivated").mono (fun t ht => ht) ?_).andThen ?_
  · intro t ht
    obtain ⟨rfl, herror⟩ := ht
    exact .override herror
  · intro t ht
    obtain ⟨rfl, hrun⟩ := ht
    let v := { t with sysModules := t.sysModules.restrict (fun m => m.1 ≠ p.path ∨ m.2 ∉ p.pyFiles) }
    have hv : Frame p t v := by
      refine ⟨rfl, rfl, rfl, rfl, rfl, Or.inl rfl, fun _ _ => rfl, ?_⟩
      intro path file hpath
      exact (Dict.get?_restrict _ _ _).trans (by simp [hpath])
    let u := v.setPlugin { p with hooks := [], tools := [], forms := [] }
    have hu : Frame p t u := hv.setPlugin rfl
    have routes (rs : List Route) : Frame p t { u with routes := rs } :=
      ⟨hu.activePlugins, hu.caches, hu.stored, hu.callback, hu.embedError, hu.plugins, hu.disk,
        hu.sysModules⟩
    have hremoval : (Outcome.loop CustomEndpoint.deactivate p.endpoints u).returns =
        (Outcome.loop CustomEndpoint.deactivate p.endpoints t).returns := removal_congr _ (fun _ _ => Iff.rfl) rfl
    have hloop := (deactivate_endpoints_ends p.endpoints u).both (Outcome.ends_returns _)
    refine (hloop.mono (fun x hx => hx) ?_).andThen ?_
    · intro x hx
      obtain ⟨⟨rs, rfl⟩, herror⟩ := hx
      refine .endpoints _ hrun ?_ (routes rs) rfl
      rw [World.Removable, ← hremoval, herror]
      exact Bool.false_ne_true
    · intro x hx
      obtain ⟨rfl, hreturns⟩ := hx
      refine ⟨⟨(routes _).setPlugin rfl, ?_, rfl, rfl⟩, hrun, hremoval.symm.trans hreturns⟩
      exact Dict.set_set _ _ _ _

theorem FailedDeactivation.frame {p : Plugin} {w t : World} (h : FailedDeactivation p w t) :
    Frame p w t := by
  cases h with
  | override _ => exact Frame.refl p w
  | endpoints _ _ _ frame _ => exact frame

end CheshireCat.MadHatter
