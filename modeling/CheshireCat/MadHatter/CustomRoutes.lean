import CheshireCat.MadHatter.Caches

namespace CheshireCat.MadHatter
open Base

/-- The methods of the route are normalised, as FastAPI's routes are. -/
def Route.Normal (env : Env) (r : Route) : Prop :=
  ∀ methods, r.methods = some methods → methods.image env.upper = methods

theorem CustomEndpoint.route_normal (env : Env) (e : CustomEndpoint) : (e.route env).Normal env := by
  intro methods h
  cases h
  rw [Finset.image_image]
  exact Finset.image_congr (fun s _ => env.upper_upper s)

def ActiveEndpoint (w : World) (e : CustomEndpoint) : Prop :=
  ∃ id p, w.plugins.get? id = some p ∧ id ∈ w.activePlugins ∧ e ∈ p.endpoints

theorem active_endpoint_iff {w : World} (h : Keyed w.plugins) (e : CustomEndpoint) :
    ActiveEndpoint w e ↔ ∃ p ∈ w.activeObjects, e ∈ p.endpoints := by
  constructor
  · intro hx
    obtain ⟨id, p, hp, hid, he⟩ := hx
    have hk : p.id = id := h id p hp
    subst hk
    exact ⟨p, (active_object_iff h p).mpr ⟨hp, hid⟩, he⟩
  · intro hx
    obtain ⟨p, hp, he⟩ := hx
    obtain ⟨hget, hid⟩ := (active_object_iff h p).mp hp
    exact ⟨p.id, p, hget, hid, he⟩

/-- The routes are core routes and routes of wanted endpoints, and only an
endpoint that does not recognise its own route has registered it twice. -/
structure RoutesFit (env : Env) (core : List Route) (wanted : CustomEndpoint → Prop)
    (routes : List Route) : Prop where
  normal : ∀ r ∈ routes, r.Normal env
  keepsCore : ∀ r ∈ core, r ∈ routes
  justified : ∀ r ∈ routes, r ∈ core ∨ ∃ e, wanted e ∧ r = e.route env
  single : ∀ r, r ∉ core → 2 ≤ routes.count r →
    ∃ e, wanted e ∧ r = e.route env ∧ e.spelled ≠ r

theorem RoutesFit.mono {env : Env} {core routes : List Route} {wanted wanted' : CustomEndpoint → Prop}
    (h : RoutesFit env core wanted routes) (hw : ∀ e, wanted e → wanted' e) :
    RoutesFit env core wanted' routes := by
  refine ⟨h.normal, h.keepsCore, ?_, ?_⟩
  · intro r hr
    rcases h.justified r hr with hc | ⟨e, he, hre⟩
    · exact Or.inl hc
    · exact Or.inr ⟨e, hw e he, hre⟩
  · intro r hr hcount
    obtain ⟨e, he, hre⟩ := h.single r hr hcount
    exact ⟨e, hw e he, hre⟩

theorem RoutesFit.add {env : Env} {core routes : List Route} {wanted : CustomEndpoint → Prop}
    (h : RoutesFit env core wanted routes) {e : CustomEndpoint} (he : wanted e)
    (hnew : e.spelled ∉ routes) : RoutesFit env core wanted (routes ++ [e.route env]) := by
  refine ⟨?_, fun r hr => List.mem_append_left _ (h.keepsCore r hr), ?_, ?_⟩
  · intro r hr
    rcases List.mem_append.mp hr with hr | hr
    · exact h.normal r hr
    · rw [List.mem_singleton.mp hr]
      exact e.route_normal env
  · intro r hr
    rcases List.mem_append.mp hr with hr | hr
    · exact h.justified r hr
    · exact Or.inr ⟨e, he, List.mem_singleton.mp hr⟩
  · intro r hr hcount
    by_cases hre : r = e.route env
    · -- the route was there already, so `e` looked for another spelling
      refine ⟨e, he, hre, ?_⟩
      intro hsp
      have hmem : r ∉ routes := hsp ▸ hnew
      rw [List.count_append, List.count_eq_zero.mpr hmem] at hcount
      have hle : [e.route env].count r ≤ 1 := List.count_le_length
      omega
    · have hzero : [e.route env].count r = 0 := by
        rw [List.count_eq_zero, List.mem_singleton]
        exact hre
      rw [List.count_append, hzero, Nat.add_zero] at hcount
      exact h.single r hr hcount

/-- Activating the wanted endpoints registers all of them. -/
theorem activate_all {env : Env} {core : List Route} {wanted : CustomEndpoint → Prop} {ids : List String}
    (es : List CustomEndpoint) (hes : ∀ e ∈ es, wanted e ∧ e.pluginId ∈ ids) (w : World)
    (hids : w.activePlugins = ids) (h : RoutesFit env core wanted w.routes) :
    (Outcome.loop (fun w e =>
      if e.pluginId ∈ w.activePlugins then e.activate env w else .returned w) es w).Ends
      (fun t => RoutesFit env core wanted t.routes ∧ w.routes ⊆ t.routes ∧ w.bound ⊆ t.bound ∧
        ∀ e ∈ es, e.route env ∈ t.routes ∧ e ∈ t.bound) (fun _ => True) := by
  induction es generalizing w with
  | nil => exact ⟨h, fun _ hr => hr, fun _ hb => hb, by simp⟩
  | cons e es ih =>
    obtain ⟨he, hid⟩ := hes e List.mem_cons_self
    have hstep : (e.activate env w).Ends (fun t => t.activePlugins = ids ∧
        RoutesFit env core wanted t.routes ∧ w.routes ⊆ t.routes ∧ w.bound ⊆ t.bound ∧
        e.route env ∈ t.routes ∧ e ∈ t.bound) (fun _ => True) := by
      unfold CustomEndpoint.activate
      simp only
      split
      · trivial
      · rename_i hfound
        have hmem : e.spelled ∈ w.routes := (has_route_ok hfound).mp rfl
        have hroute : e.route env = e.spelled := by
          have hn : e.methods.image env.upper = e.methods := h.normal _ hmem e.methods rfl
          unfold CustomEndpoint.route CustomEndpoint.spelled
          rw [hn]
        exact ⟨hids, h, fun _ hr => hr, List.subset_cons_self e w.bound, hroute ▸ hmem,
          List.mem_cons_self⟩
      · rename_i hfound
        have hmem : e.spelled ∉ w.routes := by
          intro hin
          have := (has_route_ok hfound).mpr hin
          cases this
        refine ⟨hids, h.add he hmem, List.subset_append_left _ _, List.subset_cons_self e w.bound,
          ?_, List.mem_cons_self⟩
        exact List.mem_append_right _ (List.mem_singleton_self _)
    have hbody : (if e.pluginId ∈ w.activePlugins then e.activate env w else .returned w) =
        e.activate env w := if_pos (hids ▸ hid)
    unfold Outcome.loop
    rw [hbody]
    apply hstep.andThen
    intro t ht
    obtain ⟨ht, hfit, hr, hb, her, heb⟩ := ht
    refine (ih (fun x hx => hes x (List.mem_cons_of_mem e hx)) t ht hfit).mono ?_ (fun _ _ => trivial)
    intro u hu
    obtain ⟨hfit', hr', hb', hall⟩ := hu
    refine ⟨hfit', fun _ hx => hr' (hr hx), fun _ hx => hb' (hb hx), ?_⟩
    intro x hx
    rcases List.mem_cons.mp hx with rfl | hx
    · exact ⟨hr' her, hb' heb⟩
    · exact hall x hx

/-- Deactivated endpoints that recognise their routes, none of them a core
route, take exactly their routes away. -/
theorem RoutesFit.remove {env : Env} {core routes : List Route} {wanted wanted' : CustomEndpoint → Prop}
    (h : RoutesFit env core wanted routes) (es : List CustomEndpoint)
    (hsep : ∀ e ∈ es, e.spelled = e.route env ∧ e.route env ∉ core)
    (hw : ∀ e, wanted e → e ∈ es ∨ wanted' e) :
    RoutesFit env core wanted' (routes.diff (es.map CustomEndpoint.spelled)) := by
  have hsub : (routes.diff (es.map CustomEndpoint.spelled)).Sublist routes := List.diff_sublist _ _
  have hsingle (r : Route) (hr : r ∉ core) (hcount : 2 ≤ routes.count r) :
      ∃ e, wanted' e ∧ r = e.route env ∧ e.spelled ≠ r := by
    obtain ⟨e, he, hre, hsp⟩ := h.single r hr hcount
    rcases hw e he with hin | hw'
    · exact absurd ((hsep e hin).1.trans hre.symm) hsp
    · exact ⟨e, hw', hre, hsp⟩
  refine ⟨fun r hr => h.normal r (hsub.subset hr), ?_, ?_, ?_⟩
  · intro r hr
    rw [← List.count_pos_iff, List.count_diff]
    have hzero : (es.map CustomEndpoint.spelled).count r = 0 := by
      rw [List.count_eq_zero]
      intro hin
      obtain ⟨e, he, hre⟩ := List.mem_map.mp hin
      obtain ⟨hsp, hcore⟩ := hsep e he
      exact hcore (hsp ▸ hre ▸ hr)
    have hpos := List.count_pos_iff.mpr (h.keepsCore r hr)
    omega
  · intro r hr
    rcases h.justified r (hsub.subset hr) with hc | ⟨e, he, hre⟩
    · exact Or.inl hc
    rcases hw e he with hin | hw'
    · -- the route of a removed endpoint is left: another endpoint has added it again
      obtain ⟨hsp, hcore⟩ := hsep e hin
      have hone : 0 < (es.map CustomEndpoint.spelled).count r := by
        rw [List.count_pos_iff]
        exact List.mem_map.mpr ⟨e, hin, hsp.trans hre.symm⟩
      have hpos := List.count_pos_iff.mpr hr
      rw [List.count_diff] at hpos
      obtain ⟨e', hw', hre', _⟩ := hsingle r (hre ▸ hcore) (by omega)
      exact Or.inr ⟨e', hw', hre'⟩
    · exact Or.inr ⟨e, hw', hre⟩
  · intro r hr hcount
    exact hsingle r hr (Nat.le_trans hcount (hsub.count_le r))

/-! ### Operations -/

/-- The routes are those of the core and of the active plugins, and the endpoints
of the active plugins know the app. -/
structure RoutesHeld (env : Env) (core : List Route) (w : World) : Prop where
  callback : w.callback = true
  fit : RoutesFit env core (ActiveEndpoint w) w.routes
  registered : ∀ e, ActiveEndpoint w e → e.route env ∈ w.routes ∧ e ∈ w.bound

theorem callback_routes (env : Env) {core : List Route} {w : World} (hk : Kept w.plugins)
    (hc : w.caches = w.collect) (hon : w.callback = true)
    (hfit : RoutesFit env core (ActiveEndpoint w) w.routes) :
    (onFinishPluginsSyncCallback env w).Ends (RoutesHeld env core) (fun _ => True) := by
  have hendpoints : w.caches.endpoints = w.activeObjects.flatMap Plugin.endpoints :=
    congrArg Caches.endpoints hc
  have hes : ∀ e ∈ w.caches.endpoints, ActiveEndpoint w e ∧ e.pluginId ∈ w.activePlugins := by
    intro e he
    rw [hendpoints] at he
    obtain ⟨p, hp, he⟩ := List.mem_flatMap.mp he
    obtain ⟨hget, hid⟩ := (active_object_iff hk.toKeyed p).mp hp
    exact ⟨⟨p.id, p, hget, hid, he⟩, (hk p.id p hget).owns e he ▸ hid⟩
  have hloop : (activateEndpoints env w).Ends
      (fun t => RoutesFit env core (ActiveEndpoint w) t.routes ∧ w.routes ⊆ t.routes ∧
        w.bound ⊆ t.bound ∧ ∀ e ∈ w.caches.endpoints, e.route env ∈ t.routes ∧ e ∈ t.bound)
      (fun _ => True) := activate_all w.caches.endpoints hes w rfl hfit
  have hembed : (onFinishPluginsSyncCallback env w).Ends
      (fun t => RoutesFit env core (ActiveEndpoint w) t.routes ∧ w.routes ⊆ t.routes ∧
        w.bound ⊆ t.bound ∧ ∀ e ∈ w.caches.endpoints, e.route env ∈ t.routes ∧ e ∈ t.bound)
      (fun _ => True) := by
    apply hloop.andThen
    intro t ht
    unfold embedProcedures
    split
    · exact ht
    · trivial
  refine ((callback_ends env w).both hembed).mono ?_ (fun _ _ => trivial)
  intro t ht
  obtain ⟨⟨routes, bound, ht⟩, hfit', _, _, hall⟩ := ht
  subst ht
  refine ⟨hon, hfit', ?_⟩
  intro e he
  apply hall e
  rw [hendpoints]
  obtain ⟨p, hp, hep⟩ := (active_endpoint_iff hk.toKeyed e).mp he
  exact List.mem_flatMap.mpr ⟨p, hp, hep⟩

theorem sync_routes (env : Env) {core : List Route} {w : World} (hk : Kept w.plugins)
    (hon : w.callback = true) (hfit : RoutesFit env core (ActiveEndpoint w) w.routes) :
    (syncHooksToolsAndForms env w).Ends (RoutesHeld env core) (fun _ => True) := by
  unfold syncHooksToolsAndForms
  simp only
  rw [if_pos hon]
  exact callback_routes env hk rfl hon hfit

/-- An endpoint that recognises its own route, which is not a core route. -/
def CustomEndpoint.Separable (env : Env) (core : List Route) (e : CustomEndpoint) : Prop :=
  e.spelled = e.route env ∧ e.route env ∉ core

theorem switch_routes {env : Env} {core : List Route} {w v : World} {p : Plugin} {id : String}
    (hk : Keyed w.plugins) (hget : w.plugins.get? id = some p)
    (hfit : RoutesFit env core (ActiveEndpoint w) w.routes)
    (hbound : ∀ e, ActiveEndpoint w e → e ∈ w.bound)
    (hsep : id ∈ w.activePlugins → ∀ e ∈ p.endpoints, e.Separable env core)
    (hs : Switched env p id w v) : RoutesFit env core (ActiveEndpoint v) v.routes := by
  have hid : p.id = id := hk id p hget
  cases hs with
  | off u hin hu =>
    have hroutes : u.routes = w.routes.diff (p.endpoints.map CustomEndpoint.spelled) := by
      rw [hu.routes, List.filter_eq_self.mpr]
      intro e he
      exact decide_eq_true (hbound e ⟨id, p, hget, hin, he⟩)
    change RoutesFit env core _ u.routes
    rw [hroutes]
    apply hfit.remove p.endpoints (hsep hin)
    intro e he
    obtain ⟨id', q, hq, hid', he⟩ := he
    by_cases heq : id' = id
    · subst heq
      rw [hget] at hq
      rw [← Option.some.inj hq] at he
      exact Or.inl he
    · refine Or.inr ⟨id', q, ?_, (List.mem_erase_of_ne heq).mpr hid', he⟩
      change u.plugins.get? id' = some q
      rw [hu.plugins, hid, Dict.get?_set_other _ _ heq]
      exact hq
  | on u hun hu =>
    change RoutesFit env core _ u.routes
    rw [hu.routes]
    apply hfit.mono
    intro e he
    obtain ⟨id', q, hq, hid', he⟩ := he
    have hne : id' ≠ id := fun heq => hun (heq ▸ hid')
    refine ⟨id', q, ?_, List.mem_append_left _ hid', he⟩
    change u.plugins.get? id' = some q
    rw [hu.plugins, hid, Dict.get?_set_other _ _ hne]
    exact hq

theorem Switched.callback {env : Env} {p : Plugin} {id : String} {w v : World}
    (hs : Switched env p id w v) : v.callback = w.callback := by
  cases hs with
  | off u _ hu => exact hu.frame.callback
  | on u _ hu => exact hu.frame.callback

theorem toggle_routes (env : Env) {core : List Route} {w : World} {id : String}
    (hk : Kept w.plugins) (hon : w.callback = true)
    (hfit : RoutesFit env core (ActiveEndpoint w) w.routes)
    (hbound : ∀ e, ActiveEndpoint w e → e ∈ w.bound)
    (hsep : id ∈ w.activePlugins → ∀ p, w.plugins.get? id = some p →
      ∀ e ∈ p.endpoints, e.Separable env core) :
    (togglePlugin env w id).Ends (RoutesHeld env core) (fun _ => True) := by
  cases hget : w.plugins.get? id with
  | none =>
    rw [toggle_not_present env hget]
    trivial
  | some p =>
    unfold togglePlugin
    simp only [hget]
    apply ((switch_ends env w p id).mono (fun u hu => hu.1) (fun _ _ => trivial)).andThen
    intro u hu
    apply sync_routes env (hu.kept hk) (hu.callback.trans hon)
    exact switch_routes hk.toKeyed hget hfit hbound (fun hin => hsep hin p hget) hu

/-- The steps that keep the routes in line: a plugin that is deactivated has
separable endpoints, an active plugin with endpoints is not replaced, and plugins
are discovered at start-up only. -/
def KeepsRoutes (env : Env) (core : List Route) (w : World) : Event → Prop
  | .operation .findPlugins => False
  | .operation (.togglePlugin id) =>
    id ∈ w.activePlugins → ∀ p, w.plugins.get? id = some p → ∀ e ∈ p.endpoints, e.Separable env core
  | .operation (.uninstallPlugin id) =>
    id ≠ "core_plugin" → id ∈ w.activePlugins →
      ∀ p, w.plugins.get? id = some p → ∀ e ∈ p.endpoints, e.Separable env core
  | .operation (.installPlugin a) =>
    a.slug ∈ w.activePlugins → ∀ p, w.plugins.get? a.slug = some p →
      (∀ e ∈ p.endpoints, e.Separable env core) ∧
      ∀ folder q, a.folder = .ok folder → Plugin.create a.path (some folder) = .ok q → p.endpoints = []
  | _ => True

theorem RoutesHeld.of_same {env : Env} {core : List Route} {w t : World} (h : RoutesHeld env core w)
    (hon : t.callback = w.callback) (hroutes : t.routes = w.routes) (hbound : t.bound = w.bound)
    (hactive : ∀ e, ActiveEndpoint t e ↔ ActiveEndpoint w e) : RoutesHeld env core t := by
  refine ⟨hon.trans h.callback, ?_, ?_⟩
  · rw [hroutes]
    exact h.fit.mono (fun e he => (hactive e).mpr he)
  · intro e he
    rw [hroutes, hbound]
    exact h.registered e ((hactive e).mp he)

theorem uninstall_routes (env : Env) {core : List Route} {w : World} {id : String}
    (hc : Consistent w) (h : RoutesHeld env core w)
    (hcond : KeepsRoutes env core w (.operation (.uninstallPlugin id))) :
    (uninstallPlugin env w id).Ends (RoutesHeld env core) (fun _ => True) := by
  unfold uninstallPlugin
  split
  · rename_i hid
    have hoff : (if id ∈ w.activePlugins then togglePlugin env w id else .returned w).Ends
        (RoutesHeld env core) (fun _ => True) := by
      split
      · rename_i hin
        exact toggle_routes env hc.1 h.callback h.fit (fun e he => (h.registered e he).2)
          (hcond hid.2)
      · exact h
    refine ((switch_off_ends env hc id).both hoff).mono (fun t ht => ht) (fun _ _ => trivial)
      |>.andThen ?_
    intro t ht
    obtain ⟨⟨_, hempty⟩, ht⟩ := ht
    split
    · trivial
    · rename_i p hp
      have hactive (disk : Dict FolderPath PluginFolder) (e : CustomEndpoint) :
          ActiveEndpoint { t with plugins := t.plugins.erase id, disk := disk } e ↔
            ActiveEndpoint t e := by
        constructor
        · intro hx
          obtain ⟨id', q, hq, hid', he⟩ := hx
          have hq' : (t.plugins.erase id).get? id' = some q := hq
          rw [Dict.get?_erase] at hq'
          split at hq'
          · cases hq'
          · exact ⟨id', q, hq', hid', he⟩
        · intro hx
          obtain ⟨id', q, hq, hid', he⟩ := hx
          refine ⟨id', q, ?_, hid', he⟩
          change (t.plugins.erase id).get? id' = some q
          rw [Dict.get?_erase, if_neg]
          · exact hq
          · intro heq
            subst heq
            rw [(hempty q hq hid').2.2.2] at he
            cases he
      refine (remove_tree_ends _ _).mono ?_ (fun _ _ => trivial)
      intro u hu
      obtain ⟨disk, hu⟩ := hu
      subst hu
      exact ht.of_same rfl rfl rfl (hactive disk)
  · exact h

theorem extract_routes {env : Env} {core : List Route} {w : World} (h : RoutesHeld env core w)
    (a : Archive) (folder : PluginFolder) : RoutesHeld env core (w.extract a folder) := by
  obtain ⟨hplugins, hlist, _⟩ := extract_folder w a folder
  have hsame : (w.extract a folder).callback = w.callback ∧
      (w.extract a folder).routes = w.routes ∧ (w.extract a folder).bound = w.bound := by
    unfold World.extract World.removeFolder
    simp only
    split <;> exact ⟨rfl, rfl, rfl⟩
  apply h.of_same hsame.1 hsame.2.1 hsame.2.2
  intro e
  unfold ActiveEndpoint
  rw [hplugins, hlist]

/-- The object that is replaced is not active, or has no endpoints. -/
theorem active_endpoint_replace {w : World} {q : Plugin} (hnil : q.endpoints = [])
    (hold : q.id ∈ w.activePlugins → ∀ p, w.plugins.get? q.id = some p → p.endpoints = [])
    (e : CustomEndpoint) : ActiveEndpoint (w.setPlugin q) e ↔ ActiveEndpoint w e := by
  have hget : (w.setPlugin q).plugins.get? q.id = some q := Dict.get?_set_self _ _ _
  have hother {id : String} (hid : id ≠ q.id) :
      (w.setPlugin q).plugins.get? id = w.plugins.get? id := Dict.get?_set_other _ _ hid
  constructor
  · intro hx
    obtain ⟨id, p, hp, hid, he⟩ := hx
    by_cases heq : id = q.id
    · rw [heq, hget] at hp
      rw [← Option.some.inj hp, hnil] at he
      cases he
    · exact ⟨id, p, (hother heq) ▸ hp, hid, he⟩
  · intro hx
    obtain ⟨id, p, hp, hid, he⟩ := hx
    by_cases heq : id = q.id
    · subst heq
      rw [hold hid p hp] at he
      cases he
    · exact ⟨id, p, (hother heq).trans hp, hid, he⟩

theorem install_routes (env : Env) {core : List Route} {w : World} {a : Archive}
    (hc : Consistent w) (h : RoutesHeld env core w)
    (hcond : KeepsRoutes env core w (.operation (.installPlugin a))) :
    (installPlugin env w a).Ends (RoutesHeld env core) (fun _ => True) := by
  unfold installPlugin
  split
  · trivial
  · rename_i folder hfolder
    let x := w.extract a folder
    obtain ⟨hplugins, hlist, settings, hdisk⟩ := extract_folder w a folder
    have hx : Kept x.plugins := hplugins ▸ hc.1
    have hheld : RoutesHeld env core x := extract_routes h a folder
    have htoggle {y : World} (hy : Kept y.plugins) (held : RoutesHeld env core y)
        (hsep : a.slug ∈ y.activePlugins → ∀ p, y.plugins.get? a.slug = some p →
          ∀ e ∈ p.endpoints, e.Separable env core) :
        (togglePlugin env y a.slug).Ends (RoutesHeld env core) (fun _ => True) :=
      toggle_routes env hy held.callback held.fit (fun e he => (held.registered e he).2) hsep
    have hkept : Kept (x.loadPlugin a.path).plugins := load_plugin_kept hx a.path
    change (togglePlugin env (x.loadPlugin a.path) a.slug).Ends _ _
    cases hcreate : Plugin.create a.path (x.disk.get? a.path) with
    | error error =>
      have hload : x.loadPlugin a.path = x := by simp [World.loadPlugin, hcreate]
      rw [hload]
      apply htoggle hx hheld
      intro hin p hp
      rw [hlist] at hin
      rw [hplugins] at hp
      exact (hcond hin p hp).1
    | ok q =>
      have hload : x.loadPlugin a.path = x.setPlugin q := load_plugin_valid hcreate
      obtain ⟨f, hf, hq⟩ := Plugin.create_ok hcreate
      have hnil : q.endpoints = [] := by rw [hq]
      by_cases hslug : a.slug = ""
      · rw [hslug, toggle_not_present env hkept.toKeyed.empty_id]
        trivial
      have hqid : q.id = a.slug := by
        rw [hq]
        exact archive_path_id hslug
      have hold : q.id ∈ x.activePlugins → ∀ p, x.plugins.get? q.id = some p →
          p.endpoints = [] := by
        intro hin p hp
        have hvalid : Plugin.create a.path (some folder) = .ok q := by
          rw [← hcreate, hdisk]
          rfl
        rw [hqid, hlist] at hin
        rw [hqid, hplugins] at hp
        exact (hcond hin p hp).2 folder q hfolder hvalid
      rw [hload] at hkept ⊢
      apply htoggle hkept (hheld.of_same rfl rfl rfl (active_endpoint_replace hnil hold))
      intro _ p hp
      have hget : (x.setPlugin q).plugins.get? q.id = some q := Dict.get?_set_self _ _ _
      rw [← hqid, hget] at hp
      rw [← Option.some.inj hp, hnil]
      simp

/-! ### Runs -/

/-- Before the Cat sets its callback, no route is added. -/
theorem find_plugins_routes (env : Env) (w : World) (hoff : w.callback = false) :
    (findPlugins env w).Ends (fun t => t.routes = w.routes) (fun _ => True) := by
  let x := { w with plugins := .empty, activePlugins := loadActivePluginsFromDb w }
  have hloop : (Outcome.loop (discover env) (.core :: x.pluginFolders) x).Ends
      (fun t => t.routes = w.routes ∧ t.callback = false) (fun _ => True) := by
    refine Outcome.Ends.loop ?_ ⟨rfl, hoff⟩
    intro path _ t ht
    obtain ⟨ht, hcallback⟩ := ht
    have hload : (t.loadPlugin path).routes = w.routes ∧ (t.loadPlugin path).callback = false := by
      unfold World.loadPlugin
      split <;> exact ⟨ht, hcallback⟩
    unfold discover
    simp only
    split
    · have hact : ((t.loadPlugin path).activateById path.id).Ends
          (fun u => u.routes = w.routes ∧ u.callback = false) (fun _ => True) := by
        unfold World.activateById
        split
        · trivial
        · refine (activate_ends _ _).mono ?_ (fun _ _ => trivial)
          intro u hu
          exact ⟨hu.routes.trans hload.1, hu.frame.callback.trans hload.2⟩
      apply hact.rescue
      intro error u _
      split
      · cases togglePlugin env u path.id <;> trivial
      · trivial
    · exact hload
  apply hloop.andThen
  intro t ht
  obtain ⟨ht, hcallback⟩ := ht
  unfold syncHooksToolsAndForms
  simp only [hcallback]
  exact ht

theorem start_up_routes (env : Env) (stored : Option (List String))
    (disk : Dict FolderPath PluginFolder) (core : List Route) (hcore : ∀ r ∈ core, r.Normal env) :
    (startUp env (World.boot stored disk core)).Ends (RoutesHeld env core) (fun _ => True) := by
  have hfind := (find_plugins_consistent env (World.boot stored disk core)).both
    (find_plugins_routes env (World.boot stored disk core) rfl)
  apply (hfind.mono (fun t ht => ht) (fun _ _ => trivial)).andThen
  intro t ht
  obtain ⟨hc, hroutes⟩ := ht
  have hfit : RoutesFit env core (ActiveEndpoint { t with callback := true }) t.routes := by
    rw [hroutes]
    refine ⟨hcore, fun r hr => hr, fun r hr => Or.inl hr, ?_⟩
    intro r hr hcount
    have hzero : core.count r = 0 := List.count_eq_zero.mpr hr
    have hcount' : 2 ≤ core.count r := hcount
    omega
  exact callback_routes env hc.1 hc.2 rfl hfit

theorem completed_routes (env : Env) {core : List Route} (w : World) (e : Event) (t : World)
    (hcond : KeepsRoutes env core w e) (h : Consistent w ∧ RoutesHeld env core w)
    (ht : completed env w e = some t) : Consistent t ∧ RoutesHeld env core t := by
  refine ⟨completed_consistent env w e t h.1 ht, ?_⟩
  obtain ⟨hc, hheld⟩ := h
  cases e with
  | operation op =>
    have hend : (perform env w op).Ends (RoutesHeld env core) (fun _ => True) := by
      cases op with
      | findPlugins => exact hcond.elim
      | installPlugin a => exact install_routes env hc hheld hcond
      | uninstallPlugin id => exact uninstall_routes env hc hheld hcond
      | togglePlugin id =>
        exact toggle_routes env hc.1 hheld.callback hheld.fit
          (fun e he => (hheld.registered e he).2) hcond
    exact hend.of_returned (completed_operation.mp ht)
  | folder path content =>
    obtain ⟨disk, rfl, _⟩ := surround_disk ht
    exact hheld.of_same rfl rfl rfl (fun _ => Iff.rfl)
  | embedder error =>
    cases ht
    exact hheld.of_same rfl rfl rfl (fun _ => Iff.rfl)

/-- The routes of the app are the core routes and those of the active plugins. -/
def RoutesFollow (env : Env) (core : List Route) (w : World) : Prop :=
  ∀ r, r ∈ w.routes ↔ r ∈ core ∨ ∃ p ∈ w.activeObjects, ∃ e ∈ p.endpoints, r = e.route env

/-- A plugin with one endpoint, on `/custom/hello` or on the path of a core route. -/
def greeterFolder (routePrefix path method : String) : PluginFolder :=
  oneFile [("hello", .endpoint ⟨routePrefix, path, "hello", {method}, ""⟩)]

def greeterDisk (routePrefix path method : String) : Dict FolderPath PluginFolder :=
  Dict.ofList [(.core, coreFolder), (.plugin "greeter" (by decide), greeterFolder routePrefix path method)]

def coreRoutes : List Route := [⟨"/", some {"GET"}⟩, ⟨"/static", none⟩]

/-- The plugin is switched on and off again. -/
def onAndOff : List Event :=
  [.operation (.togglePlugin "greeter"), .operation (.togglePlugin "greeter")]

theorem not_follow_of_extra {env : Env} {core : List Route} {w : World} {r : Route}
    (hr : r ∈ w.routes) (hcore : r ∉ core)
    (hnone : ∀ p ∈ w.activeObjects, p.endpoints = []) : ¬ RoutesFollow env core w := by
  intro h
  rcases (h r).mp hr with hin | ⟨p, hp, e, he, _⟩
  · exact hcore hin
  · rw [hnone p hp] at he
    cases he

/-- Reinstalling an active plugin replaces the object that knows its routes. -/
theorem reinstalled_route_stays :
    ∃ v w, startUp Env.ascii
        (World.boot (some ["greeter"]) (greeterDisk "/custom" "/hello" "GET") coreRoutes) =
        .returned v ∧
      run (completed Env.ascii) v [.operation (.installPlugin
        ⟨"greeter", .ok (greeterFolder "/custom" "/hello" "GET")⟩)] = some w ∧
      ¬ RoutesFollow Env.ascii coreRoutes w := by
  let v := (startUp Env.ascii
    (World.boot (some ["greeter"]) (greeterDisk "/custom" "/hello" "GET") coreRoutes)).state
  let a : Archive := ⟨"greeter", .ok (greeterFolder "/custom" "/hello" "GET")⟩
  let w := (installPlugin Env.ascii v a).state
  have hw : completed Env.ascii v (.operation (.installPlugin a)) = some w :=
    completed_operation.mpr (Outcome.eq_returned_of_returns (by decide))
  have hstays : ⟨"/custom/hello", some {"GET"}⟩ ∈ w.routes := by decide
  refine ⟨v, w, Outcome.eq_returned_of_returns (by decide), by simp [run, a, hw], ?_⟩
  exact not_follow_of_extra hstays (by decide) (by decide)

/-- An endpoint with the path and methods of a core route takes that route away. -/
theorem core_route_lost :
    ∃ v w, startUp Env.ascii (World.boot none (greeterDisk "" "/" "GET") coreRoutes) =
        .returned v ∧
      run (completed Env.ascii) v onAndOff = some w ∧ ¬ RoutesFollow Env.ascii coreRoutes w := by
  let v := (startUp Env.ascii (World.boot none (greeterDisk "" "/" "GET") coreRoutes)).state
  let u := (togglePlugin Env.ascii v "greeter").state
  let w := (togglePlugin Env.ascii u "greeter").state
  have hu : completed Env.ascii v (.operation (.togglePlugin "greeter")) = some u :=
    completed_operation.mpr (Outcome.eq_returned_of_returns (by decide))
  have hw : completed Env.ascii u (.operation (.togglePlugin "greeter")) = some w :=
    completed_operation.mpr (Outcome.eq_returned_of_returns (by decide))
  have hlost : ⟨"/", some {"GET"}⟩ ∉ w.routes := by decide
  refine ⟨v, w, Outcome.eq_returned_of_returns (by decide), by simp [run, onAndOff, hu, hw], ?_⟩
  intro h
  exact hlost ((h _).mpr (Or.inl (by decide)))

end CheshireCat.MadHatter
