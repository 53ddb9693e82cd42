import CheshireCat.MadHatter.Discovery

namespace CheshireCat.MadHatter
open Base

/-! ### The first listed plugin that fails -/

/-- The object that a failed activation leaves can be deactivated. Without its requirements
nothing of it has been loaded. -/
def World.SwitchesOff (w : World) (p : Plugin) : Prop :=
  w.requirementsError p = none → (p.read w).overrideError "deactivated" = none ∧
    { w with bound := w.bound.filter (fun e => e ∉ w.freshEndpoints p) }.Removable (p.read w)

/-- The store and the routes after the plugin that failed has been switched off. -/
def World.without (w : World) (p : Plugin) : World :=
  { w with
    stored := some ((loadActivePluginsFromDb w).erase p.id)
    routes := if w.requirementsError p = none then
        w.routes.diff (((p.read w).endpoints.filter
          (fun e => e ∈ w.bound ∧ e ∉ w.freshEndpoints p)).map CustomEndpoint.spelled)
      else w.routes }

/-- The plugin object after a failed activation. -/
structure FailedObject (w : World) (p q : Plugin) (s u : World) : Prop where
  path : q.path = p.path
  object : u.plugins.get? p.id = some q
  frame : Frame p s u
  routes : u.routes = s.routes
  empty : w.requirementsError p ≠ none → q = p ∧ u.bound = s.bound
  read : w.requirementsError p = none → q.overrides = (p.read w).overrides ∧
    q.endpoints = (p.read w).endpoints ∧
    ∀ e, e ∈ u.bound ↔ e ∈ s.bound ∧ e ∉ w.freshEndpoints p

theorem failed_object {w s u : World} {p : Plugin} (hsame : SameAt p.path w s)
    (hget : s.plugins.get? p.id = some p) (h : FailedActivation p s u) :
    ∃ q, FailedObject w p q s u := by
  have hreq := hsame.requirementsError
  have hbound (hu : u.bound = s.bound.filter (fun e => e ∉ s.freshEndpoints p)) (e : CustomEndpoint) :
      e ∈ u.bound ↔ e ∈ s.bound ∧ e ∉ w.freshEndpoints p := by
    rw [hu, List.mem_filter, hsame.freshEndpoints, decide_eq_true_iff]
  cases h with
  | requirements error =>
    refine ⟨p, rfl, hget, Frame.refl p s, rfl, fun _ => ⟨rfl, rfl⟩, ?_⟩
    intro hnone
    exact absurd (hreq.trans hnone) error
  | settings installed _ =>
    refine ⟨p.read s, rfl, Dict.get?_set_self _ _ _, load_frame s p, rfl, ?_, ?_⟩
    · intro hsome
      exact absurd (hreq.symm.trans installed) hsome
    · intro _
      rw [hsame.read]
      exact ⟨rfl, rfl, hbound rfl⟩
  | override u installed _ _ activated =>
    refine ⟨p.loaded s, rfl, ?_, activated.frame, activated.routes, ?_, ?_⟩
    · rw [activated.plugins, Dict.get?_set_self]
    · intro hsome
      exact absurd (hreq.symm.trans installed) hsome
    · intro _
      rw [hsame.loaded]
      exact ⟨rfl, rfl, hbound activated.bound⟩

section Failed

variable {w s u : World} {p q : Plugin}

theorem FailedObject.switches_off_iff (h : FailedObject w p q s u) (hnone : p.overrides = .empty)
    (hnil : p.endpoints = []) (hroutes : s.routes = w.routes)
    (hbound : ∀ e : CustomEndpoint, e.pluginId = p.id → (e ∈ s.bound ↔ e ∈ w.bound)) :
    (q.overrideError "deactivated" = none ∧ u.Removable q) ↔ w.SwitchesOff p := by
  by_cases hreq : w.requirementsError p = none
  · obtain ⟨hoverrides, hendpoints, hfresh⟩ := h.read hreq
    have hoverride : q.overrideError "deactivated" = (p.read w).overrideError "deactivated" := by
      rw [Plugin.overrideError, Plugin.overrideError, hoverrides]
    have hremovable : u.Removable q ↔
        { w with bound := w.bound.filter (fun e => e ∉ w.freshEndpoints p) }.Removable (p.read w) := by
      unfold World.Removable
      rw [hendpoints]
      refine Eq.congr_left (removal_congr _ ?_ (h.routes.trans hroutes))
      intro e he
      have hown : e.pluginId = p.id := Plugin.with_functions_endpoint he
      rw [hfresh, hbound e hown, List.mem_filter, decide_eq_true_iff]
    rw [hoverride, hremovable]
    exact ⟨fun hoff _ => hoff, fun hoff => hoff hreq⟩
  · obtain ⟨rfl, _⟩ := h.empty hreq
    refine iff_of_true ⟨?_, ?_⟩ (fun hinstalled => absurd hinstalled hreq)
    · rw [Plugin.overrideError, hnone]
      rfl
    · rw [World.Removable, hnil]
      rfl

theorem FailedObject.routes_without (h : FailedObject w p q s u) (hnil : p.endpoints = [])
    (hroutes : s.routes = w.routes)
    (hbound : ∀ e : CustomEndpoint, e.pluginId = p.id → (e ∈ s.bound ↔ e ∈ w.bound)) :
    u.routes.diff ((q.endpoints.filter (fun e => e ∈ u.bound)).map CustomEndpoint.spelled) =
      (w.without p).routes := by
  rw [h.routes, hroutes]
  by_cases hreq : w.requirementsError p = none
  · obtain ⟨_, hendpoints, hfresh⟩ := h.read hreq
    have hfilter : q.endpoints.filter (fun e => e ∈ u.bound) =
        (p.read w).endpoints.filter (fun e => e ∈ w.bound ∧ e ∉ w.freshEndpoints p) := by
      rw [hendpoints]
      apply List.filter_congr
      intro e he
      have hown : e.pluginId = p.id := Plugin.with_functions_endpoint he
      rw [decide_eq_decide, hfresh, hbound e hown]
    rw [hfilter]
    exact (if_pos hreq).symm
  · obtain ⟨rfl, _⟩ := h.empty hreq
    rw [hnil]
    exact (if_neg hreq).symm

end Failed

/-- The state in which discovery stops, with the plugin that failed switched off. -/
structure Stopped (env : Env) (w : World) (before : List FolderPath) (p : Plugin)
    (t : World) : Prop where
  activePlugins : t.activePlugins = (loadActivePluginsFromDb w).erase p.id
  stored : t.stored = some (env.listOfSet ((loadActivePluginsFromDb w).erase p.id))
  caches : t.caches = t.collect
  callback : t.callback = w.callback
  embedError : t.embedError = w.embedError
  keys : t.disk.keys = w.disk.keys
  routes : ∀ e, Unblocked t.routes e ↔ Unblocked (w.without p).routes e
  plugins : ∀ id q, id ≠ p.id → (t.plugins.get? id = some q ↔ FoundIn w before id q)
  reusable : AllReusable w before t

theorem stopped_of_switched {env : Env} {w t u v x : World} {before : List FolderPath}
    {p q : Plugin} (h : Discovered w before t) (hnew : ∀ r ∈ before, r.id ≠ p.id)
    (hobject : FailedObject w p q (t.setPlugin p) u) (hnil : p.endpoints = [])
    (hbound : ∀ e : CustomEndpoint, e.pluginId = p.id → (e ∈ t.bound ↔ e ∈ w.bound))
    (hkeys : v.disk.keys = w.disk.keys) (hin : p.id ∈ u.activePlugins)
    (hx : Switched env q p.id u x) (hv : Registered x.collected v) : Stopped env w before p v := by
  have hqid : q.id = p.id := congrArg FolderPath.id hobject.path
  have hlist : u.activePlugins = loadActivePluginsFromDb w :=
    hobject.frame.activePlugins.trans h.activePlugins
  cases hx with
  | on y hun _ => exact absurd hin hun
  | off y _ hy =>
    obtain ⟨more, bound, rfl, hmore⟩ := hv
    refine ⟨?_, ?_, rfl, ?_, ?_, hkeys, ?_, ?_, ?_⟩
    · change u.activePlugins.erase p.id = _
      rw [hlist]
    · change some (env.listOfSet (u.activePlugins.erase p.id)) = _
      rw [hlist]
    · exact hy.frame.callback.trans (hobject.frame.callback.trans h.callback)
    · exact hy.frame.embedError.trans (hobject.frame.embedError.trans h.embedError)
    · intro e
      rw [← hobject.routes_without hnil h.routes hbound, ← hy.routes]
      exact unblocked_append hmore
    · intro id r hid
      rw [← h.plugins]
      have hbefore : u.plugins.get? id = t.plugins.get? id :=
        (hobject.frame.other hid).trans (Dict.get?_set_other _ _ hid)
      have hafter : y.plugins.get? id = u.plugins.get? id := hy.frame.other (hqid ▸ hid)
      exact Eq.congr_left (hafter.trans hbefore)
    · have hreusable := ((h.reusable.set_plugin p).frame hobject.frame hnew).frame hy.frame
        (hqid ▸ hnew)
      intro path hpath hlisted
      obtain ⟨p', hp', hactivates, hagain⟩ := hreusable path hpath hlisted
      exact ⟨p', hp', hactivates, hagain.sameAt ⟨rfl, fun _ => rfl⟩⟩

/-- A valid plugin whose activation fails stops the loop. It is switched off where that is
possible, and stays listed otherwise. -/
theorem discover_fails {env : Env} {w t : World} {before : List FolderPath} {path : FolderPath}
    {p : Plugin} (h : Discovered w before t) (hnew : ∀ q ∈ before, q.id ≠ path.id)
    (hp : Plugin.create path (w.disk.get? path) = .ok p)
    (hlisted : path.id ∈ loadActivePluginsFromDb w) (hfails : ¬ w.Activates p) :
    (discover env t path).Ends (fun _ => False) (fun v =>
      (w.SwitchesOff p ∧ Stopped env w before p v) ∨
        (¬ w.SwitchesOff p ∧ path.id ∈ v.activePlugins)) := by
  have hpath : p.path = path := created_path hp
  have hid : p.id = path.id := congrArg FolderPath.id hpath
  obtain ⟨hload, hsame⟩ := discovered_set h hnew hp
  obtain ⟨hnone, hnil⟩ : p.overrides = .empty ∧ p.endpoints = [] := by
    obtain ⟨_, _, rfl⟩ := Plugin.create_ok hp
    exact ⟨rfl, rfl⟩
  have hbound (e : CustomEndpoint) (he : e.pluginId = p.id) : e ∈ t.bound ↔ e ∈ w.bound :=
    h.bound e (fun q hq hqe => hnew q hq (hqe.symm.trans (he.trans hid)))
  have hget : (t.setPlugin p).plugins.get? p.id = some p := Dict.get?_set_self _ _ _
  have hin : path.id ∈ (t.setPlugin p).activePlugins := by
    change path.id ∈ t.activePlugins
    rw [h.activePlugins]
    exact hlisted
  have hfind : (t.setPlugin p).activateById path.id = (t.setPlugin p).activate p := by
    unfold World.activateById
    rw [← hid, hget]
  have hactivate : ((t.setPlugin p).activate p).Ends (fun _ => False) (fun u =>
      (∃ q, FailedObject w p q (t.setPlugin p) u) ∧ u.disk.keys = w.disk.keys) := by
    refine ((activate_exact (t.setPlugin p) p).both (activate_keys (t.setPlugin p) p)).mono ?_ ?_
    · intro u hu
      exact hfails (hsame.activates_iff.mp hu.1.2)
    · intro u hu
      exact ⟨failed_object hsame hget hu.1, hu.2.trans h.keys⟩
  unfold discover
  simp only
  rw [hload, if_pos hin, hfind]
  apply hactivate.rescue
  intro error u hu
  obtain ⟨⟨q, hobject⟩, hkeys⟩ := hu
  have hstill : p.id ∈ u.activePlugins := by
    rw [hobject.frame.activePlugins, hid]
    exact hin
  have hoff := hobject.switches_off_iff hnone hnil h.routes hbound
  have hswitched {v x : World} (hx : Switched env q p.id u x) (hswitches : u.Switches q p.id)
      (hv : Registered x.collected v) (hdisk : v.disk = u.disk) :
      w.SwitchesOff p ∧ Stopped env w before p v := by
    refine ⟨hoff.mp (hswitches.off hstill), ?_⟩
    exact stopped_of_switched h (hid ▸ hnew) hobject hnil hbound (hdisk ▸ hkeys) hstill hx hv
  have htoggle : (togglePlugin env u p.id).Ends
      (fun v => w.SwitchesOff p ∧ Stopped env w before p v)
      (fun v => (w.SwitchesOff p ∧ Stopped env w before p v) ∨
        (¬ w.SwitchesOff p ∧ path.id ∈ v.activePlugins)) := by
    refine ((toggle_exact env hobject.object).both
      (toggle_off_disk env hobject.object hstill)).mono ?_ ?_
    · intro v hv
      obtain ⟨⟨x, hx, hswitches, hsynced, _⟩, hdisk⟩ := hv
      exact hswitched hx hswitches hsynced hdisk
    · intro v hv
      obtain ⟨hfailed | ⟨x, hx, hswitches, hsynced, _⟩, hdisk⟩ := hv
      · refine Or.inr ⟨?_, ?_⟩
        · intro hswitchesOff
          obtain ⟨hrun, hremovable⟩ := hoff.mpr hswitchesOff
          cases hfailed.off hstill with
          | override error => exact error hrun
          | endpoints _ _ error _ _ => exact error hremovable
        · rw [hfailed.frame.activePlugins, ← hid]
          exact hstill
      · exact Or.inl (hswitched hx hswitches hsynced hdisk)
  have hsameToggle : togglePlugin env u path.id = togglePlugin env u p.id := by rw [hid]
  rw [if_pos (hid ▸ hstill), hsameToggle]
  apply htoggle.andThen
  intro v hv
  exact Or.inl hv

/-- A listed folder without a valid plugin stops the loop, and stays listed. -/
theorem discover_misses {env : Env} {w t : World} {before : List FolderPath} {path : FolderPath}
    (h : Discovered w before t) (hnew : ∀ q ∈ before, q.id ≠ path.id)
    (hnone : ∀ p, Plugin.create path (w.disk.get? path) ≠ .ok p)
    (hlisted : path.id ∈ loadActivePluginsFromDb w) :
    (discover env t path).Ends (fun _ => False) (fun v => path.id ∈ v.activePlugins) := by
  have hsame : SameAt path w t := h.rest path (fun hmem => hnew path hmem rfl)
  have hload : t.loadPlugin path = t := load_plugin_invalid (hsame.disk ▸ hnone)
  have hin : path.id ∈ t.activePlugins := by
    rw [h.activePlugins]
    exact hlisted
  have hmissing : t.plugins.get? path.id = none := by
    cases hget : t.plugins.get? path.id with
    | none => rfl
    | some q =>
      obtain ⟨path', hmem, hid, _⟩ := (h.plugins path.id q).mp hget
      exact absurd hid (hnew path' hmem)
  unfold discover World.activateById
  simp only
  rw [hload, if_pos hin, hmissing]
  simp only [Outcome.rescue]
  rw [if_pos hin, toggle_not_present env hmissing]
  exact hin

/-! ### The whole loop -/

theorem exists_first {α : Type} (bad : α → Prop) (l : List α) (h : ∃ x ∈ l, bad x) :
    ∃ before x after, l = before ++ x :: after ∧ bad x ∧ ∀ y ∈ before, ¬ bad y := by
  induction l with
  | nil =>
    obtain ⟨x, hx, _⟩ := h
    cases hx
  | cons a l ih =>
    by_cases ha : bad a
    · exact ⟨[], a, l, rfl, ha, by simp⟩
    · obtain ⟨x, hx, hbad⟩ := h
      have hl : ∃ x ∈ l, bad x := by
        rcases List.mem_cons.mp hx with rfl | hx
        · exact absurd hbad ha
        · exact ⟨x, hx, hbad⟩
      obtain ⟨before, y, after, rfl, hy, hbefore⟩ := ih hl
      exact ⟨a :: before, y, after, rfl, hy, List.forall_mem_cons.mpr ⟨ha, hbefore⟩⟩

/-- Every listed plugin can be constructed and activated. -/
def World.AllActivate (w : World) : Prop :=
  ∀ path ∈ w.folders, path.id ∈ loadActivePluginsFromDb w → ¬ w.Fails path

/-- The callback finds no endpoint of a listed plugin blocked. -/
def World.Registers (w : World) : Prop :=
  w.callback = true → w.embedError = none ∧
    ∀ path ∈ w.folders, ∀ p, Plugin.create path (w.disk.get? path) = .ok p →
      path.id ∈ loadActivePluginsFromDb w → ∀ e ∈ (p.loaded w).endpoints, Unblocked w.routes e

theorem find_plugins_eq (env : Env) (w : World) :
    findPlugins env w =
      (Outcome.loop (discover env) w.folders w.start).andThen (syncHooksToolsAndForms env) := rfl

theorem all_discovered (env : Env) {w : World} (hclash : w.NoClash) (hall : w.AllActivate) :
    ∃ t, Discovered w w.folders t ∧ findPlugins env w = syncHooksToolsAndForms env t := by
  have hloop := discover_loop env hclash (List.append_nil w.folders).symm hall
  rw [find_plugins_eq]
  cases h : Outcome.loop (discover env) w.folders w.start with
  | returned t =>
    rw [h] at hloop
    exact ⟨t, hloop, rfl⟩
  | raised error t =>
    rw [h] at hloop
    exact hloop.elim

/-- A loop with a listed plugin that fails raises at the first one. -/
theorem first_failure (env : Env) {w : World} (hclash : w.NoClash)
    {before after : List FolderPath} {path : FolderPath}
    (hfolders : w.folders = before ++ path :: after) (hlisted : path.id ∈ loadActivePluginsFromDb w)
    (hfails : w.Fails path)
    (hok : ∀ q ∈ before, q.id ∈ loadActivePluginsFromDb w → ¬ w.Fails q) :
    (findPlugins env w).Ends (fun _ => False) (fun v =>
      ((∀ p, Plugin.create path (w.disk.get? path) ≠ .ok p) ∧ path.id ∈ v.activePlugins) ∨
      ∃ p, Plugin.create path (w.disk.get? path) = .ok p ∧
        ((w.SwitchesOff p ∧ Stopped env w before p v) ∨
          (¬ w.SwitchesOff p ∧ path.id ∈ v.activePlugins))) := by
  have hnew := (id_new hclash hfolders).1
  rw [find_plugins_eq, hfolders, Outcome.loop_append]
  have hloop := discover_loop env hclash hfolders hok
  cases hdone : Outcome.loop (discover env) before w.start with
  | raised error t =>
    rw [hdone] at hloop
    exact hloop.elim
  | returned t =>
    rw [hdone] at hloop
    have hstep : (discover env t path).Ends (fun _ => False) (fun v =>
        ((∀ p, Plugin.create path (w.disk.get? path) ≠ .ok p) ∧ path.id ∈ v.activePlugins) ∨
        ∃ p, Plugin.create path (w.disk.get? path) = .ok p ∧
          ((w.SwitchesOff p ∧ Stopped env w before p v) ∨
            (¬ w.SwitchesOff p ∧ path.id ∈ v.activePlugins))) := by
      by_cases hvalid : ∃ p, Plugin.create path (w.disk.get? path) = .ok p
      · obtain ⟨p, hp⟩ := hvalid
        apply (discover_fails hloop hnew hp hlisted (hfails p hp).2).mono (fun _ hf => hf)
        intro v hv
        exact Or.inr ⟨p, hp, hv⟩
      · push Not at hvalid
        apply (discover_misses hloop hnew hvalid hlisted).mono (fun _ hf => hf)
        intro v hv
        exact Or.inl ⟨hvalid, hv⟩
    apply (hstep.andThen (fun _ hf => hf.elim)).andThen (R := fun _ => False)
    intro u hu
    exact hu.elim

theorem exists_first_failure {w : World} (h : ¬ w.AllActivate) :
    ∃ before path after, w.folders = before ++ path :: after ∧
      path.id ∈ loadActivePluginsFromDb w ∧ w.Fails path ∧
      ∀ q ∈ before, q.id ∈ loadActivePluginsFromDb w → ¬ w.Fails q := by
  have hbad : ∃ path ∈ w.folders, path.id ∈ loadActivePluginsFromDb w ∧ w.Fails path := by
    unfold World.AllActivate at h
    push Not at h
    exact h
  obtain ⟨before, path, after, hfolders, ⟨hlisted, hfails⟩, hbefore⟩ := exists_first _ _ hbad
  exact ⟨before, path, after, hfolders, hlisted, hfails, fun q hq hin hf => hbefore q hq ⟨hin, hf⟩⟩

theorem Discovered.keyed {w t : World} {done : List FolderPath} (h : Discovered w done t) :
    Keyed t.plugins := by
  intro id q hq
  obtain ⟨path, _, hid, p, hp, rfl⟩ := (h.plugins id q).mp hq
  have hpath := (discovered_path w p).trans (created_path hp)
  exact (congrArg FolderPath.id hpath).trans hid

/-- The sync after the loop registers the endpoints of the listed plugins. -/
theorem Discovered.syncs_iff {w t : World} (h : Discovered w w.folders t) :
    t.Syncs ↔ w.Registers := by
  have hloaded {p : Plugin} (hin : p.id ∈ loadActivePluginsFromDb w) :
      w.discovered p = p.loaded w := if_pos hin
  have hendpoints (e : CustomEndpoint) :
      (e ∈ t.collect.endpoints ∧ e.pluginId ∈ t.activePlugins) ↔
        ∃ path ∈ w.folders, ∃ p, Plugin.create path (w.disk.get? path) = .ok p ∧
          path.id ∈ loadActivePluginsFromDb w ∧ e ∈ (p.loaded w).endpoints := by
    have hcollect : e ∈ t.collect.endpoints ↔ ∃ q ∈ t.activeObjects, e ∈ q.endpoints :=
      List.mem_flatMap
    rw [hcollect, h.activePlugins]
    constructor
    · intro he
      obtain ⟨⟨q, hq, he⟩, _⟩ := he
      obtain ⟨hget, hin⟩ := (active_object_iff h.keyed q).mp hq
      obtain ⟨path, hpath, hid, p, hp, hqp⟩ := (h.plugins _ _).mp hget
      rw [h.activePlugins] at hin
      have hpid : p.id = path.id := congrArg FolderPath.id (created_path hp)
      rw [hqp, hloaded (by rw [hpid, hid]; exact hin)] at he
      exact ⟨path, hpath, p, hp, hid ▸ hin, he⟩
    · intro he
      obtain ⟨path, hpath, p, hp, hin, he⟩ := he
      have hpid : p.id = path.id := congrArg FolderPath.id (created_path hp)
      have hget : t.plugins.get? path.id = some (p.loaded w) :=
        (h.plugins _ _).mpr ⟨path, hpath, rfl, p, hp, (hloaded (hpid ▸ hin)).symm⟩
      have howner : e.pluginId = p.id := Plugin.with_functions_endpoint he
      refine ⟨⟨p.loaded w, (active_object_iff h.keyed _).mpr ⟨?_, ?_⟩, he⟩, ?_⟩
      · exact hpid ▸ hget
      · rw [h.activePlugins]
        exact hpid ▸ hin
      · rw [howner, hpid]
        exact hin
  unfold World.Syncs World.Callable World.Registers World.collected
  simp only [h.callback, h.embedError, h.routes]
  refine imp_congr_right (fun _ => and_congr_right (fun _ => ?_))
  constructor
  · intro hall path hpath p hp hin e he
    obtain ⟨hcached, howner⟩ := (hendpoints e).mpr ⟨path, hpath, p, hp, hin, he⟩
    exact hall e hcached howner
  · intro hall e hcached howner
    obtain ⟨path, hpath, p, hp, hin, he⟩ := (hendpoints e).mp ⟨hcached, howner⟩
    exact hall path hpath p hp hin e he

end CheshireCat.MadHatter
