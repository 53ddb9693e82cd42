import CheshireCat.MadHatter.Steps

namespace CheshireCat.MadHatter
open Base

/-- The caches are a function of the plugins and the active list. -/
structure Determined (w : World) : Prop where
  tools : w.caches.tools = w.activeObjects.flatMap Plugin.tools
  forms : w.caches.forms = w.activeObjects.flatMap Plugin.forms
  endpoints : w.caches.endpoints = w.activeObjects.flatMap Plugin.endpoints
  absent : ∀ name, w.caches.hooks.get? name = none ↔
    ∀ p ∈ w.activeObjects, ∀ h ∈ p.hooks, h.name ≠ name
  sorted : ∀ name hooks, w.caches.hooks.get? name = some hooks →
    SortedByKey CatHook.priority
      ((w.activeObjects.flatMap Plugin.hooks).filter (fun h => h.name = name)) hooks

/-- The loop over plugins and their hooks is one loop over all hooks. -/
theorem collect_hooks (w : World) (name : String) :
    w.collect.hooks.get? name =
      if ∃ h ∈ w.activeObjects.flatMap Plugin.hooks, h.name = name then
        some (sortDescending CatHook.priority
          ((w.activeObjects.flatMap Plugin.hooks).filter (fun h => h.name = name)))
      else none := by
  have hfold : w.activeObjects.foldl addHooks Dict.empty =
      (w.activeObjects.flatMap Plugin.hooks).foldl (fun acc h => acc.push h.name h) Dict.empty :=
    List.foldl_flatMap.symm
  change ((w.activeObjects.foldl addHooks Dict.empty).mapValues _).get? name = _
  rw [Dict.get?_mapValues, hfold, Dict.get?_foldl_push]
  split <;> simp

theorem determined_of_collect {w : World} (h : w.caches = w.collect) : Determined w where
  tools := congrArg Caches.tools h
  forms := congrArg Caches.forms h
  endpoints := congrArg Caches.endpoints h
  absent := by
    intro name
    rw [h, collect_hooks]
    split
    · rename_i hex
      obtain ⟨k, hk, hname⟩ := hex
      obtain ⟨p, hp, hkp⟩ := List.mem_flatMap.mp hk
      simp only [reduceCtorEq, false_iff]
      intro hall
      exact hall p hp k hkp hname
    · rename_i hex
      simp only [true_iff]
      intro p hp k hk hname
      exact hex ⟨k, List.mem_flatMap.mpr ⟨p, hp, hk⟩, hname⟩
  sorted := by
    intro name hooks hget
    rw [h, collect_hooks] at hget
    split at hget
    · rw [← Option.some.inj hget]
      exact sort_descending_spec _ _
    · cases hget

/-- A hook of an active plugin is found under its name. -/
theorem Determined.hook_cached {w : World} (h : Determined w) {p : Plugin}
    (hp : p ∈ w.activeObjects) {k : CatHook} (hk : k ∈ p.hooks) :
    ∃ hooks, w.caches.hooks.get? k.name = some hooks ∧ k ∈ hooks := by
  cases hget : w.caches.hooks.get? k.name with
  | none => exact absurd rfl ((h.absent k.name).mp hget p hp k hk)
  | some hooks =>
    refine ⟨hooks, rfl, (h.sorted k.name hooks hget).perm.mem_iff.mpr ?_⟩
    exact List.mem_filter.mpr ⟨List.mem_flatMap.mpr ⟨p, hp, hk⟩, by simp⟩

/-- What holds of every plugin object along a run of operations that return. -/
structure Plugin.Kept (p : Plugin) (id : String) : Prop where
  keyed : p.id = id
  ordered : p.Ordered
  owns : ∀ e ∈ p.endpoints, e.pluginId = id

def Kept (plugins : Dict String Plugin) : Prop :=
  ∀ id p, plugins.get? id = some p → p.Kept id

theorem Kept.toKeyed {plugins : Dict String Plugin} (h : Kept plugins) : Keyed plugins :=
  fun id p hp => (h id p hp).keyed

theorem Kept.set {plugins : Dict String Plugin} (h : Kept plugins) {id : String} {q : Plugin}
    (hq : q.Kept id) : Kept (plugins.set id q) :=
  Dict.forall_set h hq

theorem Kept.erase {plugins : Dict String Plugin} (h : Kept plugins) (id : String) :
    Kept (plugins.erase id) :=
  Dict.forall_erase h id

theorem loaded_kept (w : World) (p : Plugin) : (p.loaded w).Kept p.id := by
  refine ⟨rfl, ⟨w.imported p, ?_, ?_⟩, ?_⟩
  · change ((w.imported p).map Prod.fst).Sublist p.pyFiles
    unfold World.imported
    generalize p.pyFiles = files
    induction files with
    | nil => simp
    | cons file files ih =>
      rw [List.filterMap_cons]
      cases w.importModule p.path file with
      | none => exact ih.cons file
      | some m => exact ih.cons_cons file
  · change (((w.imported p).map Prod.snd).flatMap (fun m => getmembers m isCatHook)).map _ = _
    rw [List.flatMap_map]
    rfl
  · intro e he
    exact Plugin.with_functions_endpoint he

theorem emptied_kept (p : Plugin) : p.emptied.Kept p.id :=
  ⟨rfl, Plugin.ordered_of_nil rfl, by simp [Plugin.emptied]⟩

theorem load_plugin_kept {w : World} (h : Kept w.plugins) (path : FolderPath) :
    Kept (w.loadPlugin path).plugins := by
  unfold World.loadPlugin
  split
  · rename_i p hp
    obtain ⟨f, _, rfl⟩ := Plugin.create_ok hp
    exact h.set ⟨rfl, Plugin.ordered_of_nil rfl, by simp⟩
  · exact h

theorem Activated.kept {p : Plugin} {w t : World} (ht : Activated p w t) (h : Kept w.plugins) :
    Kept t.plugins := by
  rw [ht.plugins]
  exact h.set (loaded_kept w p)

theorem Deactivated.kept {p : Plugin} {w t : World} (ht : Deactivated p w t)
    (h : Kept w.plugins) : Kept t.plugins := by
  rw [ht.plugins]
  exact h.set (emptied_kept p)

theorem Switched.kept {env : Env} {p : Plugin} {id : String} {w v : World}
    (hs : Switched env p id w v) (h : Kept w.plugins) : Kept v.plugins := by
  cases hs with
  | off u _ hu =>
    have hk : Kept u.plugins := hu.kept h
    exact hk
  | on u _ hu =>
    have hk : Kept u.plugins := hu.kept h
    exact hk

theorem Toggled.kept {env : Env} {p : Plugin} {id : String} {w t : World}
    (ht : Toggled env p id w t) (h : Kept w.plugins) : Kept t.plugins := by
  obtain ⟨v, hv, hs⟩ := ht
  rw [hs.plugins]
  exact hv.kept h

/-- The invariant of the runs of operations that return. -/
def Consistent (w : World) : Prop := Kept w.plugins ∧ w.caches = w.collect

theorem toggle_consistent (env : Env) {w : World} (h : Kept w.plugins) (id : String) :
    (togglePlugin env w id).Ends Consistent (fun _ => True) := by
  cases hp : w.plugins.get? id with
  | none =>
    rw [toggle_not_present env hp]
    trivial
  | some p =>
    refine (toggle_ends env hp).mono (fun t ht => ⟨ht.kept h, ?_⟩) (fun _ _ => trivial)
    obtain ⟨v, _, hs⟩ := ht
    exact hs.caches

theorem discover_kept (env : Env) {w : World} (h : Kept w.plugins) (path : FolderPath) :
    (discover env w path).Ends (fun t => Kept t.plugins) (fun _ => True) := by
  have hload := load_plugin_kept h path
  unfold discover
  simp only
  split
  · have hact : ((w.loadPlugin path).activateById path.id).Ends (fun t => Kept t.plugins)
        (fun _ => True) := by
      unfold World.activateById
      split
      · trivial
      · exact (activate_ends _ _).mono (fun t ht => ht.kept hload) (fun _ _ => trivial)
    refine hact.rescue ?_
    intro error u _
    split
    · cases togglePlugin env u path.id <;> trivial
    · trivial
  · exact hload

theorem find_plugins_consistent (env : Env) (w : World) :
    (findPlugins env w).Ends Consistent (fun _ => True) := by
  unfold findPlugins
  simp only
  refine (Outcome.Ends.loop (fun path _ t ht => discover_kept env ht path) ?_).andThen ?_
  · intro id p hp
    cases hp
  · intro t ht
    refine (sync_ends env t).mono (fun u hu => ⟨hu.plugins ▸ ht, hu.caches⟩) (fun _ _ => trivial)

theorem active_object_iff {w : World} (h : Keyed w.plugins) (p : Plugin) :
    p ∈ w.activeObjects ↔ w.plugins.get? p.id = some p ∧ p.id ∈ w.activePlugins := by
  unfold World.activeObjects
  rw [List.mem_filter, decide_eq_true_iff]
  refine and_congr_left (fun _ => ⟨?_, Dict.mem_values_of_get?⟩)
  intro hp
  obtain ⟨⟨id, q⟩, he, rfl⟩ := List.mem_map.mp hp
  have hget : w.plugins.get? id = some q := (Dict.get?_eq_some_iff _ _ _).mpr he
  rw [h id q hget]
  exact hget

theorem values_erase {plugins : Dict String Plugin} (h : Keyed plugins) (id : String) :
    (plugins.erase id).values = plugins.values.filter (fun p => p.id ≠ id) := by
  change (plugins.entries.filter (fun e => e.1 ≠ id)).map Prod.snd =
    (plugins.entries.map Prod.snd).filter (fun p => p.id ≠ id)
  rw [List.filter_map]
  congr 1
  apply List.filter_congr
  intro e he
  have hkey : e.2.id = e.1 := h e.1 e.2 ((Dict.get?_eq_some_iff _ _ _).mpr he)
  simp [hkey]

theorem flatMap_filter_of_nil {α β : Type} (l : List α) (f : α → List β) (keep : α → Bool)
    (h : ∀ a ∈ l, keep a = false → f a = []) : (l.filter keep).flatMap f = l.flatMap f := by
  induction l with
  | nil => rfl
  | cons a l ih =>
    have hl := ih (fun b hb => h b (List.mem_cons_of_mem a hb))
    cases ha : keep a with
    | true => rw [List.filter_cons_of_pos ha, List.flatMap_cons, List.flatMap_cons, hl]
    | false =>
      rw [List.filter_cons_of_neg (by simp [ha]), List.flatMap_cons, hl,
        h a List.mem_cons_self ha, List.nil_append]

/-- The plugin is not listed, or its object has been emptied. -/
def SwitchedOff (w : World) (id : String) : Prop :=
  ∀ p, w.plugins.get? id = some p → id ∈ w.activePlugins →
    p.hooks = [] ∧ p.tools = [] ∧ p.forms = [] ∧ p.endpoints = []

/-- A plugin that contributes nothing can be dropped from the collection. -/
theorem collect_erase {w : World} (hk : Keyed w.plugins) {id : String} (h : SwitchedOff w id) :
    { w with plugins := w.plugins.erase id }.collect = w.collect := by
  have hactive : { w with plugins := w.plugins.erase id }.activeObjects =
      w.activeObjects.filter (fun p => p.id ≠ id) := by
    change (w.plugins.erase id).values.filter _ = _
    rw [values_erase hk]
    exact List.filter_comm _ _ _
  have hnil (p : Plugin) (hp : p ∈ w.activeObjects) (hid : decide (p.id ≠ id) = false) :
      p.hooks = [] ∧ p.tools = [] ∧ p.forms = [] ∧ p.endpoints = [] := by
    obtain ⟨hget, hlisted⟩ := (active_object_iff hk p).mp hp
    have he : p.id = id := by simpa using hid
    rw [he] at hget hlisted
    exact h p hget hlisted
  have hfold (l : List Plugin) : l.foldl addHooks Dict.empty =
      (l.flatMap Plugin.hooks).foldl addHook Dict.empty := List.foldl_flatMap.symm
  unfold World.collect
  rw [hactive, hfold, hfold,
    flatMap_filter_of_nil _ Plugin.hooks _ (fun p hp hid => (hnil p hp hid).1),
    flatMap_filter_of_nil _ Plugin.tools _ (fun p hp hid => (hnil p hp hid).2.1),
    flatMap_filter_of_nil _ Plugin.forms _ (fun p hp hid => (hnil p hp hid).2.2.1),
    flatMap_filter_of_nil _ Plugin.endpoints _ (fun p hp hid => (hnil p hp hid).2.2.2)]

/-- The first half of an uninstallation. -/
theorem switch_off_ends (env : Env) {w : World} (h : Consistent w) (id : String) :
    (if id ∈ w.activePlugins then togglePlugin env w id else .returned w).Ends
      (fun t => Consistent t ∧ SwitchedOff t id) (fun _ => True) := by
  split
  · rename_i hid
    cases hp : w.plugins.get? id with
    | none =>
      rw [toggle_not_present env hp]
      trivial
    | some p =>
      refine (toggle_ends env hp).mono ?_ (fun _ _ => trivial)
      intro t ht
      have hkept := ht.kept h.1
      obtain ⟨v, hv, hs⟩ := ht
      refine ⟨⟨hkept, hs.caches⟩, ?_⟩
      intro q hq _
      cases hv with
      | on u hun _ => exact absurd hid hun
      | off u _ hu =>
        have hset : t.plugins = w.plugins.set p.id p.emptied := hs.plugins.trans hu.plugins
        rw [hset, (h.1 id p hp).keyed, Dict.get?_set_self] at hq
        rw [← Option.some.inj hq]
        exact ⟨rfl, rfl, rfl, rfl⟩
  · rename_i hid
    exact ⟨h, fun p _ hlisted => absurd hlisted hid⟩

theorem uninstall_consistent (env : Env) {w : World} (h : Consistent w) (id : String) :
    (uninstallPlugin env w id).Ends Consistent (fun _ => True) := by
  unfold uninstallPlugin
  split
  · refine (switch_off_ends env h id).andThen ?_
    intro t ht
    obtain ⟨ht, hoff⟩ := ht
    split
    · trivial
    · refine (remove_tree_ends _ _).mono ?_ (fun _ _ => trivial)
      intro u hu
      obtain ⟨disk, hu⟩ := hu
      rw [hu]
      exact ⟨ht.1.erase id, ht.2.trans (collect_erase ht.1.toKeyed hoff).symm⟩
  · exact h

theorem install_consistent (env : Env) {w : World} (h : Kept w.plugins) (a : Archive) :
    (installPlugin env w a).Ends Consistent (fun _ => True) := by
  unfold installPlugin
  split
  · trivial
  · rename_i folder _
    have hx : Kept (w.extract a folder).plugins := by
      unfold World.extract World.removeFolder
      simp only
      split <;> exact h
    exact toggle_consistent env (load_plugin_kept hx a.path) a.slug

theorem perform_consistent (env : Env) {w : World} (h : Consistent w) (op : Operation) :
    (perform env w op).Ends Consistent (fun _ => True) := by
  cases op with
  | findPlugins => exact find_plugins_consistent env w
  | installPlugin a => exact install_consistent env h.1 a
  | uninstallPlugin id => exact uninstall_consistent env h id
  | togglePlugin id => exact toggle_consistent env h.1 id

theorem start_up_consistent (env : Env) (w : World) :
    (startUp env w).Ends Consistent (fun _ => True) := by
  refine (find_plugins_consistent env w).andThen ?_
  intro t ht
  refine (callback_ends env { t with callback := true }).mono ?_ (fun _ _ => trivial)
  intro u hu
  obtain ⟨routes, bound, hu⟩ := hu
  rw [hu]
  exact ht

theorem completed_consistent (env : Env) (w : World) (e : Event) (t : World) (h : Consistent w)
    (ht : completed env w e = some t) : Consistent t := by
  cases e with
  | operation op =>
    exact (perform_consistent env h op).of_returned (completed_operation.mp ht)
  | folder path content =>
    obtain ⟨disk, rfl, _⟩ := surround_disk ht
    exact h
  | embedder error =>
    cases ht
    exact h

/-- After any run of operations that return, the caches are those of the active
plugins, whose hooks come in the order in which `getmembers` lists them. -/
theorem caches_determined (env : Env) (stored : Option (List String))
    (disk : Dict FolderPath PluginFolder) (routes : List Route) (events : List Event) (v w : World)
    (hstart : startUp env (World.boot stored disk routes) = .returned v)
    (hrun : run (completed env) v events = some w) :
    Determined w ∧ ∀ id p, w.plugins.get? id = some p → p.Ordered := by
  have hv : Consistent v := (start_up_consistent env _).of_returned hstart
  have hw : Consistent w := run_keeps (completed_consistent env) hv hrun
  exact ⟨determined_of_collect hw.2, fun id p hp => (hw.1 id p hp).ordered⟩

/-- A folder with one python file. -/
def oneFile (members : List (String × Member)) : PluginFolder where
  pyFiles := Dict.ofList [("plugin.py", some (Dict.ofList members))]
  hasSettings := true

def coreFolder : PluginFolder :=
  oneFile [("agent_prompt_prefix", .hook ⟨"agent_prompt_prefix", "core", 0, ""⟩)]

/-- Two hooks of one name and priority, the last in the alphabet defined first. -/
def zebraFolder : PluginFolder :=
  oneFile [("zebra", .hook ⟨"agent_prompt_prefix", "zebra", 1, ""⟩),
    ("ant", .hook ⟨"agent_prompt_prefix", "ant", 1, ""⟩)]

theorem zoo_named : "zoo" ≠ "" := by decide

def zooDisk : Dict FolderPath PluginFolder :=
  Dict.ofList [(.core, coreFolder), (.plugin "zoo" (by decide), zebraFolder)]

theorem caches_determined_zoo :
    ∃ v w, startUp Env.ascii (World.boot none zooDisk []) = .returned v ∧
      run (completed Env.ascii) v [.operation (.togglePlugin "zoo")] = some w ∧
      Determined w ∧ ∀ id p, w.plugins.get? id = some p → p.Ordered := by
  let v := (startUp Env.ascii (World.boot none zooDisk [])).state
  have hv : startUp Env.ascii (World.boot none zooDisk []) = .returned v :=
    Outcome.eq_returned_of_returns (by decide)
  have hw : (run (completed Env.ascii) v [.operation (.togglePlugin "zoo")]).isSome := by decide
  have hw' := (Option.some_get hw).symm
  exact ⟨v, _, hv, hw', caches_determined Env.ascii none zooDisk [] _ v _ hv hw'⟩

/-- The hooks of a folder in the order in which its files define them. -/
def PluginFolder.definedHooks (folder : PluginFolder) (id : String) : List CatHook :=
  (folder.pyFiles.values.flatMap (fun m => (m.getD .empty).values.filterMap isCatHook)).map
    (fun h => { h with pluginId := id })

/-- The ties are not in definition order: `zebra` is defined before `ant`. -/
theorem ties_not_in_definition_order :
    ∃ v, startUp Env.ascii (World.boot (some ["zoo"]) zooDisk []) = .returned v ∧
      ∃ hooks, v.caches.hooks.get? "agent_prompt_prefix" = some hooks ∧
        ¬ SortedByKey CatHook.priority
          ((coreFolder.definedHooks "core_plugin" ++ zebraFolder.definedHooks "zoo").filter
            (fun h => h.name = "agent_prompt_prefix")) hooks := by
  let v := (startUp Env.ascii (World.boot (some ["zoo"]) zooDisk [])).state
  have hhooks : v.caches.hooks.get? "agent_prompt_prefix" =
      some [⟨"agent_prompt_prefix", "ant", 1, "zoo"⟩, ⟨"agent_prompt_prefix", "zebra", 1, "zoo"⟩,
        ⟨"agent_prompt_prefix", "core", 0, "core_plugin"⟩] := by decide
  refine ⟨v, Outcome.eq_returned_of_returns (by decide), _, hhooks, ?_⟩
  intro h
  have hties := h.ties 1
  revert hties
  decide

end CheshireCat.MadHatter
