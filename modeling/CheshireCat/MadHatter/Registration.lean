import CheshireCat.MadHatter.Hooks
import Mathlib.Data.List.Nodup

namespace CheshireCat.MadHatter
open Base

/-- What the decorators make. -/
inductive Kind where
  | hook
  | tool
  | form
  | endpoint
deriving DecidableEq

def Kind.decorates (kind : Kind) (m : Member) : Bool :=
  match kind with
  | .hook => (isCatHook m).isSome
  | .tool => (isCatTool m).isSome
  | .form => (isCatForm m).isSome
  | .endpoint => (isCustomEndpoint m).isSome

/-- A plugin and the namespaces of its modules. A name is bound to an object, which other names may
be bound to as well, in the module that defines it and in those that import it. -/
structure LoadedPlugin (O : Type) where
  plugin : Plugin
  namespaces : List (Dict String O)

section

variable {O : Type} (member : O → Member)

/-- `getmembers` for the objects of a kind. -/
def objectsOf (kind : Kind) (names : Dict String O) : List (String × O) :=
  (names.entries.filter (fun p => kind.decorates (member p.2))).insertionSort (fun p q => p.1 ≤ q.1)

/-- The objects of a kind that `_load_decorated_functions` puts into the list of the plugin. -/
def LoadedPlugin.registered (p : LoadedPlugin O) (kind : Kind) : List O :=
  p.namespaces.flatMap (fun names => (objectsOf member kind names).map Prod.snd)

def LoadedPlugin.modules (p : LoadedPlugin O) : List Module :=
  p.namespaces.map (fun names => names.mapValues member)

/-- The plugin after its activation. -/
def LoadedPlugin.activated (p : LoadedPlugin O) : Plugin :=
  { p.plugin.withFunctions (p.modules member) with active := true }

/-- Two names are never bound to one decorated object. -/
def LoadedPlugin.BoundOnce (p : LoadedPlugin O) : Prop :=
  ∀ (kind : Kind) (i j : Nat) (names names' : Dict String O) (name name' : String) (o : O),
    p.namespaces[i]? = some names → p.namespaces[j]? = some names' →
    names.get? name = some o → names'.get? name' = some o → kind.decorates (member o) = true →
    i = j ∧ name = name'

/-- The objects of a kind that the MadHatter lists, in the order of the plugins. -/
def synced (plugins : List (LoadedPlugin O)) (kind : Kind) : List O :=
  plugins.flatMap (fun p => p.registered member kind)

/-- No decorated object is in two plugins. -/
def Apart (plugins : List (LoadedPlugin O)) : Prop :=
  plugins.Pairwise (fun p q => ∀ kind, List.Disjoint (p.registered member kind) (q.registered member kind))

end

/-- The calls, with the hooks whose functions are called. -/
def HookCalls.logged {V σ : Type} (calls : HookCalls V σ) : HookCalls V (σ × List CatHook) where
  pluginId := calls.pluginId
  copiable := calls.copiable
  function h args s := ((calls.function h args s.1).1, ((calls.function h args s.1).2, s.2 ++ [h]))

/-- The hook as it is cached. -/
def hookOf {O : Type} (member : O → Member) (p : LoadedPlugin O) (o : O) : Option (O × CatHook) :=
  (isCatHook (member o)).map (fun h => (o, { h with pluginId := p.plugin.id }))

/-- A decorated object is registered once in its plugin, listed at most once, and a hook is called at
most once when the hooks of its name are executed. -/
structure RegisteredOnce {O : Type} [DecidableEq O] (member : O → Member) (w : World)
    (plugins : List (LoadedPlugin O)) : Prop where
  once : ∀ p ∈ plugins, ∀ names ∈ p.namespaces, ∀ (kind : Kind), ∀ o ∈ names.values,
    kind.decorates (member o) = true → (p.registered member kind).count o = 1
  listed : ∀ kind, (synced member plugins kind).Nodup
  called : ∀ {V σ : Type} (calls : HookCalls V σ) (hookName : String) (args : List V) (s : σ)
    (result : Option V) (t : σ) (log : List CatHook),
    executeHookOn w calls.logged hookName args (s, []) = .ok (result, (t, log)) →
    ∃ run : List (O × CatHook), log = run.map Prod.snd ∧ (run.map Prod.fst).Nodup ∧
      ∀ x ∈ run, ∃ p ∈ plugins, hookOf member p x.1 = some x

/-! ### Bindings -/

section

variable {O : Type} {member : O → Member}

/-- The names of a module that are bound to objects of a kind, in the order of `getmembers`. -/
def bound {X : Type} (member : O → Member) (kind : Member → Option X) (names : Dict String O) :
    List (String × O × X) :=
  (names.entries.filterMap (fun p => (kind (member p.2)).map (fun x => (p.1, p.2, x)))).insertionSort
    (fun p q => p.1 ≤ q.1)

theorem bound_members {X : Type} (kind : Member → Option X) (names : Dict String O) :
    (bound member kind names).map (fun b => (b.1, b.2.2)) = getmembers (names.mapValues member) kind := by
  have hentries : (names.entries.filterMap (fun p => (kind (member p.2)).map (fun x => (p.1, p.2, x)))).map
      (fun b => (b.1, b.2.2)) =
      (names.mapValues member).entries.filterMap (fun p => (kind p.2).map (fun x => (p.1, x))) := by
    rw [Dict.mapValues, List.filterMap_map, List.map_filterMap]
    apply List.filterMap_congr
    intro p _
    rw [Option.map_map]
    rfl
  rw [getmembers, ← hentries]
  exact List.map_insertionSort _ _ _ _ (fun _ _ _ _ => Iff.rfl)

theorem bound_objects {X : Type} (kind : Member → Option X) (names : Dict String O) :
    (bound member kind names).map (fun b => (b.1, b.2.1)) =
      (names.entries.filter (fun p => (kind (member p.2)).isSome)).insertionSort (fun p q => p.1 ≤ q.1) := by
  have hentries (l : List (String × O)) :
      (l.filterMap (fun p => (kind (member p.2)).map (fun x => (p.1, p.2, x)))).map (fun b => (b.1, b.2.1)) =
      l.filter (fun p => (kind (member p.2)).isSome) := by
    induction l with
    | nil => rfl
    | cons p l ih =>
      cases hkind : kind (member p.2) with
      | none => simp [hkind, ih]
      | some x => simp [hkind, ih]
  rw [← hentries]
  exact List.map_insertionSort _ _ _ _ (fun _ _ _ _ => Iff.rfl)

/-- The hooks of a plugin with the objects that they are. -/
def LoadedPlugin.hookPairs (member : O → Member) (p : LoadedPlugin O) : List (O × CatHook) :=
  p.namespaces.flatMap (fun names =>
    (bound member isCatHook names).map (fun b => (b.2.1, { b.2.2 with pluginId := p.plugin.id })))

theorem LoadedPlugin.activated_hooks (p : LoadedPlugin O) :
    (p.activated member).hooks = (p.hookPairs member).map Prod.snd := by
  change ((p.namespaces.map (fun names => names.mapValues member)).flatMap
    (fun m => getmembers m isCatHook)).map (cleanHook p.plugin.id) = _
  rw [hookPairs, List.map_flatMap, List.flatMap_map, List.map_flatMap]
  congr 1
  funext names
  rw [← bound_members, List.map_map, List.map_map]
  rfl

theorem LoadedPlugin.hook_objects (p : LoadedPlugin O) :
    (p.hookPairs member).map Prod.fst = p.registered member .hook := by
  rw [hookPairs, registered, List.map_flatMap]
  congr 1
  funext names
  change _ = ((names.entries.filter (fun p => (isCatHook (member p.2)).isSome)).insertionSort
    (fun p q => p.1 ≤ q.1)).map Prod.snd
  rw [← bound_objects, List.map_map, List.map_map]
  rfl

theorem LoadedPlugin.mem_hook_pairs {p : LoadedPlugin O} {x : O × CatHook} (h : x ∈ p.hookPairs member) :
    hookOf member p x.1 = some x := by
  obtain ⟨names, _, hx⟩ := List.mem_flatMap.mp h
  obtain ⟨b, hb, rfl⟩ := List.mem_map.mp hx
  obtain ⟨e, _, he⟩ := List.mem_filterMap.mp ((List.perm_insertionSort _ _).mem_iff.mp hb)
  obtain ⟨hook, hhook, rfl⟩ := Option.map_eq_some_iff.mp he
  rw [hookOf, hhook]
  rfl

/-- The objects of a kind in a module, once for each of their names. -/
def values (member : O → Member) (kind : Kind) (names : Dict String O) : List O :=
  (names.entries.filter (fun p => kind.decorates (member p.2))).map Prod.snd

theorem mem_values {kind : Kind} {names : Dict String O} {o : O} :
    o ∈ values member kind names ↔ (∃ name, names.get? name = some o) ∧ kind.decorates (member o) = true := by
  constructor
  · intro h
    obtain ⟨⟨name, _⟩, hp, rfl⟩ := List.mem_map.mp h
    obtain ⟨hentry, hkind⟩ := List.mem_filter.mp hp
    exact ⟨⟨name, (Dict.get?_eq_some_iff _ _ _).mpr hentry⟩, hkind⟩
  · rintro ⟨⟨name, hget⟩, hkind⟩
    exact List.mem_map_of_mem (List.mem_filter.mpr ⟨(Dict.get?_eq_some_iff _ _ _).mp hget, hkind⟩)

/-- An object is registered as often as names are bound to it. -/
theorem LoadedPlugin.registered_perm (p : LoadedPlugin O) (kind : Kind) :
    (p.registered member kind).Perm (p.namespaces.flatMap (values member kind)) :=
  List.Perm.flatMap_left _ (fun _ _ => (List.perm_insertionSort _ _).map Prod.snd)

theorem LoadedPlugin.bound_once_iff (p : LoadedPlugin O) :
    p.BoundOnce member ↔ ∀ kind, (p.registered member kind).Nodup := by
  have hdistinct (kind : Kind) (names : Dict String O) :
      (names.entries.filter (fun p => kind.decorates (member p.2))).Nodup := names.entries_nodup.filter _
  constructor
  · intro h kind
    rw [(p.registered_perm kind).nodup_iff, List.nodup_flatMap]
    constructor
    · intro names hnames
      obtain ⟨i, hi⟩ := List.mem_iff_getElem?.mp hnames
      rw [values, List.nodup_map_iff_inj_on (hdistinct kind names)]
      rintro ⟨name, o⟩ hx ⟨name', _⟩ hy rfl
      obtain ⟨hx, hkind⟩ := List.mem_filter.mp hx
      have hname := (h kind i i names names name name' o hi hi ((Dict.get?_eq_some_iff _ _ _).mpr hx)
        ((Dict.get?_eq_some_iff _ _ _).mpr (List.mem_filter.mp hy).1) hkind).2
      rw [hname]
    · rw [List.pairwise_iff_getElem]
      intro i j hi hj hlt o ho ho'
      obtain ⟨⟨name, hname⟩, hkind⟩ := mem_values.mp ho
      obtain ⟨⟨name', hname'⟩, _⟩ := mem_values.mp ho'
      have hsame := (h kind i j _ _ name name' o (List.getElem?_eq_getElem hi) (List.getElem?_eq_getElem hj)
        hname hname' hkind).1
      exact absurd hlt (hsame ▸ Nat.lt_irrefl i)
  · intro h kind i j names names' name name' o hi hj hname hname' hkind
    have hnodup := (p.registered_perm kind).nodup_iff.mp (h kind)
    rw [List.nodup_flatMap, List.pairwise_iff_getElem] at hnodup
    obtain ⟨hi', rfl⟩ := List.getElem?_eq_some_iff.mp hi
    obtain ⟨hj', rfl⟩ := List.getElem?_eq_some_iff.mp hj
    have ho := mem_values.mpr ⟨⟨name, hname⟩, hkind⟩
    have ho' := mem_values.mpr ⟨⟨name', hname'⟩, hkind⟩
    rcases Nat.lt_trichotomy i j with hlt | rfl | hgt
    · exact absurd ho' (hnodup.2 i j hi' hj' hlt ho)
    · refine ⟨rfl, ?_⟩
      have hinj := (List.nodup_map_iff_inj_on (hdistinct kind _)).mp
        (hnodup.1 _ (List.getElem_mem hi'))
      have hmem (name : String) (hget : p.namespaces[i].get? name = some o) :
          (name, o) ∈ p.namespaces[i].entries.filter (fun p => kind.decorates (member p.2)) :=
        List.mem_filter.mpr ⟨(Dict.get?_eq_some_iff _ _ _).mp hget, hkind⟩
      exact congrArg Prod.fst (hinj _ (hmem name hname) _ (hmem name' hname') rfl)
    · exact absurd ho (hnodup.2 j i hj' hi' hgt ho')

end

/-! ### Calls -/

section

variable {V σ : Type} {w : World} {calls : HookCalls V σ}

theorem log_error_ok {α : Type} {h : CatHook} {rest result : α} (hok : logError w calls h rest = .ok result) :
    result = rest := by
  unfold logError at hok
  split at hok
  · exact (Except.ok.inj hok).symm
  · cases hok

theorem run_hook_log {s s' : σ × List CatHook} {h : CatHook} (hok : runHook w calls.logged s h = .ok s') :
    s'.2 = s.2 ++ [h] := by
  unfold runHook HookCalls.logged at hok
  dsimp only at hok
  generalize calls.function h [] s.1 = result at hok
  obtain ⟨ending, t⟩ := result
  cases ending with
  | returns value => rw [← Except.ok.inj hok]
  | returnsNone => rw [← Except.ok.inj hok]
  | raises error => rw [log_error_ok hok]
  | exits error => cases hok

/-- A hook of the pipe is called, or its arguments are not copied. -/
theorem pipe_hook_log {rest : List V} {c c' : V × (σ × List CatHook)} {h : CatHook}
    (hok : pipeHook w calls.logged rest c h = .ok c') : c'.2.2 = c.2.2 ++ [h] ∨ c'.2.2 = c.2.2 := by
  unfold pipeHook HookCalls.logged at hok
  dsimp only at hok
  split at hok
  · left
    generalize calls.function h (c.1 :: rest) c.2.1 = result at hok
    obtain ⟨ending, t⟩ := result
    cases ending with
    | returns value => rw [← Except.ok.inj hok]
    | returnsNone => rw [← Except.ok.inj hok]
    | raises error => rw [log_error_ok hok]
    | exits error => cases hok
  · right
    rw [log_error_ok hok]

/-- Where every hook is logged at most once, a loop over hooks logs a part of them, in their order. -/
theorem log_sublist {β ε : Type} {f : β → CatHook → Except ε β} (log : β → List CatHook)
    (hstep : ∀ b b' h, f b h = .ok b' → log b' = log b ++ [h] ∨ log b' = log b) {hooks : List CatHook} {b b' : β}
    (hok : hooks.foldlM f b = .ok b') : ∃ ran, ran.Sublist hooks ∧ log b' = log b ++ ran := by
  induction hooks generalizing b with
  | nil =>
    cases hok
    exact ⟨[], List.Sublist.refl _, (List.append_nil _).symm⟩
  | cons h hooks ih =>
    rw [List.foldlM_cons] at hok
    cases hfirst : f b h with
    | error e =>
      rw [hfirst] at hok
      cases hok
    | ok b'' =>
      rw [hfirst] at hok
      obtain ⟨ran, hran, hlog⟩ := ih hok
      rcases hstep b b'' h hfirst with hcalled | hskipped
      · refine ⟨h :: ran, hran.cons_cons h, ?_⟩
        rw [hlog, hcalled, List.append_assoc]
        rfl
      · exact ⟨ran, hran.cons h, by rw [hlog, hskipped]⟩

theorem execute_hook_log {hookName : String} {args : List V} {s t : σ} {result : Option V} {log : List CatHook}
    (hok : executeHookOn w calls.logged hookName args (s, []) = .ok (result, (t, log))) :
    ∃ hooks, w.caches.hooks.get? hookName = some hooks ∧ log.Sublist hooks := by
  unfold executeHookOn at hok
  cases hget : w.caches.hooks.get? hookName with
  | none =>
    rw [hget] at hok
    cases hok
  | some hooks =>
    rw [hget] at hok
    refine ⟨hooks, rfl, ?_⟩
    cases args with
    | nil =>
      dsimp only at hok
      cases hfold : hooks.foldlM (runHook w calls.logged) (s, []) with
      | error e =>
        rw [hfold] at hok
        cases hok
      | ok s' =>
        rw [hfold] at hok
        cases hok
        obtain ⟨ran, hran, hlog⟩ := log_sublist Prod.snd (fun _ _ _ h => Or.inl (run_hook_log h)) hfold
        change log = [] ++ ran at hlog
        rw [hlog]
        exact hran
    | cons teaCup rest =>
      dsimp only at hok
      split at hok
      · cases hfold : hooks.foldlM (pipeHook w calls.logged rest) (teaCup, s, []) with
        | error e =>
          rw [hfold] at hok
          cases hok
        | ok c =>
          obtain ⟨value, s', log'⟩ := c
          rw [hfold] at hok
          cases hok
          obtain ⟨ran, hran, hlog⟩ := log_sublist (fun c => c.2.2) (fun _ _ _ h => pipe_hook_log h) hfold
          change log = [] ++ ran at hlog
          rw [hlog]
          exact hran
      · cases hok

end

/-! ### Registration -/

section

variable {O : Type} [DecidableEq O] {member : O → Member} {w : World} {plugins : List (LoadedPlugin O)}

omit [DecidableEq O] in
theorem synced_nodup (hapart : Apart member plugins) (h : ∀ p ∈ plugins, p.BoundOnce member) (kind : Kind) :
    (synced member plugins kind).Nodup := by
  rw [synced, List.nodup_flatMap]
  exact ⟨fun p hp => p.bound_once_iff.mp (h p hp) kind, hapart.imp (fun hdisjoint => hdisjoint kind)⟩

omit [DecidableEq O] in
/-- The cached hooks of a name are those of objects that are listed. -/
theorem cached_hook_pairs (hcaches : w.caches = w.collect)
    (hactive : w.activeObjects = plugins.map (fun p => p.activated member)) {hookName : String}
    {hooks : List CatHook} (hget : w.caches.hooks.get? hookName = some hooks) :
    ∃ pairs : List (O × CatHook), hooks = pairs.map Prod.snd ∧
      pairs.Subperm (plugins.flatMap (fun p => p.hookPairs member)) := by
  have hperm := ((determined_of_collect hcaches).sorted hookName hooks hget).perm
  have hall : w.activeObjects.flatMap Plugin.hooks =
      (plugins.flatMap (fun p => p.hookPairs member)).map Prod.snd := by
    rw [hactive, List.flatMap_map, List.map_flatMap]
    congr 1
    funext p
    exact p.activated_hooks
  rw [hall, List.filter_map] at hperm
  obtain ⟨pairs, hhooks, hpairs⟩ := (congrFun (congrFun (List.eq_map_comp_perm _) hooks) _).mpr hperm
  exact ⟨pairs, hhooks, hpairs.subperm.trans List.filter_sublist.subperm⟩

omit [DecidableEq O] in
/-- The hooks that are called are those of objects that are listed, each at most once. -/
theorem called_once (hcaches : w.caches = w.collect)
    (hactive : w.activeObjects = plugins.map (fun p => p.activated member))
    (hnodup : (synced member plugins .hook).Nodup) {V σ : Type} {calls : HookCalls V σ} {hookName : String}
    {args : List V} {s t : σ} {result : Option V} {log : List CatHook}
    (hok : executeHookOn w calls.logged hookName args (s, []) = .ok (result, (t, log))) :
    ∃ run : List (O × CatHook), log = run.map Prod.snd ∧ (run.map Prod.fst).Nodup ∧
      ∀ x ∈ run, ∃ p ∈ plugins, hookOf member p x.1 = some x := by
  obtain ⟨hooks, hget, hlog⟩ := execute_hook_log hok
  obtain ⟨pairs, rfl, hpairs⟩ := cached_hook_pairs hcaches hactive hget
  obtain ⟨run, hrun, rfl⟩ := List.sublist_map_iff.mp hlog
  have hall := hrun.subperm.trans hpairs
  have hobjects : (plugins.flatMap (fun p => p.hookPairs member)).map Prod.fst = synced member plugins .hook := by
    rw [List.map_flatMap]
    congr 1
    funext p
    exact p.hook_objects
  refine ⟨run, rfl, ?_, ?_⟩
  · obtain ⟨l, hl, hsub⟩ := hall
    rw [← hobjects] at hnodup
    exact (hl.map Prod.fst).nodup_iff.mp (hnodup.sublist (hsub.map Prod.fst))
  · intro x hx
    obtain ⟨p, hp, hxp⟩ := List.mem_flatMap.mp (hall.subset hx)
    exact ⟨p, hp, LoadedPlugin.mem_hook_pairs hxp⟩

theorem once_iff (p : LoadedPlugin O) :
    (∀ names ∈ p.namespaces, ∀ (kind : Kind), ∀ o ∈ names.values, kind.decorates (member o) = true →
      (p.registered member kind).count o = 1) ↔ p.BoundOnce member := by
  rw [p.bound_once_iff]
  constructor
  · intro h kind
    rw [List.nodup_iff_count_eq_one]
    intro o ho
    obtain ⟨names, hnames, ho⟩ := List.mem_flatMap.mp ((p.registered_perm kind).mem_iff.mp ho)
    obtain ⟨⟨_, hget⟩, hkind⟩ := mem_values.mp ho
    exact h names hnames kind o (Dict.mem_values_of_get? hget) hkind
  · intro h names hnames kind o ho hkind
    obtain ⟨⟨name, _⟩, hentry, rfl⟩ := List.mem_map.mp ho
    apply List.nodup_iff_count_eq_one.mp (h kind)
    rw [(p.registered_perm kind).mem_iff]
    exact List.mem_flatMap.mpr ⟨names, hnames,
      mem_values.mpr ⟨⟨name, (Dict.get?_eq_some_iff _ _ _).mpr hentry⟩, hkind⟩⟩

/-- Every decorated object of the active plugins is registered once, listed at most once and called at
most once, exactly where no two names are bound to it. -/
theorem registered_once_iff (hcaches : w.caches = w.collect)
    (hactive : w.activeObjects = plugins.map (fun p => p.activated member)) (hapart : Apart member plugins) :
    RegisteredOnce member w plugins ↔ ∀ p ∈ plugins, p.BoundOnce member := by
  constructor
  · intro h p hp
    exact (once_iff p).mp (h.once p hp)
  · intro h
    exact ⟨fun p hp => (once_iff p).mpr (h p hp), synced_nodup hapart h,
      fun _ _ _ _ _ _ _ => called_once hcaches hactive (synced_nodup hapart h .hook)⟩

end

/-- One hook, and objects that are not decorated. -/
def shoutMember : Nat → Member
  | 0 => .hook ⟨"agent_prompt_prefix", "shout", 1, ""⟩
  | _ => .other

def shoutPlugin (namespaces : List (List (String × Nat))) : LoadedPlugin Nat :=
  ⟨{ path := .plugin "zoo" zoo_named, pyFiles := ["shout.py", "use.py"] }, namespaces.map Dict.ofList⟩

def shoutWorld (p : LoadedPlugin Nat) : World :=
  let w : World :=
    { plugins := Dict.ofList [("zoo", p.activated shoutMember)], activePlugins := ["zoo"], disk := .empty,
      routes := [] }
  { w with caches := w.collect }

theorem shout_registered_once :
    RegisteredOnce shoutMember (shoutWorld (shoutPlugin [[("shout", 0)], [("helper", 1)]]))
      [shoutPlugin [[("shout", 0)], [("helper", 1)]]] :=
  (registered_once_iff rfl (by decide) (List.pairwise_singleton _ _)).mpr (fun p hp => by
    rw [List.mem_singleton.mp hp, LoadedPlugin.bound_once_iff]
    intro kind
    cases kind <;> decide)

/-- A hook puts a mark behind the prefix. -/
def shoutCalls : HookCalls String Unit where
  pluginId := CatHook.pluginId
  copiable _ := true
  function _ args s := (.returns (args.headD "" ++ "!"), s)

/-- The second module imports the hook of the first: it is registered twice and marks the prefix twice. -/
theorem imported_hook_doubled :
    ((shoutPlugin [[("shout", 0)], [("shout", 0)]]).registered shoutMember .hook).count 0 = 2 ∧
    (executeHookOn (shoutWorld (shoutPlugin [[("shout", 0)], [("shout", 0)]])) shoutCalls
      "agent_prompt_prefix" ["hi"] ()).toOption = some (some "hi!!", ()) ∧
    ¬ RegisteredOnce shoutMember (shoutWorld (shoutPlugin [[("shout", 0)], [("shout", 0)]]))
      [shoutPlugin [[("shout", 0)], [("shout", 0)]]] := by
  have htwice : ((shoutPlugin [[("shout", 0)], [("shout", 0)]]).registered shoutMember .hook).count 0 = 2 := by
    decide
  refine ⟨htwice, by decide, ?_⟩
  intro h
  have honce := h.once _ (List.mem_singleton_self _) (Dict.ofList [("shout", 0)]) (List.mem_cons_self ..) .hook 0
    (List.mem_singleton_self _) rfl
  rw [htwice] at honce
  cases honce

end CheshireCat.MadHatter
