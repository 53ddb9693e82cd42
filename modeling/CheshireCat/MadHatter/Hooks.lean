import CheshireCat.MadHatter.Caches

namespace CheshireCat.MadHatter
open Base

/-- How a call of a hook ends. It exits with what is raised and is no `Exception`, as
`SystemExit`. -/
inductive HookEnd (V : Type) where
  | returns (value : V)
  | returnsNone
  | raises (error : String)
  | exits (error : String)
deriving DecidableEq

/-- The functions of the hooks, over what they read and write beside their arguments, the `plugin_id`
that their objects have, which plugins that share an object set one after the other, and the values that
`deepcopy` copies. -/
structure HookCalls (V σ : Type) where
  pluginId : CatHook → String
  copiable : V → Bool
  function : CatHook → List V → σ → HookEnd V × σ

inductive ExecuteError where
  | notPresent (hookName : String)
  | keyError (pluginId : String)
  | notCopied
  | exited (error : String)
deriving DecidableEq

section Execute

variable {V σ : Type}

/-- The handler looks up the plugin of the hook for its message. -/
def logError {α : Type} (w : World) (calls : HookCalls V σ) (h : CatHook) (rest : α) :
    Except ExecuteError α :=
  if calls.pluginId h ∈ w.plugins.keys then .ok rest else .error (.keyError (calls.pluginId h))

/-- A hook without arguments. -/
def runHook (w : World) (calls : HookCalls V σ) (s : σ) (h : CatHook) : Except ExecuteError σ :=
  match calls.function h [] s with
  | (.returns _, t) => .ok t
  | (.returnsNone, t) => .ok t
  | (.raises _, t) => logError w calls h t
  | (.exits error, _) => .error (.exited error)

/-- A hook of the pipe. Its arguments are copied inside the `try`. -/
def pipeHook (w : World) (calls : HookCalls V σ) (rest : List V) (c : V × σ) (h : CatHook) :
    Except ExecuteError (V × σ) :=
  if calls.copiable c.1 && rest.all calls.copiable then
    match calls.function h (c.1 :: rest) c.2 with
    | (.returns teaSpoon, t) => .ok (teaSpoon, t)
    | (.returnsNone, t) => .ok (c.1, t)
    | (.raises _, t) => logError w calls h (c.1, t)
    | (.exits error, _) => .error (.exited error)
  else logError w calls h c

/-- `execute_hook` with all its arguments. -/
def executeHookOn (w : World) (calls : HookCalls V σ) (hookName : String) (args : List V) (s : σ) :
    Except ExecuteError (Option V × σ) :=
  match w.caches.hooks.get? hookName with
  | none => .error (.notPresent hookName)
  | some hooks =>
    match args with
    | [] => (hooks.foldlM (runHook w calls) s).map (fun t => (none, t))
    | teaCup :: rest =>
      if calls.copiable teaCup then
        (hooks.foldlM (pipeHook w calls rest) (teaCup, s)).map (fun c => (some c.1, c.2))
      else .error .notCopied

/-! ### The pipe -/

/-- What a hook leaves of the piped value. -/
def HookCalls.pour (calls : HookCalls V σ) (rest : List V) (c : V × σ) (h : CatHook) : V × σ :=
  if calls.copiable c.1 && rest.all calls.copiable then
    match calls.function h (c.1 :: rest) c.2 with
    | (.returns teaSpoon, t) => (teaSpoon, t)
    | (_, t) => (c.1, t)
  else c

/-- The hooks raise nothing but `Exception`s. -/
def HookCalls.NeverExit (calls : HookCalls V σ) : Prop :=
  ∀ h args s error, (calls.function h args s).1 ≠ .exits error

/-- The object of a hook has the id of its plugin, or of one that imports it and is still there. -/
def HookCalls.SharersLoaded (calls : HookCalls V σ) (w : World) (hooks : List CatHook) : Prop :=
  ∀ h ∈ hooks, calls.pluginId h = h.pluginId ∨ calls.pluginId h ∈ w.plugins.keys

variable {w : World} {calls : HookCalls V σ} {h : CatHook} {hooks : List CatHook}

theorem log_error_loaded {α : Type} (hloaded : calls.pluginId h ∈ w.plugins.keys) (rest : α) :
    logError w calls h rest = .ok rest :=
  if_pos hloaded

theorem run_hook_loaded (hexits : calls.NeverExit) (hloaded : calls.pluginId h ∈ w.plugins.keys) (s : σ) :
    runHook w calls s h = .ok (calls.function h [] s).2 := by
  have hno := hexits h [] s
  unfold runHook
  split
  · rename_i hcall
    rw [hcall]
  · rename_i hcall
    rw [hcall]
  · rename_i hcall
    rw [hcall]
    exact log_error_loaded hloaded _
  · rename_i error t hcall
    rw [hcall] at hno
    exact absurd rfl (hno error)

theorem pipe_hook_loaded (hexits : calls.NeverExit) (hloaded : calls.pluginId h ∈ w.plugins.keys)
    (rest : List V) (c : V × σ) : pipeHook w calls rest c h = .ok (calls.pour rest c h) := by
  have hno := hexits h (c.1 :: rest) c.2
  unfold pipeHook HookCalls.pour
  split
  · generalize calls.function h (c.1 :: rest) c.2 = result at hno ⊢
    obtain ⟨ending, t⟩ := result
    cases ending with
    | returns teaSpoon => rfl
    | returnsNone => rfl
    | raises error => exact log_error_loaded hloaded _
    | exits error => exact absurd rfl (hno error)
  · exact log_error_loaded hloaded c

theorem foldlM_of_ok {α β ε : Type} {f : β → α → Except ε β} {g : β → α → β} {l : List α}
    (h : ∀ a ∈ l, ∀ b, f b a = .ok (g b a)) (b : β) : l.foldlM f b = .ok (l.foldl g b) := by
  induction l generalizing b with
  | nil => rfl
  | cons a l ih =>
    rw [List.foldlM_cons, h a List.mem_cons_self, List.foldl_cons]
    exact ih (fun a' ha' => h a' (List.mem_cons_of_mem a ha')) _

/-- Every cached hook is of a plugin that is loaded. -/
theorem Consistent.hook_loaded (hw : Consistent w) {hookName : String}
    (hget : w.caches.hooks.get? hookName = some hooks) (hh : h ∈ hooks) :
    h.pluginId ∈ w.plugins.keys := by
  have hdetermined := determined_of_collect hw.2
  have hmem := (hdetermined.sorted hookName hooks hget).perm.mem_iff.mp hh
  obtain ⟨p, hp, hhook⟩ := List.mem_flatMap.mp (List.mem_filter.mp hmem).1
  obtain ⟨hplugin, _⟩ := (active_object_iff hw.1.toKeyed p).mp hp
  obtain ⟨modules, _, hhooks⟩ := (hw.1 p.id p hplugin).ordered
  rw [hhooks] at hhook
  obtain ⟨k, _, rfl⟩ := List.mem_map.mp hhook
  exact (Dict.mem_keys_iff _ _).mpr ⟨p, hplugin⟩

/-! ### Hooks of one argument -/

def HookError.executeError : HookError → ExecuteError
  | .notPresent hookName => .notPresent hookName
  | .keyError pluginId => .keyError pluginId

/-- Hooks that read and write nothing beside a value that can be copied, with objects of their own. -/
def plainCalls (call : CatHook → Option V → Except String (Option V)) : HookCalls V Unit where
  pluginId := CatHook.pluginId
  copiable _ := true
  function h args _ := (match call h args.head? with
    | .ok (some teaSpoon) => .returns teaSpoon
    | .ok none => .returnsNone
    | .error error => .raises error, ())

theorem run_hook_plain (call : CatHook → Option V → Except String (Option V)) (h : CatHook) :
    runHook w (plainCalls call) () h =
      ((pourTea w call false none h).mapError HookError.executeError).map (fun _ => ()) := by
  simp only [runHook, plainCalls, pourTea, logError, List.head?_nil]
  rcases call h none with error | _ | teaSpoon
  · by_cases hloaded : h.pluginId ∈ w.plugins.keys
    · simp only [hloaded, if_true]
      rfl
    · simp only [hloaded, if_false]
      rfl
  · rfl
  · rfl

theorem pour_tea_none {call : CatHook → Option V → Except String (Option V)} {c : Option V}
    (hc : pourTea w call false none h = .ok c) : c = none := by
  unfold pourTea at hc
  split at hc
  · exact (Except.ok.inj hc).symm
  · exact (Except.ok.inj hc).symm
  · split at hc
    · exact (Except.ok.inj hc).symm
    · cases hc

theorem pipe_hook_plain (call : CatHook → Option V → Except String (Option V)) (teaCup : V)
    (h : CatHook) :
    (pipeHook w (plainCalls call) [] (teaCup, ()) h).map (fun c => some c.1) =
      (pourTea w call true (some teaCup) h).mapError HookError.executeError := by
  simp only [pipeHook, plainCalls, pourTea, logError, List.head?_cons, List.all_nil, Bool.and_self,
    if_true]
  rcases call h (some teaCup) with error | _ | teaSpoon
  · by_cases hloaded : h.pluginId ∈ w.plugins.keys
    · simp only [hloaded, if_true]
      rfl
    · simp only [hloaded, if_false]
      rfl
  · rfl
  · rfl

/-- The call with one argument or none, as it is used for hooks of that kind. -/
theorem execute_hook_plain (w : World) (call : CatHook → Option V → Except String (Option V))
    (hookName : String) (teaCup : Option V) :
    (executeHookOn w (plainCalls call) hookName teaCup.toList ()).map Prod.fst =
      (executeHook w call hookName teaCup).mapError HookError.executeError := by
  unfold executeHookOn executeHook
  cases w.caches.hooks.get? hookName with
  | none => rfl
  | some hooks =>
    cases teaCup with
    | none =>
      induction hooks with
      | nil => rfl
      | cons h hooks ih =>
        simp only [Option.toList_none, List.foldlM_cons, Option.isSome_none] at ih ⊢
        rw [run_hook_plain]
        cases hc : pourTea w call false none h with
        | error error => rfl
        | ok c =>
          rw [pour_tea_none hc]
          exact ih
    | some teaCup =>
      induction hooks generalizing teaCup with
      | nil => rfl
      | cons h hooks ih =>
        have hone := pipe_hook_plain (w := w) call teaCup h
        simp only [Option.toList_some, List.foldlM_cons, Option.isSome_some] at ih ⊢
        cases hp : pipeHook w (plainCalls call) [] (teaCup, ()) h with
        | error error =>
          cases hc : pourTea w call true (some teaCup) h with
          | error e =>
            rw [hp, hc] at hone
            exact congrArg Except.error (Except.error.inj hone)
          | ok c =>
            rw [hp, hc] at hone
            cases hone
        | ok c =>
          cases hc : pourTea w call true (some teaCup) h with
          | error e =>
            rw [hp, hc] at hone
            cases hone
          | ok cup =>
            rw [hp, hc] at hone
            have hcup : some c.1 = cup := Except.ok.inj hone
            subst hcup
            exact ih c.1

end Execute

/-- The MadHatter is created, also without the callback that the Cat sets later. -/
def Started (env : Env) (boot v : World) : Prop :=
  findPlugins env boot = .returned v ∨ startUp env boot = .returned v

/-- In every state reached by operations that return, a hook that is cached runs as a fold over
the sorted hooks, and raises only where its first argument cannot be copied, if no plugin that shares
one of the hooks is gone. -/
theorem hook_executed (env : Env) (stored : Option (List String))
    (disk : Dict FolderPath PluginFolder) (routes : List Route) (events : List Event) (v w : World)
    (hstart : Started env (World.boot stored disk routes) v)
    (hrun : run (completed env) v events = some w) {hookName : String} {hooks : List CatHook}
    (hget : w.caches.hooks.get? hookName = some hooks) {V σ : Type} {calls : HookCalls V σ}
    (hexits : calls.NeverExit) (hshared : calls.SharersLoaded w hooks) (s : σ) :
    SortedByKey CatHook.priority
      ((w.activeObjects.flatMap Plugin.hooks).filter (fun h => h.name = hookName)) hooks ∧
    executeHookOn w calls hookName [] s =
      .ok (none, hooks.foldl (fun t h => (calls.function h [] t).2) s) ∧
    ∀ teaCup rest, executeHookOn w calls hookName (teaCup :: rest) s =
      if calls.copiable teaCup then
        let c := hooks.foldl (calls.pour rest) (teaCup, s)
        .ok (some c.1, c.2)
      else .error .notCopied := by
  have hv : Consistent v := by
    rcases hstart with hfind | hstart
    · exact (find_plugins_consistent env _).of_returned hfind
    · exact (start_up_consistent env _).of_returned hstart
  have hw : Consistent w := run_keeps (completed_consistent env) hv hrun
  have hloaded : ∀ h ∈ hooks, calls.pluginId h ∈ w.plugins.keys := by
    intro h hh
    rcases hshared h hh with hown | hsharer
    · exact hown ▸ hw.hook_loaded hget hh
    · exact hsharer
  refine ⟨(determined_of_collect hw.2).sorted hookName hooks hget, ?_, ?_⟩
  · have hfold := foldlM_of_ok (fun h hh t => run_hook_loaded hexits (hloaded h hh) t) s
    simp only [executeHookOn, hget, hfold]
    rfl
  · intro teaCup rest
    have hfold := foldlM_of_ok (fun h hh c => pipe_hook_loaded hexits (hloaded h hh) rest c)
      (teaCup, s)
    simp only [executeHookOn, hget, hfold]
    rfl

/-- A pipe of texts, where `none` is an open file. Every hook adds its function's name. -/
def signCup : HookCalls (Option String) (List String) where
  pluginId := CatHook.pluginId
  copiable := Option.isSome
  function h args s := (match args with
    | some text :: _ => .returns (some (text ++ " " ++ h.function))
    | _ => .returnsNone, s ++ [h.function])

/-- A hook that ends the process. -/
def exitCup : HookCalls (Option String) (List String) where
  pluginId := CatHook.pluginId
  copiable := Option.isSome
  function _ _ s := (.exits "SystemExit", s)

/-- Hooks that raise, with objects that a plugin which is not loaded has imported. -/
def spillCup : HookCalls (Option String) (List String) where
  pluginId _ := "bee"
  copiable := Option.isSome
  function _ _ s := (.raises "ValueError", s)

theorem sign_cup_never_exits : signCup.NeverExit := by
  intro h args s error
  unfold signCup
  simp only
  split <;> exact nofun

theorem hook_executed_zoo :
    ∃ v, startUp Env.ascii (World.boot (some ["zoo"]) zooDisk []) = .returned v ∧
      executeHookOn v signCup "agent_prompt_prefix" [some "tea"] [] =
        .ok (some (some "tea ant zebra core"), ["ant", "zebra", "core"]) := by
  let v := (startUp Env.ascii (World.boot (some ["zoo"]) zooDisk [])).state
  have hv : startUp Env.ascii (World.boot (some ["zoo"]) zooDisk []) = .returned v :=
    Outcome.eq_returned_of_returns (by decide)
  have hhooks : v.caches.hooks.get? "agent_prompt_prefix" =
      some [⟨"agent_prompt_prefix", "ant", 1, "zoo"⟩, ⟨"agent_prompt_prefix", "zebra", 1, "zoo"⟩,
        ⟨"agent_prompt_prefix", "core", 0, "core_plugin"⟩] := by decide
  have hall := hook_executed Env.ascii (some ["zoo"]) zooDisk [] [] v v (Or.inr hv) rfl hhooks
    sign_cup_never_exits (fun _ _ => Or.inl rfl) []
  exact ⟨v, hv, hall.2.2 (some "tea") []⟩

/-- An open file as the first argument makes the call raise, as another argument it keeps the
hooks from being called, and a hook that exits is not caught. A hook that raises makes the call raise where
a plugin that imported it is gone. -/
theorem open_file_raises :
    ∃ v, startUp Env.ascii (World.boot (some ["zoo"]) zooDisk []) = .returned v ∧
      executeHookOn v signCup "agent_prompt_prefix" [none] [] = .error .notCopied ∧
      executeHookOn v signCup "agent_prompt_prefix" [some "tea", none] [] = .ok (some (some "tea"), []) ∧
      executeHookOn v exitCup "agent_prompt_prefix" [some "tea"] [] = .error (.exited "SystemExit") ∧
      executeHookOn v spillCup "agent_prompt_prefix" [some "tea"] [] = .error (.keyError "bee") := by
  refine ⟨_, Outcome.eq_returned_of_returns (by decide), ?_, ?_, ?_, ?_⟩
  · decide
  · decide
  · decide
  · decide

end CheshireCat.MadHatter
