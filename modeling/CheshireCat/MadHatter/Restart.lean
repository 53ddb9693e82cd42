import CheshireCat.MadHatter.Caches

namespace CheshireCat.MadHatter
open Base

/-- Apart from the core plugin, the plugins listed in memory are the stored ones. Neither
list has a plugin twice. -/
structure Saved (w : World) : Prop where
  nodup : w.activePlugins.Nodup
  storedNodup : (w.stored.getD []).Nodup
  same : ∀ id, id ≠ "core_plugin" → (id ∈ w.activePlugins ↔ id ∈ w.stored.getD [])

theorem Saved.congr {w t : World} (h : Saved w) (hlist : t.activePlugins = w.activePlugins)
    (hstored : t.stored = w.stored) : Saved t := by
  refine ⟨?_, ?_, ?_⟩
  · rw [hlist]
    exact h.nodup
  · rw [hstored]
    exact h.storedNodup
  · rw [hlist, hstored]
    exact h.same

theorem Saved.frame {p : Plugin} {w t : World} (h : Saved w) (hf : Frame p w t) : Saved t :=
  h.congr hf.activePlugins hf.stored

/-- Whatever is listed is stored, in the order of a set. -/
theorem saved_listed (env : Env) (w : World) {ids : List String} (h : ids.Nodup) :
    Saved (w.listed env ids) :=
  ⟨h, env.nodup ids, fun id _ => (env.mem ids id).symm⟩

theorem Saved.switched {env : Env} {p : Plugin} {id : String} {w v : World} (h : Saved w)
    (hs : Switched env p id w v) : Saved v := by
  cases hs with
  | off u _ _ => exact saved_listed env u (h.nodup.erase id)
  | on u hun _ =>
    apply saved_listed env u
    exact List.nodup_append.mpr ⟨h.nodup, List.nodup_singleton id, by
      intro a ha b hb hab
      rw [List.mem_singleton.mp hb] at hab
      exact hun (hab ▸ ha)⟩

theorem mem_load_active (w : World) {id : String} (hid : id ≠ "core_plugin") :
    id ∈ loadActivePluginsFromDb w ↔ id ∈ w.stored.getD [] := by
  rw [mem_load_active_iff, or_iff_left hid]

theorem Saved.relisted {w : World} (h : Saved w) : Saved w.relisted := by
  refine ⟨?_, h.storedNodup, fun id hid => mem_load_active w hid⟩
  change (loadActivePluginsFromDb w).Nodup
  unfold loadActivePluginsFromDb
  simp only
  split
  · exact h.storedNodup
  · rename_i hcore
    exact List.nodup_append.mpr ⟨h.storedNodup, List.nodup_singleton _, by
      intro a ha b hb hab
      rw [List.mem_singleton.mp hb] at hab
      exact hcore (hab ▸ ha)⟩

theorem Saved.loadPlugin {w : World} (h : Saved w) (path : FolderPath) :
    Saved (w.loadPlugin path) := by
  unfold World.loadPlugin
  split
  · exact h.congr rfl rfl
  · exact h

theorem saved_lasting (env : Env) : Lasting env Saved where
  congr := fun h _ => h.congr
  relisted := Saved.relisted
  loadPlugin := Saved.loadPlugin
  erase := fun h _ => h.congr rfl rfl
  frame := Saved.frame
  switched := Saved.switched

/-- From a store without the setting, after any operations that return or raise: no plugin
is listed twice, and a restart lists the same plugins, with the core plugin. -/
theorem activation_survives_restart (env : Env) (disk : Dict FolderPath PluginFolder)
    (routes : List Route) (events : List Event) (v w : World)
    (hv : v = World.boot none disk routes ∨ v = (startUp env (World.boot none disk routes)).state)
    (hrun : run (attempted env) v events = some w) :
    w.activePlugins.Nodup ∧ ∀ id, id ≠ "core_plugin" →
      (id ∈ w.activePlugins ↔ id ∈ loadActivePluginsFromDb w) := by
  have hboot : Saved (World.boot none disk routes) :=
    ⟨List.nodup_nil, List.nodup_nil, fun _ _ => Iff.rfl⟩
  have hstart : Saved v := by
    rcases hv with rfl | rfl
    · exact hboot
    · exact ((saved_lasting env).startUp hboot.relisted).state
  have hw : Saved w := run_keeps (saved_lasting env).attempted hstart hrun
  exact ⟨hw.nodup, fun id hid => (hw.same id hid).trans (mem_load_active w hid).symm⟩

/-- The zoo is switched on while the embedder fails. -/
theorem activation_survives_restart_zoo :
    ∃ w, run (attempted Env.ascii) (startUp Env.ascii (World.boot none zooDisk [])).state
        [.embedder (some "ConnectionError"), .operation (.togglePlugin "zoo")] = some w ∧
      "zoo" ∈ w.activePlugins ∧ "zoo" ∈ loadActivePluginsFromDb w := by
  have hrun : (run (attempted Env.ascii) (startUp Env.ascii (World.boot none zooDisk [])).state
      [.embedder (some "ConnectionError"), .operation (.togglePlugin "zoo")]).map
        (fun w => decide ("zoo" ∈ w.activePlugins)) = some true := by decide +kernel
  obtain ⟨w, hw, hlisted⟩ := Option.map_eq_some_iff.mp hrun
  have hzoo : "zoo" ∈ w.activePlugins := of_decide_eq_true hlisted
  have hkept := activation_survives_restart Env.ascii zooDisk [] _ _ w (Or.inr rfl) hw
  exact ⟨w, hw, hzoo, (hkept.2 "zoo" (by decide)).mp hzoo⟩

end CheshireCat.MadHatter
