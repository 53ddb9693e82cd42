import CheshireCat.Procedures.Convergence

namespace CheshireCat.Procedures
open Base MadHatter

variable {ν τ : Type}

def activeTriggers (procedures : List Procedure) : List Trigger := procedures.flatMap triggers

/-- The name, the trigger type and the content. -/
def Trigger.triple (t : Trigger) : String × String × String := (t.source, t.triggerType, t.content)

def Point.Carries (p : Point ν τ) (t : Trigger) : Prop :=
  p.source = t.source ∧ p.triggerType = some t.triggerType ∧ p.pageContent = t.content

instance (p : Point ν τ) (t : Trigger) : Decidable (p.Carries t) :=
  inferInstanceAs (Decidable (_ ∧ _))

/-- What stands between the dots of a name, a trigger type and a content. -/
def dotted (source triggerType content : String) : List (List Char) :=
  source.toList.splitOn '.' ++ triggerType.toList.splitOn '.' ++ content.toList.splitOn '.'

def Trigger.dotted (t : Trigger) : List (List Char) :=
  Procedures.dotted t.source t.triggerType t.content

def Point.dotted (p : Point ν τ) : List (List Char) :=
  Procedures.dotted p.source (p.triggerType.getD "unsupported") p.pageContent

/-- What the keys are for, at a run of `embed_procedures`. -/
structure Unambiguous (env : Env ν τ) (c : Collection ν τ) (procedures : List Procedure) : Prop where
  oneEntry : ∀ t ∈ activeTriggers procedures, ∃! k,
    ∃ t', (buildActiveProceduresHashes procedures).get? k = some t' ∧ t'.triple = t.triple
  sameKey : ∀ t ∈ activeTriggers procedures, ∀ e ∈ env.scroll c, t.key = e.2.key ↔ e.2.Carries t
  embedded : ∀ t ∈ activeTriggers procedures,
    ∃ e ∈ (embedProcedures env c procedures).entries, e.2.Carries t
  kept : ∀ e ∈ env.scroll c, e.1 ∈ deletedIds env c procedures →
    ∀ t ∈ activeTriggers procedures, ¬ e.2.Carries t

/-- The active triggers, and an active one and a point that is read, are told apart
by what stands between their dots. -/
structure Separated (env : Env ν τ) (c : Collection ν τ) (procedures : List Procedure) : Prop where
  active : ∀ t ∈ activeTriggers procedures, ∀ t' ∈ activeTriggers procedures,
    t.dotted = t'.dotted → t.triple = t'.triple
  stored : ∀ t ∈ activeTriggers procedures, ∀ e ∈ env.scroll c, t.dotted = e.2.dotted → e.2.Carries t

/-! ### Keys -/

theorem hash_toList (source triggerType content : String) :
    (hash source triggerType content).toList =
      source.toList ++ '.' :: (triggerType.toList ++ '.' :: content.toList) := by
  simp [hash]

theorem hash_splitOn (source triggerType content : String) :
    (hash source triggerType content).toList.splitOn '.' = dotted source triggerType content := by
  simp [hash_toList, dotted, List.splitOn_append_cons_self]

/-- Two keys are one exactly when the same stands between the dots. -/
theorem hash_eq_iff (source triggerType content source' triggerType' content' : String) :
    hash source triggerType content = hash source' triggerType' content' ↔
      dotted source triggerType content = dotted source' triggerType' content' := by
  constructor
  · intro h
    rw [← hash_splitOn, ← hash_splitOn, h]
  · intro h
    have hsplit : (hash source triggerType content).toList.splitOn '.' =
        (hash source' triggerType' content').toList.splitOn '.' := by
      rw [hash_splitOn, hash_splitOn, h]
    have hjoined := congrArg (fun parts => ['.'].intercalate parts) hsplit
    simpa [List.intercalate_splitOn, String.toList_inj] using hjoined

theorem Trigger.key_eq_iff (t t' : Trigger) : t.key = t'.key ↔ t.dotted = t'.dotted :=
  hash_eq_iff _ _ _ _ _ _

theorem Trigger.point_key_iff (t : Trigger) (p : Point ν τ) : t.key = p.key ↔ t.dotted = p.dotted :=
  hash_eq_iff _ _ _ _ _ _

theorem Trigger.key_of_triple {t t' : Trigger} (h : t.triple = t'.triple) : t.key = t'.key := by
  simp_all [Trigger.triple, Trigger.key]

theorem Point.Carries.key_eq {p : Point ν τ} {t : Trigger} (h : p.Carries t) : t.key = p.key := by
  obtain ⟨hsource, htype, hcontent⟩ := h
  simp [Trigger.key, Point.key, hsource, htype, hcontent]

theorem Point.Carries.of_triple {p : Point ν τ} {t t' : Trigger} (h : p.Carries t)
    (ht : t.triple = t'.triple) : p.Carries t' := by
  simp_all [Point.Carries, Trigger.triple]

/-! ### A run -/

theorem active_key {procedures : List Procedure} {t : Trigger} (h : t ∈ activeTriggers procedures) :
    t.key ∈ activeKeys procedures :=
  (Dict.mem_keys_foldl_set Trigger.key id (activeTriggers procedures) .empty t.key).mpr
    (Or.inl ⟨t, h, rfl⟩)

theorem active_entry {procedures : List Procedure} {k : String} {t : Trigger}
    (h : (buildActiveProceduresHashes procedures).get? k = some t) :
    t ∈ activeTriggers procedures ∧ t.key = k := by
  rcases Dict.get?_foldl_set Trigger.key id h with ⟨b, hb, hk, rfl⟩ | hnone
  · exact ⟨hb, hk⟩
  · cases hnone

/-- Added triggers are carried by points from then on. -/
theorem added_carried (env : Env ν τ) {ts : List Trigger} {t : Trigger} (h : t ∈ ts)
    (c : Collection ν τ) :
    ∃ e ∈ ((ts.map PointOperation.addPoint).foldl (execute env) c).entries, e.2.Carries t := by
  induction ts generalizing c with
  | nil => simp at h
  | cons t₀ ts ih =>
    rcases List.mem_cons.mp h with rfl | htail
    · let p : Point ν τ :=
        ⟨env.embed t.content, t.content, t.source, t.type, some t.triggerType, env.time c⟩
      obtain ⟨added, hentries, _⟩ := add_points env ts (c.set (env.uuid c) p)
      refine ⟨(env.uuid c, p), ?_, rfl, rfl, rfl⟩
      change _ ∈ ((ts.map PointOperation.addPoint).foldl (execute env) (c.set (env.uuid c) p)).entries
      rw [hentries, Dict.entries_set_new c p (env.fresh c)]
      simp
    · exact ih htail _

theorem new_carried {env : Env ν τ} {c : Collection ν τ} {procedures : List Procedure} {t : Trigger}
    (h : t ∈ newTriggers env c procedures) :
    ∃ e ∈ (embedProcedures env c procedures).entries, e.2.Carries t := by
  rw [embedProcedures, plan_eq, List.foldl_append]
  exact added_carried env h _

theorem kept_entry {env : Env ν τ} {c : Collection ν τ} {procedures : List Procedure}
    {e : String × Point ν τ} (he : e ∈ env.scroll c) (hk : e.2.key ∈ activeKeys procedures) :
    e ∈ (embedProcedures env c procedures).entries := by
  obtain ⟨added, hentries, _⟩ := embed_entries env c procedures
  have hnot : e.1 ∉ deletedIds env c procedures :=
    fun hdel => (deleted_inactive (page_mem he) hdel).2.1 hk
  simp [hentries, page_mem he, hnot]

theorem Separated.embedded {env : Env ν τ} {c : Collection ν τ} {procedures : List Procedure}
    (h : Separated env c procedures) {t : Trigger} (ht : t ∈ activeTriggers procedures) :
    ∃ e ∈ (embedProcedures env c procedures).entries, e.2.Carries t := by
  have hactive := active_key ht
  by_cases hstored : ∃ e ∈ env.scroll c, e.2.key = t.key
  · obtain ⟨e, he, hkey⟩ := hstored
    refine ⟨e, kept_entry he (hkey ▸ hactive), ?_⟩
    exact h.stored t ht e he ((t.point_key_iff e.2).mp hkey.symm)
  · -- the key is new, and the dictionary leads from it to a trigger of the same triple
    have hnew : t.key ∈ embeddedKeys env c procedures :=
      (mem_embedded env c procedures t.key).mpr ⟨hactive, by simpa using hstored⟩
    obtain ⟨t', hget, _⟩ := active_trigger hactive
    obtain ⟨ht', hkey⟩ := active_entry hget
    obtain ⟨e, he, hcarries⟩ := new_carried (List.mem_filterMap.mpr ⟨t.key, hnew, hget⟩)
    exact ⟨e, he, hcarries.of_triple (h.active t' ht' t ht ((t'.key_eq_iff t).mp hkey))⟩

/-- The keys are unambiguous exactly when the dots tell the triggers apart. -/
theorem unambiguous_iff (env : Env ν τ) (c : Collection ν τ) (procedures : List Procedure) :
    Unambiguous env c procedures ↔ Separated env c procedures := by
  constructor
  · intro h
    refine ⟨?_, fun t ht e he hdots => (h.sameKey t ht e he).mp ((t.point_key_iff e.2).mpr hdots)⟩
    intro t ht t' ht' hdots
    obtain ⟨k, ⟨a, ha, htriple⟩, _⟩ := h.oneEntry t ht
    obtain ⟨k', ⟨a', ha', htriple'⟩, _⟩ := h.oneEntry t' ht'
    have hkeys : k = k' :=
      calc k = a.key := (active_entry ha).2.symm
        _ = t.key := Trigger.key_of_triple htriple
        _ = t'.key := (t.key_eq_iff t').mpr hdots
        _ = a'.key := (Trigger.key_of_triple htriple').symm
        _ = k' := (active_entry ha').2
    have hsame : a = a' := Option.some.inj (ha.symm.trans (hkeys ▸ ha'))
    exact htriple.symm.trans ((congrArg Trigger.triple hsame).trans htriple')
  · intro h
    constructor
    · intro t ht
      obtain ⟨t', hget, _⟩ := active_trigger (active_key ht)
      obtain ⟨ht', hkey⟩ := active_entry hget
      refine ⟨t.key, ⟨t', hget, h.active t' ht' t ht ((t'.key_eq_iff t).mp hkey)⟩, ?_⟩
      intro k hk
      obtain ⟨a, ha, htriple⟩ := hk
      exact (active_entry ha).2.symm.trans (Trigger.key_of_triple htriple)
    · intro t ht e he
      refine ⟨fun hkey => h.stored t ht e he ((t.point_key_iff e.2).mp hkey), ?_⟩
      exact Point.Carries.key_eq
    · intro t ht
      exact h.embedded ht
    · intro e he hdel t ht hcarries
      have hkey : e.2.key ∈ activeKeys procedures := hcarries.key_eq ▸ active_key ht
      exact (deleted_inactive (page_mem he) hdel).2.1 hkey

/-- Names and trigger types without a dot keep the fields apart. -/
theorem dotted_plain {source triggerType content source' triggerType' content' : String}
    (hsource : '.' ∉ source.toList) (htype : '.' ∉ triggerType.toList)
    (hsource' : '.' ∉ source'.toList) (htype' : '.' ∉ triggerType'.toList)
    (h : dotted source triggerType content = dotted source' triggerType' content') :
    source = source' ∧ triggerType = triggerType' ∧ content = content' := by
  simp only [dotted, List.splitOn_eq_singleton hsource, List.splitOn_eq_singleton htype,
    List.splitOn_eq_singleton hsource', List.splitOn_eq_singleton htype', List.cons_append,
    List.nil_append, List.cons.injEq, String.toList_inj] at h
  have hcontent := congrArg (fun parts => ['.'].intercalate parts) h.2.2
  simp only [List.intercalate_splitOn, String.toList_inj] at hcontent
  exact ⟨h.1, h.2.1, hcontent⟩

/-- Tools named as Python functions are, with the trigger types of the code, are told apart. -/
theorem separated_of_plain {env : Env ν τ} {c : Collection ν τ} {procedures : List Procedure}
    (hactive : ∀ t ∈ activeTriggers procedures, '.' ∉ t.source.toList ∧ '.' ∉ t.triggerType.toList)
    (hstored : ∀ e ∈ env.scroll c, '.' ∉ e.2.source.toList ∧
      ∃ triggerType, e.2.triggerType = some triggerType ∧ '.' ∉ triggerType.toList) :
    Separated env c procedures := by
  constructor
  · intro t ht t' ht' hdots
    obtain ⟨hsource, htype, hcontent⟩ :=
      dotted_plain (hactive t ht).1 (hactive t ht).2 (hactive t' ht').1 (hactive t' ht').2 hdots
    simp [Trigger.triple, hsource, htype, hcontent]
  · intro t ht e he hdots
    obtain ⟨hplain, triggerType, hsome, hdot⟩ := hstored e he
    simp only [Trigger.dotted, Point.dotted, hsome, Option.getD_some] at hdots
    obtain ⟨hsource, htype, hcontent⟩ :=
      dotted_plain (hactive t ht).1 (hactive t ht).2 hplain hdot hdots
    exact ⟨hsource.symm, hsome.trans (congrArg some htype.symm), hcontent.symm⟩

/-- A tool, and one whose name goes on with the start of the example of the first. -/
def mailTools : List Procedure := [
  { name := "mail"
    procedureType := "tool"
    triggersMap := Dict.ofList [("description", ["mail: Sends a mail"]),
      ("start_example", ["a.start_example.b"])]
    pluginId := "mail" },
  { name := "mail.start_example.a"
    procedureType := "tool"
    triggersMap := Dict.ofList [("description", ["mail.start_example.a: Sends another"]),
      ("start_example", ["b"])]
    pluginId := "mail" }]

theorem example_not_embedded :
    ¬ Unambiguous (Env.avoiding (fun _ => false) : Env Nat Nat) Dict.empty mailTools := by
  intro h
  have hcarried := h.embedded ⟨"mail", "tool", "start_example", "a.start_example.b"⟩ (by decide)
  revert hcarried
  decide

end CheshireCat.Procedures
