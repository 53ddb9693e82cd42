import CheshireCat.Procedures.Embed
import Mathlib.Algebra.GroupWithZero.Nat
import Mathlib.Algebra.Order.BigOperators.Group.List
import Mathlib.Data.List.Perm.Basic

namespace CheshireCat.Procedures
open Base MadHatter

variable {ν τ : Type}

/-- Whatever the scroll, the ids and the embedder do, a run leaves the points of
the active triggers, and a second run changes nothing. -/
def Converges (c : Collection ν τ) (procedures : List Procedure) : Prop :=
  ∀ env env' : Env ν τ,
    (∀ k, k ∈ storedKeys (embedProcedures env c procedures) ↔ k ∈ activeKeys procedures) ∧
    embedProcedures env' (embedProcedures env c procedures) procedures =
      embedProcedures env c procedures

/-- The store fits on one page, with no two inactive points of one key and room
for the new points; or it does not fit, nothing is inactive, and each active key
has so many points that no page can miss them all. -/
def Settled (c : Collection ν τ) (procedures : List Procedure) : Prop :=
  (c.entries.length ≤ limit ∧
    ((storedKeys c).filter (fun k => k ∉ activeKeys procedures)).Nodup ∧
    ((storedKeys c).filter (fun k => k ∈ activeKeys procedures)).length +
      ((activeKeys procedures).filter (fun k => k ∉ storedKeys c)).length ≤ limit) ∨
  (limit < c.entries.length ∧ (∀ k ∈ storedKeys c, k ∈ activeKeys procedures) ∧
    ∀ k ∈ activeKeys procedures, c.entries.length - limit < (storedKeys c).count k)

theorem mem_stored {c : Collection ν τ} {k : String} :
    k ∈ storedKeys c ↔ ∃ e ∈ c.entries, e.2.key = k := List.mem_map

theorem stored_length (c : Collection ν τ) : (storedKeys c).length = c.entries.length :=
  List.length_map _

/-! ### The condition is enough -/

theorem embed_same {env : Env ν τ} {c : Collection ν τ} {procedures : List Procedure}
    (hd : deletedIds env c procedures = []) (he : embeddedKeys env c procedures = []) :
    embedProcedures env c procedures = c := by
  obtain ⟨added, hentries, hkeys⟩ := embed_entries env c procedures
  have hadded : added = [] := by
    rw [he] at hkeys
    exact List.map_eq_nil_iff.mp hkeys
  apply Dict.ext
  rw [hentries, hd, hadded]
  simp

theorem deleted_nil {env : Env ν τ} {c : Collection ν τ} {procedures : List Procedure}
    (h : ∀ k ∈ storedKeys c, k ∈ activeKeys procedures) : deletedIds env c procedures = [] := by
  rw [List.eq_nil_iff_forall_not_mem]
  intro id hid
  obtain ⟨k, hk, hget⟩ := (mem_deleted env c procedures id).mp hid
  obtain ⟨e, he, hek, _⟩ := embedded_id hget
  exact hk (h k (mem_stored.mpr ⟨e, page_mem he, hek⟩))

theorem embedded_nil {env : Env ν τ} {c : Collection ν τ} {procedures : List Procedure}
    (h : ∀ k ∈ activeKeys procedures, ∃ e ∈ env.scroll c, e.2.key = k) :
    embeddedKeys env c procedures = [] := by
  rw [List.eq_nil_iff_forall_not_mem]
  intro k hk
  obtain ⟨hactive, hnone⟩ := (mem_embedded env c procedures k).mp hk
  obtain ⟨e, he, hek⟩ := h k hactive
  exact hnone e he hek

/-- A key with more points than a page leaves out is on every page. -/
theorem page_has (env : Env ν τ) {c : Collection ν τ} {k : String}
    (h : c.entries.length - limit < (storedKeys c).count k) : ∃ e ∈ env.scroll c, e.2.key = k := by
  obtain ⟨rest, hperm⟩ := env.page c
  have hkeys : ((env.scroll c).map (fun e => e.2.key) ++ rest.map (fun e => e.2.key)).Perm
      (storedKeys c) := by
    rw [← List.map_append]
    exact hperm.map _
  have hcount := hkeys.count_eq k
  have hlen := hperm.length_eq
  rw [List.length_append, env.length] at hlen
  rw [List.count_append] at hcount
  have hrest : (rest.map (fun e => e.2.key)).count k ≤ rest.length := by
    rw [← List.length_map (fun e : String × Point ν τ => e.2.key)]
    exact List.count_le_length
  have hpos : 0 < ((env.scroll c).map (fun e => e.2.key)).count k := by omega
  exact List.mem_map.mp (List.count_pos_iff.mp hpos)

/-- On one page, with distinct inactive keys, the active points are left. -/
theorem left_of_fit {env : Env ν τ} {c : Collection ν τ} {procedures : List Procedure}
    (hfit : c.entries.length ≤ limit)
    (hn : ((storedKeys c).filter (fun k => k ∉ activeKeys procedures)).Nodup) :
    c.entries.filter (fun e => e.1 ∉ deletedIds env c procedures) =
      c.entries.filter (fun e => e.2.key ∈ activeKeys procedures) := by
  apply List.filter_congr
  intro e he
  have hiff := deleted_iff hn ((page_all env hfit e).mpr he)
  by_cases hk : e.2.key ∈ activeKeys procedures
  · simp [hk, hiff]
  · simp [hk, hiff]

theorem embed_settled {env : Env ν τ} {c : Collection ν τ} {procedures : List Procedure}
    (hfit : c.entries.length ≤ limit)
    (hn : ((storedKeys c).filter (fun k => k ∉ activeKeys procedures)).Nodup) :
    storedKeys (embedProcedures env c procedures) =
      (storedKeys c).filter (fun k => k ∈ activeKeys procedures) ++ embeddedKeys env c procedures := by
  obtain ⟨added, hentries, hkeys⟩ := embed_entries env c procedures
  rw [storedKeys, hentries, List.map_append, hkeys, left_of_fit hfit hn, storedKeys,
    List.filter_map]
  rfl

theorem mem_embedded_of_fit {env : Env ν τ} {c : Collection ν τ} {procedures : List Procedure}
    (hfit : c.entries.length ≤ limit) (k : String) :
    k ∈ embeddedKeys env c procedures ↔ k ∈ activeKeys procedures ∧ k ∉ storedKeys c := by
  rw [mem_embedded, mem_stored]
  simp only [page_all env hfit, not_exists, not_and, ne_eq]

theorem embedded_perm_of_fit {env : Env ν τ} {c : Collection ν τ} {procedures : List Procedure}
    (hfit : c.entries.length ≤ limit) : (embeddedKeys env c procedures).Perm
      ((activeKeys procedures).filter (fun k => k ∉ storedKeys c)) := by
  refine (List.perm_ext_iff_of_nodup (embedded_keys_nodup env c procedures)
    ((active_keys_nodup procedures).filter _)).mpr (fun k => ?_)
  rw [mem_embedded_of_fit hfit, List.mem_filter, decide_eq_true_iff]

theorem mem_embed_settled {env : Env ν τ} {c : Collection ν τ} {procedures : List Procedure}
    (hfit : c.entries.length ≤ limit)
    (hn : ((storedKeys c).filter (fun k => k ∉ activeKeys procedures)).Nodup) (k : String) :
    k ∈ storedKeys (embedProcedures env c procedures) ↔ k ∈ activeKeys procedures := by
  rw [embed_settled hfit hn, List.mem_append, List.mem_filter, mem_embedded_of_fit hfit,
    decide_eq_true_iff]
  tauto

theorem converges_of_settled {c : Collection ν τ} {procedures : List Procedure}
    (h : Settled c procedures) : Converges c procedures := by
  intro env env'
  rcases h with ⟨hfit, hn, hroom⟩ | ⟨_, hall, hmany⟩
  · have hkeys (k : String) : k ∈ storedKeys (embedProcedures env c procedures) ↔
        k ∈ activeKeys procedures := mem_embed_settled hfit hn k
    refine ⟨hkeys, embed_same (deleted_nil (fun k hk => (hkeys k).mp hk)) (embedded_nil ?_)⟩
    intro k hk
    have hlength : (embedProcedures env c procedures).entries.length ≤ limit := by
      rw [← stored_length, embed_settled hfit hn, List.length_append,
        (embedded_perm_of_fit hfit).length_eq]
      exact hroom
    obtain ⟨e, he, hek⟩ := mem_stored.mp ((hkeys k).mpr hk)
    exact ⟨e, (page_all env' hlength e).mpr he, hek⟩
  · have hsame (e : Env ν τ) : embedProcedures e c procedures = c :=
      embed_same (deleted_nil hall) (embedded_nil (fun k hk => page_has e (hmany k hk)))
    rw [hsame env]
    refine ⟨fun k => ⟨hall k, fun hk => ?_⟩, hsame env'⟩
    have hpos : 0 < (storedKeys c).count k := by
      have := hmany k hk
      omega
    exact List.count_pos_iff.mp hpos

/-! ### The condition is necessary -/

/-- An id that is longer than all others. -/
def longId (keys : List String) : String :=
  String.ofList (List.replicate ((keys.map String.length).sum + 1) '0')

theorem longId_fresh (keys : List String) : longId keys ∉ keys := by
  intro h
  have hlen : (longId keys).length ≤ (keys.map String.length).sum :=
    List.le_sum_of_mem (List.mem_map_of_mem h)
  simp [longId] at hlen

/-- An environment whose scroll lists the chosen points last. -/
def Env.avoiding [Inhabited ν] [Inhabited τ] (last : String × Point ν τ → Bool) : Env ν τ where
  scroll c := (c.entries.filter (fun e => !last e) ++ c.entries.filter last).take limit
  page c := by
    refine ⟨(c.entries.filter (fun e => !last e) ++ c.entries.filter last).drop limit, ?_⟩
    rw [List.take_append_drop]
    exact (List.perm_append_comm).trans (List.filter_append_perm last c.entries)
  length c := by
    rw [List.length_take]
    have := (List.filter_append_perm last c.entries).length_eq
    rw [List.length_append] at this ⊢
    omega
  listOfSet := id
  perm := fun keys => List.Perm.refl keys
  uuid c := longId c.keys
  fresh c := longId_fresh c.keys
  embed _ := default
  time _ := default

theorem avoiding_omits [Inhabited ν] [Inhabited τ] {last : String × Point ν τ → Bool}
    {c : Collection ν τ} (h : c.entries.countP last ≤ c.entries.length - limit)
    (hfull : limit ≤ c.entries.length) {e : String × Point ν τ}
    (he : e ∈ (Env.avoiding last).scroll c) : last e = false := by
  have hlen : limit ≤ (c.entries.filter (fun e => !last e)).length := by
    have hperm := (List.filter_append_perm last c.entries).length_eq
    rw [List.length_append, ← List.countP_eq_length_filter] at hperm
    omega
  change e ∈ (c.entries.filter (fun e => !last e) ++ c.entries.filter last).take limit at he
  rw [List.take_append_of_le_length hlen] at he
  have := (List.mem_filter.mp (List.mem_of_mem_take he)).2
  simpa using this

theorem stored_count (c : Collection ν τ) (k : String) :
    (storedKeys c).count k = c.entries.countP (fun e => e.2.key = k) := by
  rw [storedKeys, List.count_eq_countP, List.countP_map]
  apply List.countP_congr
  intro e _
  simp

/-- A key that a page can miss is embedded once more. -/
theorem overlooked [Inhabited ν] [Inhabited τ] {c : Collection ν τ} {procedures : List Procedure}
    {k : String} (hactive : k ∈ activeKeys procedures)
    (hfull : limit ≤ c.entries.length) (hcount : (storedKeys c).count k ≤ c.entries.length - limit) :
    k ∈ embeddedKeys (Env.avoiding (fun e : String × Point ν τ => e.2.key = k)) c procedures := by
  rw [stored_count] at hcount
  refine (mem_embedded _ _ _ _).mpr ⟨hactive, ?_⟩
  intro e he
  exact of_decide_eq_false (avoiding_omits hcount hfull he)

/-- A run that changes nothing has nothing to embed, where nothing is inactive. -/
theorem embedded_nil_of_same {env : Env ν τ} {c : Collection ν τ} {procedures : List Procedure}
    (hall : ∀ k ∈ storedKeys c, k ∈ activeKeys procedures)
    (h : embedProcedures env c procedures = c) : embeddedKeys env c procedures = [] := by
  obtain ⟨added, hentries, hkeys⟩ := embed_entries env c procedures
  rw [h, deleted_nil hall] at hentries
  simp only [List.not_mem_nil, not_false_eq_true, decide_true, List.filter_true] at hentries
  have hadded : added = [] := by simpa using hentries
  rw [← hkeys, hadded]
  rfl

theorem stored_of_left {env : Env ν τ} {c : Collection ν τ} {procedures : List Procedure}
    {e : String × Point ν τ} (he : e ∈ c.entries) (hid : e.1 ∉ deletedIds env c procedures) :
    e.2.key ∈ storedKeys (embedProcedures env c procedures) := by
  obtain ⟨added, hentries, _⟩ := embed_entries env c procedures
  refine mem_stored.mpr ⟨e, ?_, rfl⟩
  rw [hentries]
  exact List.mem_append_left _ (List.mem_filter.mpr ⟨he, by simpa using hid⟩)

/-- Of two inactive points of one key, a run deletes only one. -/
theorem inactive_nodup [Inhabited ν] [Inhabited τ] {c : Collection ν τ}
    {procedures : List Procedure} (h : Converges c procedures) :
    ((storedKeys c).filter (fun k => k ∉ activeKeys procedures)).Nodup := by
  let env : Env ν τ := Env.avoiding (fun _ => false)
  have hgone {e : String × Point ν τ} (he : e ∈ c.entries) (hk : e.2.key ∉ activeKeys procedures) :
      (buildEmbeddedProceduresHashes (env.scroll c)).get? e.2.key = some e.1 := by
    by_contra hget
    have hleft : e.1 ∉ deletedIds env c procedures :=
      fun hid => hget (deleted_inactive he hid).2.2
    exact hk (((h env env).1 _).mp (stored_of_left he hleft))
  rw [storedKeys, List.filter_map]
  refine List.Nodup.map_on ?_ ((c.distinct.of_map _).filter _)
  intro e he f hf hef
  obtain ⟨hec, hek⟩ := List.mem_filter.mp he
  obtain ⟨hfc, hfk⟩ := List.mem_filter.mp hf
  have hge := hgone hec (by simpa using hek)
  have hgf := hgone hfc (by simpa using hfk)
  rw [show e.2.key = f.2.key from hef, hgf] at hge
  exact entry_unique hec hfc (Option.some.inj hge).symm

/-- After a run, no page of the result may miss an active key. -/
theorem not_overlooked [Inhabited ν] [Inhabited τ] {c : Collection ν τ}
    {procedures : List Procedure} (h : Converges c procedures) (env : Env ν τ) {k : String}
    (hk : k ∈ activeKeys procedures)
    (hlength : limit ≤ (embedProcedures env c procedures).entries.length) :
    (embedProcedures env c procedures).entries.length - limit <
      (storedKeys (embedProcedures env c procedures)).count k := by
  by_contra hcount
  have hin := overlooked hk hlength (by omega)
  have hsame := (h env (Env.avoiding (fun e => e.2.key = k))).2
  rw [embedded_nil_of_same (fun j hj => ((h env env).1 j).mp hj) hsame] at hin
  cases hin

/-- A store on one page keeps fitting on one page. -/
theorem room_of_converges [Inhabited ν] [Inhabited τ] {c : Collection ν τ}
    {procedures : List Procedure} (h : Converges c procedures) (hfit : c.entries.length ≤ limit) :
    ((storedKeys c).filter (fun k => k ∈ activeKeys procedures)).length +
      ((activeKeys procedures).filter (fun k => k ∉ storedKeys c)).length ≤ limit := by
  let env : Env ν τ := Env.avoiding (fun _ => false)
  by_contra hroom
  -- the new collection does not fit, and a new key is on no page but one
  have hnew : ∃ k ∈ activeKeys procedures, k ∉ storedKeys c := by
    by_contra hnone
    have hnil : (activeKeys procedures).filter (fun k => k ∉ storedKeys c) = [] := by
      rw [List.filter_eq_nil_iff]
      intro k hk
      simpa using fun hks => hnone ⟨k, hk, hks⟩
    have hle := List.length_filter_le (fun k => k ∈ activeKeys procedures) (storedKeys c)
    rw [hnil, List.length_nil] at hroom
    rw [stored_length] at hle
    omega
  obtain ⟨k, hk, hks⟩ := hnew
  have hkeys : storedKeys (embedProcedures env c procedures) = _ :=
    embed_settled hfit (inactive_nodup h)
  have hlength : limit < (embedProcedures env c procedures).entries.length := by
    rw [← stored_length, hkeys, List.length_append, (embedded_perm_of_fit hfit).length_eq]
    omega
  have hcount : (storedKeys (embedProcedures env c procedures)).count k ≤ 1 := by
    rw [hkeys, List.count_append, List.count_eq_zero.mpr, Nat.zero_add]
    · exact List.nodup_iff_count_le_one.mp (embedded_keys_nodup env c procedures) k
    · intro hmem
      exact hks (List.mem_filter.mp hmem).1
  have hseen := not_overlooked h env hk hlength.le
  omega

/-- A point that a page can miss is not deleted, so its key is active. -/
theorem active_of_converges [Inhabited ν] [Inhabited τ] {c : Collection ν τ}
    {procedures : List Procedure} (h : Converges c procedures) (hfull : limit < c.entries.length) :
    ∀ k ∈ storedKeys c, k ∈ activeKeys procedures := by
  intro k hk
  obtain ⟨e, he, rfl⟩ := mem_stored.mp hk
  let env : Env ν τ := Env.avoiding (fun f => f.1 = e.1)
  have hone : c.entries.countP (fun f => f.1 = e.1) ≤ 1 := by
    have hcount := List.nodup_iff_count_le_one.mp c.distinct e.1
    rw [List.count_eq_countP, List.countP_map] at hcount
    refine le_trans (le_of_eq ?_) hcount
    apply List.countP_congr
    intro f _
    simp
  have hleft : e.1 ∉ deletedIds env c procedures := by
    intro hid
    have hpage := (deleted_inactive he hid).1
    have := avoiding_omits (by omega) hfull.le hpage
    simp at this
  exact ((h env env).1 _).mp (stored_of_left he hleft)

/-- A key that one page misses is embedded again, and then a page of the longer result
must not miss it. -/
theorem many_of_converges [Inhabited ν] [Inhabited τ] {c : Collection ν τ}
    {procedures : List Procedure} (h : Converges c procedures) (hfull : limit < c.entries.length)
    (hall : ∀ k ∈ storedKeys c, k ∈ activeKeys procedures) :
    ∀ k ∈ activeKeys procedures, c.entries.length - limit < (storedKeys c).count k := by
  intro k hk
  by_contra hcount
  let env : Env ν τ := Env.avoiding (fun e => e.2.key = k)
  have hfirst : k ∈ embeddedKeys env c procedures := overlooked hk hfull.le (by omega)
  obtain ⟨added, hentries, hkeys⟩ := embed_entries env c procedures
  rw [deleted_nil hall] at hentries
  simp only [List.not_mem_nil, not_false_eq_true, decide_true, List.filter_true] at hentries
  have hstored : storedKeys (embedProcedures env c procedures) =
      storedKeys c ++ embeddedKeys env c procedures := by
    rw [storedKeys, hentries, List.map_append, hkeys]
    rfl
  have hadded : 0 < (embeddedKeys env c procedures).length := List.length_pos_of_mem hfirst
  have hlength : (embedProcedures env c procedures).entries.length =
      c.entries.length + (embeddedKeys env c procedures).length := by
    rw [← stored_length, hstored, List.length_append, stored_length]
  have hone := List.nodup_iff_count_le_one.mp (embedded_keys_nodup env c procedures) k
  have hseen := not_overlooked h env hk (by omega)
  rw [hstored, List.count_append, hlength] at hseen
  omega

theorem settled_of_converges [Inhabited ν] [Inhabited τ] {c : Collection ν τ}
    {procedures : List Procedure} (h : Converges c procedures) : Settled c procedures := by
  by_cases hfit : c.entries.length ≤ limit
  · exact Or.inl ⟨hfit, inactive_nodup h, room_of_converges h hfit⟩
  · have hfull : limit < c.entries.length := by omega
    have hall := active_of_converges h hfull
    exact Or.inr ⟨hfull, hall, many_of_converges h hfull hall⟩

/-- `embed_procedures` converges exactly from the settled collections. -/
theorem embed_converges_iff [Inhabited ν] [Inhabited τ] (c : Collection ν τ)
    (procedures : List Procedure) : Converges c procedures ↔ Settled c procedures :=
  ⟨settled_of_converges, converges_of_settled⟩

/-- Two points of one inactive trigger. -/
def twins : Collection Nat Nat :=
  Dict.ofList [("1", ⟨0, "a", "tool", "tool", some "description", 0⟩),
    ("2", ⟨0, "a", "tool", "tool", some "description", 0⟩)]

/-- The dictionary keeps one id for both, so one of them survives. -/
theorem twin_survives : ¬ Converges twins [] := by
  intro h
  let env : Env Nat Nat := Env.avoiding (fun _ => false)
  have hstored : "tool.description.a" ∈ storedKeys (embedProcedures env twins []) := by decide
  have hactive := ((h env env).1 _).mp hstored
  revert hactive
  decide

end CheshireCat.Procedures
