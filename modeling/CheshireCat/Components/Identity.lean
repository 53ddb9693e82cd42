import CheshireCat.Base.Answers
import CheshireCat.Components.Tools

namespace CheshireCat.Components
open Base

/-- The ids are distinct positive integers. -/
def Identified (ids : List Int) : Prop := ids.Nodup ∧ ∀ k ∈ ids, 0 < k

/-- Deleting by ids removes exactly the rows of the caller that have one of them. -/
def DeletesOwn (tables : Tables) : Prop :=
  ∀ caller ids, (tables.written (deleteComponentsByIds caller tables (.ids ids)).2).todos =
    tables.todos.filter (fun row => ¬ (row.id ∈ ids ∧ row.cells .user = .str caller.userId))

/-- A modification leaves all rows, or replaces the only row that has the id. -/
def ModifiesOne (py : Python) (tables : Tables) (caller : Caller) (data : ModificationData) : Prop :=
  (tables.written (modifyComponentById py caller tables data).2).todos = tables.todos ∨
  ∃ id updates before row row' after, data = .updates id updates ∧ id.isId row.id = true ∧
    tables.todos = before ++ row :: after ∧
    (tables.written (modifyComponentById py caller tables data).2).todos =
      before ++ row' :: after ∧
    row'.id = row.id ∧ ∀ other ∈ before ++ after, other.id ≠ row.id

/-- What the call writes into the row that it finds has half of a surrogate pair. -/
def WritesHalf (py : Python) (tables : Tables) (caller : Caller) (data : ModificationData) : Prop :=
  ∃ updates row row', Modifies py tables caller data updates row row' ∧ HalfUpdate updates

section Identity

variable {py : Python} {csv : Csv} {tables : Tables}

theorem next_id_fresh (todos : List Row) : ∀ k ∈ todos.map Row.id, k < nextId todos := by
  intro k hk
  unfold nextId
  cases hmax : (todos.map Row.id).max? with
  | none => simp [List.max?_eq_none_iff.mp hmax] at hk
  | some m =>
    have hle := (List.max?_eq_some_iff.mp hmax).2 k hk
    exact Int.lt_add_one_of_le hle

theorem next_id_positive {todos : List Row} (h : ∀ k ∈ todos.map Row.id, 0 < k) :
    0 < nextId todos := by
  unfold nextId
  cases hmax : (todos.map Row.id).max? with
  | none => decide
  | some m =>
    have hm := h m (List.max?_eq_some_iff.mp hmax).1
    change 0 < m + 1
    omega

theorem Identified.part {todos todos' : List Row} (h : Identified (todos.map Row.id))
    (hpart : todos'.Sublist todos) : Identified (todos'.map Row.id) :=
  ⟨h.1.sublist (hpart.map Row.id), fun k hk => h.2 k ((hpart.map Row.id).subset hk)⟩

theorem added_ids {caller : Caller} {projects : Option (List (List String))} {todos rows : List Row}
    {list : List (Option Component)} (h : (todos.map Row.id).Nodup)
    (hrows : componentRows py caller projects (nextId todos) list = .ok rows) :
    ((todos ++ rows).map Row.id).Nodup := by
  obtain ⟨hnodup, hfrom⟩ := component_rows_ids hrows
  rw [List.map_append]
  refine List.nodup_append.mpr ⟨h, hnodup, ?_⟩
  intro k hk k' hk' he
  have hlt := next_id_fresh todos k hk
  have hle := hfrom k' hk'
  omega

theorem Identified.added {caller : Caller} {projects : Option (List (List String))}
    {todos rows : List Row} {list : List (Option Component)} (h : Identified (todos.map Row.id))
    (hrows : componentRows py caller projects (nextId todos) list = .ok rows) :
    Identified ((todos ++ rows).map Row.id) := by
  refine ⟨added_ids h.1 hrows, ?_⟩
  intro k hk
  rw [List.map_append] at hk
  rcases List.mem_append.mp hk with hk | hk
  · exact h.2 k hk
  · have hle := (component_rows_ids hrows).2 k hk
    have hpositive := next_id_positive h.2
    omega

/-- What a call saves has distinct positive ids again. -/
theorem Identified.saved {caller : Caller} {tool : Tool} {saved : Saved}
    (h : Identified (tables.todos.map Row.id)) (hs : Saves py tables caller tool saved) :
    Identified ((tables.written saved).todos.map Row.id) := by
  cases hs with
  | nothing tool => exact h
  | created project => exact h
  | projectDeleted project => exact (h.part List.filter_sublist).part (encoded_sublist _)
  | added hrows => exact (h.added hrows).part (encoded_sublist _)
  | @modified _ _ row row' hid hfind hmodified =>
    obtain ⟨_, before, after, htodos, _, hreplace, _⟩ := found_split hfind
    have hids : (before ++ row' :: after).map Row.id = tables.todos.map Row.id := by
      rw [htodos, List.map_append, List.map_append, List.map_cons, List.map_cons,
        (modified_spec hmodified).1]
    have hreplaced : Identified ((tables.todos.replace row row').map Row.id) := by
      rw [hreplace, hids]
      exact h
    exact hreplaced.part (encoded_sublist _)
  | deleted list =>
    exact (h.part (delete_sublist caller.userId list (tables.todos, []))).part
      (List.takeWhile_sublist _)

/-- Reading the rows again keeps their ids. -/
theorem after_ids (csv : Csv) (tables : Tables) (saved : Saved) :
    (tables.after csv saved).todos.map Row.id = (tables.written saved).todos.map Row.id := by
  unfold Tables.after Tables.written
  cases saved.todos with
  | none => rfl
  | some rows => exact csv.rows_ids rows

theorem Identified.step (h : Identified (tables.todos.map Row.id)) (call : ToolCall) :
    Identified ((step py csv tables call).2.todos.map Row.id) := by
  change Identified ((tables.after csv _).todos.map Row.id)
  rw [after_ids]
  exact h.saved (result_saves py tables call)

theorem other_ids {before after : List Row} {row : Row}
    (h : ((before ++ row :: after).map Row.id).Nodup) : ∀ r ∈ before ++ after, r.id ≠ row.id := by
  rw [List.map_append, List.map_cons, List.nodup_append] at h
  intro r hr he
  rcases List.mem_append.mp hr with hr | hr
  · exact h.2.2 r.id (List.mem_map_of_mem hr) row.id List.mem_cons_self he
  · exact (List.nodup_cons.mp h.2.1).1 (he ▸ List.mem_map_of_mem hr)

/-- With distinct ids, deleting one id removes the row of the caller that has it. -/
theorem delete_one {todos : List Row} (h : (todos.map Row.id).Nodup) (user : String) (id : Int)
    (deleted : List Int) : (deleteComponentById user (todos, deleted) id).1 =
      todos.filter (fun row => ¬ (row.id = id ∧ row.cells .user = .str user)) := by
  have hiff (row : Row) : row.hasId (.int id) user = true ↔
      row.id = id ∧ row.cells .user = .str user := by
    rw [has_id_iff]
    simp [Value.isId, eq_comm]
  unfold deleteComponentById
  split
  · rename_i hnone
    symm
    rw [List.filter_eq_self]
    intro row hrow
    simpa [← hiff] using List.find?_eq_none.mp hnone row hrow
  · rename_i row hfind
    obtain ⟨hp, before, after, htodos, herase, _⟩ := found_split hfind
    have hown := (hiff row).mp hp
    change todos.erase row = _
    rw [herase]
    dsimp only at htodos
    subst htodos
    have hother := other_ids h
    have hkept : (before ++ after).filter
        (fun row => ¬ (row.id = id ∧ row.cells .user = .str user)) = before ++ after := by
      rw [List.filter_eq_self]
      intro r hr
      have hne : r.id ≠ id := hown.1 ▸ hother r hr
      simp [hne]
    rw [List.filter_append, List.filter_cons_of_neg (by simp [hown]), ← List.filter_append, hkept]

theorem delete_all {todos : List Row} (h : (todos.map Row.id).Nodup) (user : String)
    (ids : List Int) (deleted : List Int) :
    (ids.foldl (deleteComponentById user) (todos, deleted)).1 =
      todos.filter (fun row => ¬ (row.id ∈ ids ∧ row.cells .user = .str user)) := by
  induction ids generalizing todos deleted with
  | nil => simp
  | cons id ids ih =>
    have hfirst := delete_one h user id deleted
    rw [List.foldl_cons]
    generalize deleteComponentById user (todos, deleted) id = state at hfirst
    obtain ⟨rest, deleted'⟩ := state
    dsimp only at hfirst
    subst hfirst
    rw [ih (h.sublist (List.filter_sublist.map Row.id)), List.filter_filter]
    apply List.filter_congr
    intro row _
    by_cases huser : row.cells .user = .str user <;> by_cases hid : row.id = id <;>
      simp [huser, hid]

theorem delete_reported (user : String) (ids : List Int) (state : List Row × List Int) :
    state.2 <+: (ids.foldl (deleteComponentById user) state).2 := by
  induction ids generalizing state with
  | nil => exact List.prefix_refl _
  | cons id ids ih =>
    refine List.IsPrefix.trans ?_ (ih _)
    unfold deleteComponentById
    split
    · exact List.prefix_refl _
    · exact List.prefix_append _ _

/-- Where nothing is reported as deleted, nothing is. -/
theorem delete_none (user : String) (ids : List Int) (todos : List Row)
    (h : (ids.foldl (deleteComponentById user) (todos, [])).2 = []) :
    (ids.foldl (deleteComponentById user) (todos, [])).1 = todos := by
  induction ids with
  | nil => rfl
  | cons id ids ih =>
    rw [List.foldl_cons] at h ⊢
    have hstarts := delete_reported user ids (deleteComponentById user (todos, []) id)
    rw [h, List.prefix_nil] at hstarts
    have hidle : deleteComponentById user (todos, []) id = (todos, []) := by
      unfold deleteComponentById at hstarts ⊢
      split at hstarts
      · rfl
      · simp at hstarts
    rw [hidle] at h ⊢
    exact ih h

theorem deletes_own (h : (tables.todos.map Row.id).Nodup)
    (hread : ∀ row ∈ tables.todos, row.encodes = true) : DeletesOwn tables := by
  intro caller ids
  rw [← delete_all h caller.userId ids []]
  unfold deleteComponentsByIds
  dsimp only
  split
  · rename_i hnone
    exact (delete_none caller.userId ids tables.todos hnone).symm
  · exact encoded_all
      (fun row hrow => hread row ((delete_sublist caller.userId ids (tables.todos, [])).subset hrow))

/-- Where the new row cannot be encoded, it is lost with all rows behind it. -/
theorem modify_cut {updates : Dict String Value} {row row' : Row}
    {before after : List Row} (hread : ∀ row ∈ tables.todos, row.encodes = true)
    (htodos : tables.todos = before ++ row :: after) (hmodified : row.modified py updates = .ok row') :
    encoded (before ++ row' :: after) =
      if HalfUpdate updates then before else before ++ row' :: after := by
  rw [htodos] at hread
  have hbefore : ∀ r ∈ before, r.encodes = true := fun r hr => hread r (List.mem_append_left _ hr)
  have hrow := hread row (List.mem_append_right _ List.mem_cons_self)
  have hencodes := modified_encodes_iff hrow hmodified
  split
  · rename_i hhalf
    rw [encoded_append hbefore, encoded, List.takeWhile_cons_of_neg (fun h => hencodes.mp h hhalf),
      List.append_nil]
  · rename_i hwhole
    apply encoded_all
    intro r hr
    rcases List.mem_append.mp hr with hr | hr
    · exact hbefore r hr
    · rcases List.mem_cons.mp hr with rfl | hr
      · exact hencodes.mpr hwhole
      · exact hread r (List.mem_append_right _ (List.mem_cons_of_mem _ hr))

theorem modifies_one_iff (h : (tables.todos.map Row.id).Nodup)
    (hread : ∀ row ∈ tables.todos, row.encodes = true) (caller : Caller) (data : ModificationData) :
    ModifiesOne py tables caller data ↔ ¬ WritesHalf py tables caller data := by
  rcases modify_cases py tables caller data with ⟨updates, row, row', hmodifies, hsaved⟩ | ⟨hno, hsaved⟩
  · have hrow := hmodifies
    obtain ⟨id, rfl, _, hfind, hmodified⟩ := hrow
    obtain ⟨hp, before, after, htodos, _, hreplace, _⟩ := found_split hfind
    have hwritten : (tables.written (modifyComponentById py caller tables (.updates id updates)).2).todos =
        if HalfUpdate updates then before else before ++ row' :: after := by
      rw [hsaved, ← modify_cut hread htodos hmodified, ← hreplace row']
      rfl
    have hlength := congrArg List.length htodos
    rw [List.length_append, List.length_cons] at hlength
    by_cases hhalf : HalfUpdate updates
    · -- the file has fewer rows
      rw [if_pos hhalf] at hwritten
      refine iff_of_false ?_ (fun hno => hno ⟨updates, row, row', hmodifies, hhalf⟩)
      rintro (hall | ⟨_, _, before', other, other', after', _, _, htodos', hone, _⟩)
      · rw [hwritten] at hall
        rw [← hall] at hlength
        omega
      · rw [hwritten] at hone
        rw [htodos', hone, List.length_append, List.length_cons, List.length_append,
          List.length_cons] at hlength
        omega
    · rw [if_neg hhalf] at hwritten
      refine iff_of_true (Or.inr ⟨id, updates, before, row, row', after, rfl,
        ((has_id_iff row id _).mp hp).1, htodos, hwritten, (modified_spec hmodified).1,
        other_ids (htodos ▸ h)⟩) ?_
      rintro ⟨_, _, _, hmodifies', hhalf'⟩
      exact hhalf ((hmodifies.unique hmodifies').1 ▸ hhalf')
  · refine iff_of_true (Or.inl ?_) ?_
    · rw [hsaved]
      rfl
    · rintro ⟨updates, row, row', hmodifies, _⟩
      exact hno updates row row' hmodifies

end Identity

/-- Two valves of Alice. -/
def twoValves : List ToolCall :=
  [⟨alice, .createProject "streamair"⟩,
    ⟨alice, .addComponent (.components [some (valve "streamair" 2 3), some (valve "streamair" 4 5)])⟩]

end CheshireCat.Components
