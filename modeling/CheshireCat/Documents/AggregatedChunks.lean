import CheshireCat.Documents.Upload

namespace CheshireCat.Documents

structure MySettings where
  nOfChunks : Int := 5
  enableClassification : Bool := true

def classificationLabels : List (String × List String) :=
  [("useful", ["relevant", "important", "useful", "meaningful"]),
   ("no sense", ["nonsense", "gibberish", "random", "unclear"]),
   ("header or footer", ["copyright", "footer", "header", "page number", "confidential"])]

/-- `range(0, stop, step)`. -/
def rangeTo (stop : Nat) (step : Int) : Except String (List Nat) :=
  if step = 0 then .error "range() arg 3 must not be zero"
  else if step < 0 then .ok []
  else .ok (List.range' 0 ((stop + step.toNat - 1) / step.toNat) step.toNat)

def contents (chunks : List Document) : String :=
  String.join (chunks.map Document.pageContent)

/-- One iteration. The group is a slice of the list that the document is then appended to. -/
def appendAggregate (n : Nat) (filteredChunks : List Document) (i : Nat) : List Document :=
  let chunkGroup := (filteredChunks.drop i).take n
  filteredChunks ++ [⟨contents chunkGroup, []⟩]

section

variable (classify : String → List (String × List String) → Option String)
variable (settings : MySettings) (chunks : List Document)

/-- The chunks that the aggregation starts from. -/
def keptChunks : List Document :=
  if settings.enableClassification then
    chunks.filter (fun chunk => classify chunk.pageContent classificationLabels = some "useful")
  else chunks

/-- The messages sent to the user, and the list returned. -/
def afterRabbitholeSplittedText : List (Option String) × Except String (List Document) :=
  let filteredChunks := keptChunks classify settings chunks
  (if settings.enableClassification then
      chunks.map (fun chunk => classify chunk.pageContent classificationLabels)
    else [],
   (rangeTo filteredChunks.length settings.nOfChunks).map
    (fun indices => indices.foldl (appendAggregate settings.nOfChunks.toNat) filteredChunks))

end

/-! ### The groups -/

def group (n : Nat) (chunks : List Document) (k : Nat) : List Document :=
  (chunks.drop (k * n)).take n

/-- The list starts with the chunks, and goes on with one document for every group of them. -/
def Aggregates (n : Nat) (chunks returned : List Document) : Prop :=
  ∃ aggregates, returned = chunks ++ aggregates ∧
    aggregates.map Document.pageContent =
      (List.range ((chunks.length + n - 1) / n)).map (fun k => contents (group n chunks k))

theorem groups_take (n : Nat) (chunks : List Document) (k : Nat) :
    (List.range k).flatMap (group n chunks) = chunks.take (k * n) := by
  induction k with
  | zero => rw [Nat.zero_mul, List.take_zero, List.range_zero, List.flatMap_nil]
  | succ k ih =>
    rw [List.range_succ, List.flatMap_append, ih, List.flatMap_singleton, Nat.succ_mul, List.take_add]
    rfl

/-- Every chunk is in one group, in its place. -/
theorem groups_partition {n : Nat} (hn : 0 < n) (chunks : List Document) :
    (List.range ((chunks.length + n - 1) / n)).flatMap (group n chunks) = chunks := by
  rw [groups_take]
  apply List.take_of_length_le
  have hround := Nat.lt_div_mul_add (a := chunks.length + n - 1) hn
  omega

theorem contents_append (chunks chunks' : List Document) :
    contents (chunks ++ chunks') = contents chunks ++ contents chunks' := by
  rw [contents, List.map_append, String.join_append]
  rfl

theorem contents_empty (chunks : List Document) :
    contents chunks = "" ↔ ∀ chunk ∈ chunks, chunk.pageContent = "" := by
  induction chunks with
  | nil => exact iff_of_true rfl (fun _ h => absurd h List.not_mem_nil)
  | cons chunk chunks ih =>
    rw [contents, List.map_cons, String.join_cons, String.append_eq_empty_iff, List.forall_mem_cons]
    exact and_congr_right' ih

/-- The documents that the iterations append for the first `k` groups. -/
def aggregated (n : Nat) (chunks : List Document) (k : Nat) : List Document :=
  (List.range k).map (fun j => ⟨contents (group n chunks j), []⟩)

theorem contents_aggregated (n : Nat) (chunks : List Document) (k : Nat) :
    contents (aggregated n chunks k) = contents (chunks.take (k * n)) := by
  induction k with
  | zero => rw [Nat.zero_mul, List.take_zero, aggregated, List.range_zero, List.map_nil]
  | succ k ih =>
    rw [aggregated, List.range_succ, List.map_append, contents_append, ← aggregated, ih,
      Nat.succ_mul, List.take_add, contents_append]
    rfl

/-- As long as the groups are whole, they are taken from the chunks. -/
theorem whole_groups {n k : Nat} {chunks : List Document} (h : k * n ≤ chunks.length) :
    (List.range' 0 k n).foldl (appendAggregate n) chunks = chunks ++ aggregated n chunks k := by
  induction k with
  | zero => exact (List.append_nil chunks).symm
  | succ k ih =>
    rw [Nat.succ_mul] at h
    rw [List.range'_concat, List.foldl_append, ih (by omega), List.foldl_cons, List.foldl_nil,
      Nat.zero_add, Nat.mul_comm, appendAggregate, List.drop_append_of_le_length (by omega),
      List.take_append_of_le_length (by rw [List.length_drop]; omega), List.append_assoc,
      aggregated, aggregated, List.range_succ, List.map_append]
    rfl

/-- A last group that is not whole goes on with the documents appended for the first ones. -/
theorem last_group {n : Nat} (hn : 0 < n) (chunks : List Document) :
    let first := min (n - chunks.length % n) (chunks.length / n)
    appendAggregate n (chunks ++ aggregated n chunks (chunks.length / n)) (chunks.length / n * n) =
      chunks ++ (aggregated n chunks (chunks.length / n) ++
        [⟨contents (group n chunks (chunks.length / n)) ++ contents (chunks.take (first * n)), []⟩]) := by
  intro first
  have hsplit := Nat.div_add_mod' chunks.length n
  have hrest := Nat.mod_lt chunks.length hn
  have hgroup : group n chunks (chunks.length / n) = chunks.drop (chunks.length / n * n) := by
    apply List.take_of_length_le
    rw [List.length_drop]
    omega
  have htake : (aggregated n chunks (chunks.length / n)).take (n - chunks.length % n) =
      aggregated n chunks first := by
    rw [aggregated, ← List.map_take, List.take_range]
    rfl
  have hlength : (chunks.drop (chunks.length / n * n)).length = chunks.length % n := by
    rw [List.length_drop]
    omega
  rw [appendAggregate, List.drop_append_of_le_length (by omega), List.take_append, hlength, htake,
    List.take_of_length_le (by omega), contents_append, contents_aggregated, List.append_assoc, hgroup]

theorem group_count {n : Nat} (hn : 0 < n) (m : Nat) :
    (m + n - 1) / n = if n ∣ m then m / n else m / n + 1 := by
  have hsplit := Nat.div_add_mod' m n
  have hrest := Nat.mod_lt m hn
  rw [Nat.div_eq_iff hn]
  split
  · rename_i hdvd
    have hzero := Nat.mod_eq_zero_of_dvd hdvd
    omega
  · rename_i hdvd
    have hpos := Nat.emod_pos_of_not_dvd hdvd
    rw [Nat.succ_mul]
    omega

theorem returned_list {classify : String → List (String × List String) → Option String}
    {settings : MySettings} {n : Nat} (hn : 0 < n) (h : settings.nOfChunks = n) (chunks : List Document) :
    let kept := keptChunks classify settings chunks
    (afterRabbitholeSplittedText classify settings chunks).2 =
      .ok ((List.range' 0 ((kept.length + n - 1) / n) n).foldl (appendAggregate n) kept) := by
  have hzero : ¬ (n : Int) = 0 := by omega
  have hneg : ¬ (n : Int) < 0 := by omega
  rw [afterRabbitholeSplittedText, h, rangeTo, if_neg hzero, if_neg hneg, Int.toNat_natCast]
  rfl

/-- Documents that follow the chunks are their groups where each has the contents of one. -/
theorem aggregates_append (n : Nat) (chunks aggregates : List Document) :
    (∃ returned, Except.ok (ε := String) (chunks ++ aggregates) = .ok returned ∧
      Aggregates n chunks returned) ↔
    aggregates.map Document.pageContent =
      (List.range ((chunks.length + n - 1) / n)).map (fun k => contents (group n chunks k)) := by
  constructor
  · rintro ⟨returned, hreturned, aggregates', happend, hcontents⟩
    have hsame : aggregates = aggregates' :=
      List.append_cancel_left ((Except.ok.inj hreturned).trans happend)
    rw [hsame]
    exact hcontents
  · intro hcontents
    exact ⟨_, rfl, aggregates, rfl, hcontents⟩

/-- The list is the chunks and one document for each group of `n` exactly where the groups are
whole, or the chunks that the last group takes in again have no content. -/
theorem aggregates_iff (classify : String → List (String × List String) → Option String)
    (settings : MySettings) (chunks : List Document) (n : Nat) (hn : 0 < n) (h : settings.nOfChunks = n) :
    let kept := keptChunks classify settings chunks
    (∃ returned, (afterRabbitholeSplittedText classify settings chunks).2 = .ok returned ∧
      Aggregates n kept returned) ↔
    n ∣ kept.length ∨
      ∀ chunk ∈ kept.take (min (n - kept.length % n) (kept.length / n) * n), chunk.pageContent = "" := by
  intro kept
  have hcount := group_count hn kept.length
  have hwhole := whole_groups (Nat.div_mul_le_self kept.length n)
  have hcontents : (aggregated n kept (kept.length / n)).map Document.pageContent =
      (List.range (kept.length / n)).map (fun k => contents (group n kept k)) := by
    rw [aggregated, List.map_map]
    rfl
  rw [returned_list hn h chunks]
  by_cases hdvd : n ∣ kept.length
  · rw [if_pos hdvd] at hcount
    rw [hcount, hwhole, aggregates_append, hcount]
    exact iff_of_true hcontents (Or.inl hdvd)
  · rw [if_neg hdvd] at hcount
    rw [hcount, List.range'_concat, List.foldl_append, hwhole, List.foldl_cons, List.foldl_nil,
      Nat.zero_add, Nat.mul_comm n, last_group hn, aggregates_append, hcount, List.range_succ,
      List.map_append, List.map_append, hcontents, List.append_cancel_left_eq, ← contents_empty,
      or_iff_right hdvd]
    exact List.singleton_inj.trans String.append_eq_left_iff

/-- Chunks with one letter each. -/
def letters (text : String) : List Document :=
  text.toList.map (fun c => ⟨String.singleton c, []⟩)

theorem four_letters_grouped :
    ∃ returned, (afterRabbitholeSplittedText (fun _ _ => some "useful") ⟨2, true⟩ (letters "abcd")).2 =
      .ok returned ∧ Aggregates 2 (letters "abcd") returned :=
  (aggregates_iff (fun _ _ => some "useful") ⟨2, true⟩ (letters "abcd") 2 (by decide) rfl).mpr
    (Or.inl (by decide))

/-- With three chunks in groups of two, the last group goes on with the first aggregate. -/
theorem last_letter_repeats :
    ((afterRabbitholeSplittedText (fun _ _ => none) ⟨2, false⟩ (letters "abc")).2.toOption.map
      (fun returned => returned.map Document.pageContent)) = some ["a", "b", "c", "ab", "cab"] ∧
    ¬ ∃ returned, (afterRabbitholeSplittedText (fun _ _ => none) ⟨2, false⟩ (letters "abc")).2 = .ok returned ∧
      Aggregates 2 (letters "abc") returned := by
  refine ⟨rfl, ?_⟩
  rintro ⟨_, hreturned, aggregates, rfl, hcontents⟩
  have hall := congrArg (fun result => result.toOption.map (List.map Document.pageContent)) hreturned
  change some ["a", "b", "c", "ab", "cab"] = some (List.map Document.pageContent (_ ++ _)) at hall
  rw [List.map_append, hcontents] at hall
  revert hall
  decide

end CheshireCat.Documents
