import CheshireCat.Base.Traced
import CheshireCat.Documents.Upload
import CheshireCat.Memory.Points

/-! The way of a file into the declarative memory. -/

namespace CheshireCat.Documents
open Base Json Memory

variable {ι V W β φ α : Type}

/-- The declarative memory, and what the plugins, the models and the connection keep. -/
structure Hole (ι V W : Type) where
  declarative : Dict ι (Point V)
  rest : W

inductive HoleEvent (ι V : Type) where
  | sent (content : String)
  | added (id : ι) (point : Point V) (completed : Bool)
  | stored (source : String) (points : List (Option (ι × Point V)))

abbrev Digging (ι V W α : Type) := Traced (Hole ι V W) (HoleEvent ι V) α

structure TextSplitter where
  chunkSize : Int
  chunkOverlap : Int
deriving DecidableEq

inductive IngestedFile (β : Type) where
  | uploadFile (filename : String) (fileBytes : β)
  | str (file : String)

/-- What the plugins, the parsers, the splitter, the embedder and Qdrant do. A hook never raises. -/
structure Rabbits (ι V W β φ : Type) where
  guessType : String → Option String
  isUrl : String → Bool
  get : String → StateM W (Except String (String × β))
  readFile : String → StateM W (Except String β)
  sendWsMessage : String → StateM W (Except String Unit)
  rabbitholeInstantiatesParsers : StateM W (Dict String φ)
  parse : Dict String φ → Option String → β → StateM W (Except String (List Document))
  beforeRabbitholeSplitsText : List Document → StateM W (List Document)
  rabbitholeInstantiatesSplitter : TextSplitter → StateM W TextSplitter
  splitDocuments : TextSplitter → List Document → StateM W (Except String (List Document))
  afterRabbitholeSplittedText : List Document → StateM W (List Document)
  beforeRabbitholeStoresDocuments : List Document → StateM W (List Document)
  time : StateM W Rat
  percRead : Nat → Nat → String
  beforeRabbitholeInsertMemory : Document → StateM W Document
  embedDocuments : String → StateM W (Except String V)
  upsert : StateM W (Except String Bool)
  uuid4 : Hole ι V W → ι
  afterRabbitholeStoredDocuments : String → List (Option (ι × Point V)) → StateM W Unit

/-- Code that does not know the memory. -/
def aside (c : StateM W α) : Digging ι V W α :=
  modifyGet (fun s => ((c.run s.rest).1, { s with rest := (c.run s.rest).2 }))

def raising (c : StateM W (Except String α)) : Digging ι V W α := do
  let result ← aside c
  Traced.lift result

section Model

variable [DecidableEq ι] (rabbits : Rabbits ι V W β φ)

def sendMessage (content : String) : Digging ι V W Unit := do
  raising (rabbits.sendWsMessage content)
  Traced.note (.sent content)

/-! ### From a file to chunks -/

def defaultTextSplitter : TextSplitter := ⟨256, 64⟩

/-- A size that is zero or missing overrides nothing. -/
def TextSplitter.resized (splitter : TextSplitter) (chunkSize chunkOverlap : Option Int) : TextSplitter where
  chunkSize := (chunkSize.filter (· ≠ 0)).getD splitter.chunkSize
  chunkOverlap := (chunkOverlap.filter (· ≠ 0)).getD splitter.chunkOverlap

def splitText (text : List Document) (chunkSize chunkOverlap : Option Int) :
    Digging ι V W (List Document) := do
  let text ← aside (rabbits.beforeRabbitholeSplitsText text)
  let splitter ← aside (rabbits.rabbitholeInstantiatesSplitter defaultTextSplitter)
  let docs ← raising (rabbits.splitDocuments (splitter.resized chunkSize chunkOverlap) text)
  aside (rabbits.afterRabbitholeSplittedText (docs.filter (fun d => d.pageContent.length > 10)))

def stringToDocs (fileBytes : β) (contentType : Option String) (chunkSize chunkOverlap : Option Int) :
    Digging ι V W (List Document) := do
  let handlers ← aside rabbits.rabbitholeInstantiatesParsers
  sendMessage rabbits "I'm parsing the content. Big content could require some minutes..."
  let superDocs ← raising (rabbits.parse handlers contentType fileBytes)
  sendMessage rabbits "Parsing completed. Now let's go with reading process..."
  splitText rabbits superDocs chunkSize chunkOverlap

def fileToDocs (file : IngestedFile β) (chunkSize chunkOverlap : Option Int) :
    Digging ι V W (List Document) := do
  match file with
  | .uploadFile filename fileBytes =>
    stringToDocs rabbits fileBytes (rabbits.guessType filename) chunkSize chunkOverlap
  | .str file =>
    if rabbits.isUrl file then do
      let (contentType, fileBytes) ← raising (rabbits.get file)
      let contentType := String.ofList (contentType.toList.takeWhile (· ≠ ';'))
      stringToDocs rabbits fileBytes (some contentType) chunkSize chunkOverlap
    else do
      let fileBytes ← raising (rabbits.readFile file)
      stringToDocs rabbits fileBytes (rabbits.guessType file) chunkSize chunkOverlap

/-! ### From chunks to points -/

/-- `metadata.items()` -/
def items : Json → Except String Fields
  | .obj fields => .ok fields
  | _ => .error "AttributeError"

/-- An upsert that is not completed returns no point. -/
def addPoint (point : Point V) : Digging ι V W (Option (ι × Point V)) := do
  let completed ← raising rabbits.upsert
  let s ← get
  let id := rabbits.uuid4 s
  set { s with declarative := s.declarative.set id point }
  Traced.note (.added id point completed)
  pure (if completed then some (id, point) else none)

/-- A notification every ten seconds. -/
def notify (source : String) (d total : Nat) (timeLastNotification : Rat) : Digging ι V W Rat := do
  let now ← aside rabbits.time
  if now - timeLastNotification > 10 then do
    let timeLastNotification ← aside rabbits.time
    sendMessage rabbits ("Read " ++ rabbits.percRead d total ++ "% of " ++ source)
    pure timeLastNotification
  else pure timeLastNotification

/-- The chunk as the last hook gets it. -/
def stamp (source : String) (metadata : Fields) (doc : Document) (time : Rat) : Document :=
  let default := setField (setField doc.metadata "source" (.str source)) "when" (.number (.float time))
  { doc with metadata := setFields default metadata }

/-- What is appended to the stored points. -/
def storeChunk (source : String) (metadata : Json) (doc : Document) :
    Digging ι V W (List (Option (ι × Point V))) := do
  let now ← aside rabbits.time
  let metadata ← Traced.lift (items metadata)
  let doc ← aside (rabbits.beforeRabbitholeInsertMemory (stamp source metadata doc now))
  if doc.pageContent ≠ "" then do
    let docEmbedding ← raising (rabbits.embedDocuments doc.pageContent)
    let storedPoint ← addPoint rabbits ⟨doc.pageContent, doc.metadata, docEmbedding⟩
    pure [storedPoint]
  else pure []

/-- One iteration, with the local variables of the loop. -/
def storeStep (source : String) (metadata : Json) (total : Nat)
    (locals : Rat × List (Option (ι × Point V))) (doc : Document × Nat) :
    Digging ι V W (Rat × List (Option (ι × Point V))) := do
  let timeLastNotification ← notify rabbits source doc.2 total locals.1
  let storedPoint ← storeChunk rabbits source metadata doc.1
  pure (timeLastNotification, locals.2 ++ storedPoint)

def finishedReading (source : String) (thoughts : Nat) : String :=
  "Finished reading " ++ source ++ ", I made " ++ toString thoughts ++ " thoughts on it."

/-- `RabbitHole.store_documents`. -/
def digDocuments (docs : List Document) (source : String) (metadata : Json) : Digging ι V W Unit := do
  let docs ← aside (rabbits.beforeRabbitholeStoresDocuments docs)
  let timeLastNotification ← aside rabbits.time
  let (_, storedPoints) ←
    docs.zipIdx.foldlM (storeStep rabbits source metadata docs.length) (timeLastNotification, [])
  aside (rabbits.afterRabbitholeStoredDocuments source storedPoints)
  Traced.note (.stored source storedPoints)
  sendMessage rabbits (finishedReading source docs.length)

def IngestedFile.name : IngestedFile β → String
  | .uploadFile filename _ => filename
  | .str file => file

def ingestFile (file : IngestedFile β) (chunkSize chunkOverlap : Option Int) (metadata : Json) :
    Digging ι V W Unit := do
  let docs ← fileToDocs rabbits file chunkSize chunkOverlap
  digDocuments rabbits docs file.name metadata

/-! ### What is stored -/

def HoleEvent.addition? : HoleEvent ι V → Option (ι × Point V)
  | .added id point _ => some (id, point)
  | _ => none

/-- What `add_point` returns. -/
def HoleEvent.answer? : HoleEvent ι V → Option (Option (ι × Point V))
  | .added id point completed => some (if completed then some (id, point) else none)
  | _ => none

def HoleEvent.told? : HoleEvent ι V → Option (String × List (Option (ι × Point V)))
  | .stored source points => some (source, points)
  | _ => none

def additions (trace : List (HoleEvent ι V)) : List (ι × Point V) := trace.filterMap HoleEvent.addition?

/-- The points that were added, with `None` for those whose upsert is not completed. -/
def answered (trace : List (HoleEvent ι V)) : List (Option (ι × Point V)) :=
  trace.filterMap HoleEvent.answer?

/-- What the last hook is told. -/
def told (trace : List (HoleEvent ι V)) : List (String × List (Option (ι × Point V))) :=
  trace.filterMap HoleEvent.told?

/-- What becomes of a chunk: it is stamped, the hook changes it, and it is embedded unless it is empty. -/
def Shelved (source : String) (metadata : Json) (doc : Document) (points : List (ι × Point V)) : Prop :=
  ∃ fields w w', metadata = .obj fields ∧
    let time := (rabbits.time.run w).1
    let final := ((rabbits.beforeRabbitholeInsertMemory (stamp source fields doc time)).run w').1
    if final.pageContent = "" then points = []
    else ∃ id vector w'', ((rabbits.embedDocuments final.pageContent).run w'').1 = .ok vector ∧
      points = [(id, ⟨final.pageContent, final.metadata, vector⟩)]

/-- The code gives the value in some state. -/
def MayGive {α : Type} (c : StateM W α) (a : α) : Prop := ∃ w, (c.run w).1 = a

/-- What a file is read as. -/
def Contents (contentType : Option String) (fileBytes : β) : IngestedFile β → Prop
  | .uploadFile filename bytes => contentType = rabbits.guessType filename ∧ fileBytes = bytes
  | .str file =>
    if rabbits.isUrl file then ∃ header, MayGive (rabbits.get file) (.ok (header, fileBytes)) ∧
      contentType = some (String.ofList (header.toList.takeWhile (· ≠ ';')))
    else contentType = rabbits.guessType file ∧ MayGive (rabbits.readFile file) (.ok fileBytes)

/-- What the splitter makes of a text, without the short pieces. -/
def Split (text : List Document) (chunkSize chunkOverlap : Option Int) (docs : List Document) : Prop :=
  ∃ splitter chunks hooked, MayGive (rabbits.beforeRabbitholeSplitsText text) hooked ∧
    MayGive (rabbits.rabbitholeInstantiatesSplitter defaultTextSplitter) splitter ∧
    MayGive (rabbits.splitDocuments (splitter.resized chunkSize chunkOverlap) hooked) (.ok chunks) ∧
    MayGive (rabbits.afterRabbitholeSplittedText (chunks.filter (fun d => d.pageContent.length > 10))) docs

/-- What a file is cut into. -/
def Cut (file : IngestedFile β) (chunkSize chunkOverlap : Option Int) (docs : List Document) : Prop :=
  ∃ contentType fileBytes handlers superDocs, Contents rabbits contentType fileBytes file ∧
    MayGive rabbits.rabbitholeInstantiatesParsers handlers ∧
    MayGive (rabbits.parse handlers contentType fileBytes) (.ok superDocs) ∧
    Split rabbits superDocs chunkSize chunkOverlap docs

/-- The chunks that are to be stored, as the hook leaves them. -/
def Chunks (file : IngestedFile β) (chunkSize chunkOverlap : Option Int) (docs : List Document) : Prop :=
  ∃ cut, Cut rabbits file chunkSize chunkOverlap cut ∧
    MayGive (rabbits.beforeRabbitholeStoresDocuments cut) docs

/-- How far the chunks get: all of them are shelved and the plugins are told, or an exception comes
before the rest is shelved. -/
def Digs (source : String) (metadata : Json) (docs : List Document) (r : Except String Unit)
    (t : List (HoleEvent ι V)) : Prop :=
  ∃ done rest pieces, docs = done ++ rest ∧ List.Forall₂ (Shelved rabbits source metadata) done pieces ∧
    additions t = pieces.flatten ∧
    (rest ≠ [] ∧ told t = [] ∧ (∃ error, r = .error error) ∨
      rest = [] ∧ told t = [(source, answered t)] ∧
        (r = .ok () → [.sent (finishedReading source docs.length)] <:+ t))

/-- A new id is not in use. -/
def Rabbits.Fresh : Prop := ∀ s, rabbits.uuid4 s ∉ s.declarative.keys

variable {rabbits}

/-- A list that is read off the points is the log of some events. -/
abbrev LogsAs {γ : Type} (view : Dict ι (Point V) → List γ) (emit : HoleEvent ι V → Option γ)
    (c : Digging ι V W α) : Prop :=
  Traced.Logs (fun s : Hole ι V W => view s.declarative) emit c

section Logs

variable {γ : Type} {view : Dict ι (Point V) → List γ} {emit : HoleEvent ι V → Option γ}

omit [DecidableEq ι] in
theorem aside_logs (c : StateM W α) : LogsAs view emit (aside c) :=
  fun s => (List.append_nil (view s.declarative)).symm

omit [DecidableEq ι] in
theorem raising_logs (c : StateM W (Except String α)) : LogsAs view emit (raising c) :=
  Traced.logs_bind (aside_logs c) (fun _ => Traced.logs_lift _)

variable (hsent : ∀ content, emit (.sent content) = none)
include hsent

omit [DecidableEq ι] in
theorem send_logs (content : String) : LogsAs view emit (sendMessage rabbits content) :=
  Traced.logs_bind (raising_logs _) (fun _ => Traced.logs_note (hsent content))

omit [DecidableEq ι] in
theorem file_to_docs_logs (file : IngestedFile β) (chunkSize chunkOverlap : Option Int) :
    LogsAs view emit (fileToDocs rabbits file chunkSize chunkOverlap) := by
  have hsplit (text : List Document) : LogsAs view emit (splitText rabbits text chunkSize chunkOverlap) :=
    Traced.logs_bind (aside_logs _) (fun _ => Traced.logs_bind (aside_logs _) (fun _ =>
      Traced.logs_bind (raising_logs _) (fun _ => aside_logs _)))
  have hstring (fileBytes : β) (contentType : Option String) :
      LogsAs view emit (stringToDocs rabbits fileBytes contentType chunkSize chunkOverlap) :=
    Traced.logs_bind (aside_logs _) (fun _ => Traced.logs_bind (send_logs hsent _) (fun _ =>
      Traced.logs_bind (raising_logs _) (fun _ => Traced.logs_bind (send_logs hsent _) (fun _ => hsplit _))))
  unfold fileToDocs
  cases file with
  | uploadFile filename fileBytes => exact hstring _ _
  | str file =>
    simp only
    split
    · exact Traced.logs_bind (raising_logs _) (fun _ => hstring _ _)
    · exact Traced.logs_bind (raising_logs _) (fun _ => hstring _ _)

omit [DecidableEq ι] in
theorem notify_logs (source : String) (d total : Nat) (timeLastNotification : Rat) :
    LogsAs view emit (notify rabbits source d total timeLastNotification) := by
  refine Traced.logs_bind (aside_logs _) (fun now => ?_)
  split
  · exact Traced.logs_bind (aside_logs _) (fun _ =>
      Traced.logs_bind (send_logs hsent _) (fun _ => Traced.logs_pure _))
  · exact Traced.logs_pure _

theorem step_logs (hadd : ∀ point, LogsAs view emit (addPoint rabbits point)) (source : String)
    (metadata : Json) (total : Nat) (locals : Rat × List (Option (ι × Point V)))
    (doc : Document × Nat) :
    LogsAs view emit (storeStep rabbits source metadata total locals doc) := by
  have hchunk : LogsAs view emit (storeChunk rabbits source metadata doc.1) := by
    refine Traced.logs_bind (aside_logs _) (fun now => Traced.logs_bind (Traced.logs_lift _) (fun fields =>
      Traced.logs_bind (aside_logs _) (fun doc => ?_)))
    split
    · exact Traced.logs_bind (raising_logs _) (fun _ =>
        Traced.logs_bind (hadd _) (fun _ => Traced.logs_pure _))
    · exact Traced.logs_pure _
  exact Traced.logs_bind (notify_logs hsent _ _ _ _) (fun _ =>
    Traced.logs_bind hchunk (fun _ => Traced.logs_pure _))

end Logs

theorem add_point_logs (hfresh : rabbits.Fresh) (point : Point V) :
    LogsAs Dict.entries HoleEvent.addition? (addPoint rabbits point) := by
  refine Traced.logs_bind (raising_logs _) (fun _ s => ?_)
  have hentries := Dict.entries_set_new s.declarative point (hfresh s)
  exact hentries

/-- Whatever is ingested and however it ends, the memory has grown by what was added. -/
theorem ingest_logs (hfresh : rabbits.Fresh) (file : IngestedFile β) (chunkSize chunkOverlap : Option Int)
    (metadata : Json) :
    LogsAs Dict.entries HoleEvent.addition? (ingestFile rabbits file chunkSize chunkOverlap metadata) := by
  have hsent (content : String) : HoleEvent.addition? (.sent content : HoleEvent ι V) = none := rfl
  refine Traced.logs_bind (file_to_docs_logs hsent file chunkSize chunkOverlap) (fun docs => ?_)
  refine Traced.logs_bind (aside_logs _) (fun docs => Traced.logs_bind (aside_logs _) (fun time =>
    Traced.logs_bind (Traced.logs_foldlM (step_logs hsent (add_point_logs hfresh) _ _ _) _ _) (fun _ =>
      Traced.logs_bind (aside_logs _) (fun _ =>
        Traced.logs_bind (Traced.logs_note rfl) (fun _ => send_logs hsent _)))))

/-! ### What a run stores -/

/-- Code that adds nothing and is told nothing. -/
structure Silent (c : Digging ι V W α) : Prop where
  additions : LogsAs (fun _ => []) HoleEvent.addition? c
  told : LogsAs (fun _ => []) HoleEvent.told? c

omit [DecidableEq ι] in
theorem Silent.ends {c : Digging ι V W α} (h : Silent c) (s : Hole ι V W) :
    c.Ends s (fun _ _ t => Documents.additions t = [] ∧ Documents.told t = []) :=
  ⟨(h.additions s).symm, (h.told s).symm⟩

omit [DecidableEq ι] in
theorem additions_append (t t' : List (HoleEvent ι V)) :
    additions (t ++ t') = additions t ++ additions t' := List.filterMap_append

omit [DecidableEq ι] in
theorem answered_append (t t' : List (HoleEvent ι V)) :
    answered (t ++ t') = answered t ++ answered t' := List.filterMap_append

omit [DecidableEq ι] in
theorem answered_nil {t : List (HoleEvent ι V)} (h : additions t = []) : answered t = [] := by
  rw [additions, List.filterMap_eq_nil_iff] at h
  rw [answered, List.filterMap_eq_nil_iff]
  intro event hevent
  cases event with
  | added id point completed => cases h _ hevent
  | _ => rfl

omit [DecidableEq ι] in
theorem ends_aside {c : StateM W α} {s : Hole ι V W}
    {P : Except String α → Hole ι V W → List (HoleEvent ι V) → Prop}
    (h : ∀ a w, c.run s.rest = (a, w) → P (.ok a) ⟨s.declarative, w⟩ []) : (aside c).Ends s P :=
  h _ _ rfl

omit [DecidableEq ι] in
theorem ends_raising {c : StateM W (Except String α)} {s : Hole ι V W}
    {P : Except String α → Hole ι V W → List (HoleEvent ι V) → Prop}
    (h : ∀ r w, c.run s.rest = (r, w) → P r ⟨s.declarative, w⟩ []) : (raising c).Ends s P := by
  apply Traced.ends_bind
  apply ends_aside
  intro r w hran
  exact Traced.ends_lift (h r w hran)

omit [DecidableEq ι] in
theorem send_ends (content : String) (s : Hole ι V W) :
    (sendMessage rabbits content).Ends s (fun r _ t => r = .ok () → t = [.sent content]) := by
  apply Traced.ends_bind
  apply ends_raising
  intro sent w _
  cases sent with
  | error error => exact nofun
  | ok done => exact fun _ => rfl

/-- A chunk is stored, or skipped, or its iteration raises before it is stored. -/
theorem chunk_ends (source : String) (metadata : Json) (doc : Document) (s : Hole ι V W) :
    (storeChunk rabbits source metadata doc).Ends s (fun r _ t => match r with
      | .ok out => Shelved rabbits source metadata doc (additions t) ∧ answered t = out
      | .error _ => additions t = []) := by
  apply Traced.ends_bind
  apply ends_aside
  intro now w₁ hnow
  apply Traced.ends_bind
  apply Traced.ends_lift
  cases hitems : items metadata with
  | error error => rfl
  | ok fields =>
    obtain rfl : metadata = .obj fields := by
      cases metadata <;> cases hitems
      rfl
    apply Traced.ends_bind
    apply ends_aside
    intro final w₂ hfinal
    have hshelved (out : List (ι × Point V)) (hout : if final.pageContent = "" then out = []
        else ∃ id vector w, ((rabbits.embedDocuments final.pageContent).run w).1 = .ok vector ∧
          out = [(id, ⟨final.pageContent, final.metadata, vector⟩)]) :
        Shelved rabbits source (.obj fields) doc out := by
      refine ⟨fields, s.rest, w₁, rfl, ?_⟩
      have hdoc : ((rabbits.beforeRabbitholeInsertMemory (stamp source fields doc
          (rabbits.time.run s.rest).1)).run w₁).1 = final := by
        rw [hnow]
        exact congrArg Prod.fst hfinal
      dsimp only
      rw [hdoc]
      exact hout
    dsimp only
    split
    · rename_i hcontent
      apply Traced.ends_bind
      apply ends_raising
      intro embedded w₃ hembedded
      cases embedded with
      | error error => rfl
      | ok vector =>
        apply Traced.ends_bind
        apply Traced.ends_bind
        apply ends_raising
        intro upserted w₄ _
        cases upserted with
        | error error => rfl
        | ok done =>
          refine ⟨hshelved _ ?_, rfl⟩
          rw [if_neg hcontent]
          exact ⟨_, vector, w₂, congrArg Prod.fst hembedded, rfl⟩
    · rename_i hcontent
      refine ⟨hshelved _ ?_, rfl⟩
      rw [if_pos (not_not.mp hcontent)]
      rfl

omit [DecidableEq ι] in
theorem notify_silent (source : String) (d total : Nat) (timeLastNotification : Rat) :
    Silent (notify rabbits source d total timeLastNotification) :=
  ⟨notify_logs (fun _ => rfl) _ _ _ _, notify_logs (fun _ => rfl) _ _ _ _⟩

/-- What the iteration of a chunk adds. -/
theorem step_ends (source : String) (metadata : Json) (total : Nat)
    (locals : Rat × List (Option (ι × Point V))) (doc : Document × Nat) (s : Hole ι V W) :
    (storeStep rabbits source metadata total locals doc).Ends s (fun r _ t => match r with
      | .ok locals' => Shelved rabbits source metadata doc.1 (additions t) ∧
          locals'.2 = locals.2 ++ answered t
      | .error _ => additions t = []) := by
  apply Traced.ends_bind
  apply ((notify_silent source doc.2 total locals.1).ends s).mono
  intro r s' t h
  obtain ⟨hnone, _⟩ := h
  cases r with
  | error error => exact hnone
  | ok time =>
    apply Traced.ends_bind
    apply (chunk_ends source metadata doc.1 s').mono
    intro r' s'' t' h'
    cases r' with
    | error error =>
      rw [additions_append, hnone]
      exact h'
    | ok out =>
      obtain ⟨hshelved, hout⟩ := h'
      apply Traced.ends_pure
      rw [List.append_nil, additions_append, hnone, answered_append, answered_nil hnone, hout]
      exact ⟨hshelved, rfl⟩

omit [DecidableEq ι] in
theorem told_append (t t' : List (HoleEvent ι V)) : told (t ++ t') = told t ++ told t' :=
  List.filterMap_append

theorem add_point_told (point : Point V) :
    LogsAs (fun _ => ([] : List (String × List (Option (ι × Point V))))) HoleEvent.told?
      (addPoint rabbits point) := by
  intro s
  apply Traced.ends_bind
  apply ends_raising
  intro r w _
  cases r <;> rfl

/-- The loop over the chunks. -/
theorem loop_ends (source : String) (metadata : Json) (docs : List Document) (time : Rat) (s : Hole ι V W) :
    (docs.zipIdx.foldlM (storeStep rabbits source metadata docs.length) (time, [])).Ends s (fun r _ t =>
      told t = [] ∧ ∃ done rest pieces, docs = done ++ rest ∧
        List.Forall₂ (Shelved rabbits source metadata) done pieces ∧ additions t = pieces.flatten ∧
        match r with
        | .ok locals => rest = [] ∧ locals.2 = answered t
        | .error _ => rest ≠ []) := by
  have hsilent (locals : Rat × List (Option (ι × Point V))) (doc : Document × Nat) :
      LogsAs (fun _ => []) HoleEvent.told? (storeStep rabbits source metadata docs.length locals doc) :=
    step_logs (fun _ => rfl) add_point_told _ _ _ _ _
  have hshelf (locals : Rat × List (Option (ι × Point V))) (doc : Document × Nat) (s : Hole ι V W) :
      (storeStep rabbits source metadata docs.length locals doc).Ends s (fun r _ t =>
        (∀ locals', r = .ok locals' → Shelved rabbits source metadata doc.1 (additions t)) ∧
          (∀ error, r = .error error → additions t = [])) := by
    apply (step_ends source metadata docs.length locals doc s).mono
    intro r s' t h
    cases r with
    | ok locals' => exact ⟨fun _ _ => h.1, nofun⟩
    | error error => exact ⟨nofun, fun _ _ => h⟩
  have hlocal (locals : Rat × List (Option (ι × Point V))) (doc : Document × Nat) (s : Hole ι V W)
      (before : List (HoleEvent ι V)) (hbefore : locals.2 = answered before) :
      (storeStep rabbits source metadata docs.length locals doc).Ends s (fun r _ t =>
        ∀ locals', r = .ok locals' → locals'.2 = answered (before ++ t)) := by
    apply (step_ends source metadata docs.length locals doc s).mono
    intro r s' t h locals' hlocals'
    subst hlocals'
    rw [h.2, hbefore, answered_append]
  let start : Rat × List (Option (ι × Point V)) := (time, [])
  have htold := Traced.logs_foldlM hsilent docs.zipIdx start s
  have hpieces := Traced.ends_foldlM (D := fun doc t => Shelved rabbits source metadata doc.1 (additions t))
    (F := fun _ t => additions t = []) hshelf docs.zipIdx start s
  have hlocals := Traced.ends_foldlM_keeps
    (I := fun (locals : Rat × List (Option (ι × Point V))) t => locals.2 = answered t) hlocal
    docs.zipIdx (show start.2 = answered ([] : List (HoleEvent ι V)) from rfl) s
  refine ((htold.and hpieces).and hlocals).mono ?_
  intro r s' t h
  obtain ⟨⟨htold, done, traces, rest, last, hdocs, hdone, ht, hok, herror⟩, hlocals⟩ := h
  have hsplit : docs = done.map Prod.fst ++ rest.map Prod.fst := by
    rw [← List.map_append, ← hdocs, List.zipIdx_map_fst]
  have hadditions : additions last = [] → additions t = (traces.map additions).flatten := by
    intro hlast
    rw [ht, additions_append, hlast, List.append_nil]
    exact List.filterMap_flatten
  have hshelved :
      List.Forall₂ (Shelved rabbits source metadata) (done.map Prod.fst) (traces.map additions) := by
    rw [List.forall₂_map_left_iff, List.forall₂_map_right_iff]
    exact hdone
  refine ⟨htold.symm, done.map Prod.fst, rest.map Prod.fst, traces.map additions, hsplit, hshelved, ?_⟩
  cases r with
  | ok locals =>
    obtain ⟨rfl, rfl⟩ := hok locals rfl
    exact ⟨hadditions rfl, rfl, hlocals locals rfl⟩
  | error error =>
    obtain ⟨doc, after, rfl, hlast⟩ := herror error rfl
    exact ⟨hadditions hlast, nofun⟩

theorem dig_ends (docs : List Document) (source : String) (metadata : Json) (s : Hole ι V W) :
    (digDocuments rabbits docs source metadata).Ends s (fun r _ t =>
      Digs rabbits source metadata ((rabbits.beforeRabbitholeStoresDocuments docs).run s.rest).1 r t) := by
  apply Traced.ends_bind
  apply ends_aside
  intro docs' w hdocs
  apply Traced.ends_bind
  apply ends_aside
  intro time w' _
  apply Traced.ends_bind
  apply (loop_ends source metadata docs' time _).mono
  intro r s' t h
  obtain ⟨htold, done, rest, pieces, hsplit, hshelved, hadditions, hr⟩ := h
  have hdocs' : docs' = ((rabbits.beforeRabbitholeStoresDocuments docs).run s.rest).1 := by rw [hdocs]
  cases r with
  | error error =>
    exact ⟨done, rest, pieces, hdocs' ▸ hsplit, hshelved, hadditions,
      Or.inl ⟨hr, htold, error, rfl⟩⟩
  | ok locals =>
    obtain ⟨hrest, hlocals⟩ := hr
    apply Traced.ends_bind
    apply ends_aside
    intro _ w₂ _
    apply Traced.ends_bind
    apply Traced.ends_note
    have hsilent : Silent (sendMessage rabbits (finishedReading source docs'.length)) :=
      ⟨send_logs (fun _ => rfl) _, send_logs (fun _ => rfl) _⟩
    apply ((hsilent.ends _).and (send_ends _ _)).mono
    intro r s'' t' h
    obtain ⟨⟨hnone, hquiet⟩, hsent⟩ := h
    simp only [List.nil_append]
    have hall : additions (t ++ (([.stored source locals.2] : List (HoleEvent ι V)) ++ t')) = additions t := by
      rw [additions_append, additions_append, hnone]
      exact List.append_nil _
    have hanswered :
        answered (t ++ (([.stored source locals.2] : List (HoleEvent ι V)) ++ t')) = answered t := by
      rw [answered_append, answered_append, answered_nil hnone]
      exact List.append_nil _
    refine ⟨done, rest, pieces, hdocs' ▸ hsplit, hshelved, hall.trans hadditions,
      Or.inr ⟨hrest, ?_, ?_⟩⟩
    · rw [hanswered, ← hlocals, told_append, told_append, htold, hquiet]
      rfl
    · intro hok
      rw [← hdocs', hsent hok]
      exact ⟨t ++ [.stored source locals.2], List.append_assoc _ _ _⟩

omit [DecidableEq ι] in
theorem aside_gives (c : StateM W α) : Traced.Gives (MayGive c) (aside c : Digging ι V W α) := by
  intro s
  apply ends_aside
  intro a w hran a' ha'
  cases ha'
  exact ⟨s.rest, congrArg Prod.fst hran⟩

omit [DecidableEq ι] in
theorem raising_gives (c : StateM W (Except String α)) :
    Traced.Gives (fun a => MayGive c (.ok a)) (raising c : Digging ι V W α) := by
  intro s
  apply ends_raising
  intro r w hran a ha
  exact ⟨s.rest, (congrArg Prod.fst hran).trans ha⟩

omit [DecidableEq ι] in
theorem split_gives (text : List Document) (chunkSize chunkOverlap : Option Int) :
    Traced.Gives (Split rabbits text chunkSize chunkOverlap)
      (splitText rabbits text chunkSize chunkOverlap) := by
  refine Traced.gives_bind (aside_gives _) (fun hooked hhooked => ?_)
  refine Traced.gives_bind (aside_gives _) (fun splitter hsplitter => ?_)
  refine Traced.gives_bind (raising_gives _) (fun chunks hchunks s => ?_)
  apply (aside_gives _ s).mono
  exact fun r s' t h docs hdocs => ⟨splitter, chunks, hooked, hhooked, hsplitter, hchunks, h docs hdocs⟩

omit [DecidableEq ι] in
theorem file_to_docs_gives (file : IngestedFile β) (chunkSize chunkOverlap : Option Int) :
    Traced.Gives (Cut rabbits file chunkSize chunkOverlap)
      (fileToDocs rabbits file chunkSize chunkOverlap) := by
  have hstring {contentType : Option String} {fileBytes : β}
      (hcontents : Contents rabbits contentType fileBytes file) :
      Traced.Gives (Cut rabbits file chunkSize chunkOverlap)
        (stringToDocs rabbits fileBytes contentType chunkSize chunkOverlap) := by
    refine Traced.gives_bind (aside_gives _) (fun handlers hhandlers => ?_)
    refine Traced.gives_bind (Traced.gives_any _) (fun _ _ => ?_)
    refine Traced.gives_bind (raising_gives _) (fun superDocs hparsed => ?_)
    refine Traced.gives_bind (Traced.gives_any _) (fun _ _ s => ?_)
    apply (split_gives superDocs chunkSize chunkOverlap s).mono
    exact fun r s' t h docs hdocs =>
      ⟨contentType, fileBytes, handlers, superDocs, hcontents, hhandlers, hparsed, h docs hdocs⟩
  unfold fileToDocs
  cases file with
  | uploadFile filename fileBytes => exact hstring ⟨rfl, rfl⟩
  | str file =>
    dsimp only
    split
    · rename_i hurl
      refine Traced.gives_bind (raising_gives _) (fun answer hanswer => hstring ?_)
      rw [Contents, if_pos hurl]
      exact ⟨answer.1, hanswer, rfl⟩
    · rename_i hpath
      refine Traced.gives_bind (raising_gives _) (fun fileBytes hread => hstring ?_)
      rw [Contents, if_neg hpath]
      exact ⟨rfl, hread⟩

variable (rabbits) in
/-- What a file is read as, from a state of the memory and of the plugins. -/
def reading (file : IngestedFile β) (chunkSize chunkOverlap : Option Int) (s : Hole ι V W) :
    Ran (Hole ι V W) (HoleEvent ι V) (List Document) :=
  (fileToDocs rabbits file chunkSize chunkOverlap).run s

/-- A file whose ingestion raises before its chunks are stored adds nothing. Otherwise it adds what becomes
of the chunks that it was read as. -/
theorem ingest_digs (file : IngestedFile β) (chunkSize chunkOverlap : Option Int) (metadata : Json)
    (s : Hole ι V W) :
    (ingestFile rabbits file chunkSize chunkOverlap metadata).Ends s (fun r _ t =>
      additions t = [] ∧ told t = [] ∧ (∃ error, r = .error error) ∨
        ∃ cut, (reading rabbits file chunkSize chunkOverlap s).result = .ok cut ∧
          Cut rabbits file chunkSize chunkOverlap cut ∧
          Digs rabbits file.name metadata ((rabbits.beforeRabbitholeStoresDocuments cut).run
            (reading rabbits file chunkSize chunkOverlap s).state.rest).1 r t) := by
  have hsilent : Silent (fileToDocs rabbits file chunkSize chunkOverlap) :=
    ⟨file_to_docs_logs (fun _ => rfl) _ _ _, file_to_docs_logs (fun _ => rfl) _ _ _⟩
  have hread : (fileToDocs rabbits file chunkSize chunkOverlap).Ends s (fun r s' _ =>
      (reading rabbits file chunkSize chunkOverlap s).result = r ∧
        (reading rabbits file chunkSize chunkOverlap s).state = s') := ⟨rfl, rfl⟩
  apply Traced.ends_bind
  apply (((hsilent.ends s).and (file_to_docs_gives file chunkSize chunkOverlap s)).and hread).mono
  intro r s' t h
  obtain ⟨⟨⟨hnone, hquiet⟩, hcut⟩, hresult, hstate⟩ := h
  cases r with
  | error error => exact Or.inl ⟨hnone, hquiet, error, rfl⟩
  | ok cut =>
    apply (dig_ends cut file.name metadata s').mono
    intro r' s'' t' h'
    obtain ⟨done, rest, pieces, hall, hshelved, hadditions, hr⟩ := h'
    refine Or.inr ⟨cut, hresult, hcut cut rfl, done, rest, pieces, hstate ▸ hall, hshelved, ?_, ?_⟩
    · rw [additions_append, hnone]
      exact hadditions
    · rw [told_append, hquiet, answered_append, answered_nil hnone, List.nil_append, List.nil_append, hstate]
      exact hr.imp_right (fun h => ⟨h.1, h.2.1, fun hok => (h.2.2 hok).trans (List.suffix_append _ _)⟩)

/-- The same in terms of the chunks that the file may be read as. -/
theorem ingest_chunks (file : IngestedFile β) (chunkSize chunkOverlap : Option Int) (metadata : Json)
    (s : Hole ι V W) :
    (ingestFile rabbits file chunkSize chunkOverlap metadata).Ends s (fun r _ t =>
      additions t = [] ∧ told t = [] ∧ (∃ error, r = .error error) ∨
        ∃ docs, Chunks rabbits file chunkSize chunkOverlap docs ∧
          Digs rabbits file.name metadata docs r t) := by
  apply (ingest_digs file chunkSize chunkOverlap metadata s).mono
  intro r s' t h
  rcases h with hnone | ⟨cut, _, hcut, hdigs⟩
  · exact Or.inl hnone
  · exact Or.inr ⟨_, ⟨cut, hcut, _, rfl⟩, hdigs⟩

/-- A file whose ingestion raises before its chunks are stored adds nothing. Otherwise the memory grows by
what becomes of the first chunks, in their order, and by nothing else; it does not raise only after all of
them, and then the plugins are told exactly what has been added. -/
theorem ingest_ends (hfresh : rabbits.Fresh) (file : IngestedFile β) (chunkSize chunkOverlap : Option Int)
    (metadata : Json) (s : Hole ι V W) :
    (ingestFile rabbits file chunkSize chunkOverlap metadata).Ends s (fun r s' t =>
      s'.declarative.entries = s.declarative.entries ++ additions t ∧
      (additions t = [] ∧ told t = [] ∧ (∃ error, r = .error error) ∨
        ∃ docs, Chunks rabbits file chunkSize chunkOverlap docs ∧
          Digs rabbits file.name metadata docs r t)) :=
  (ingest_logs hfresh file chunkSize chunkOverlap metadata s).and
    (ingest_chunks file chunkSize chunkOverlap metadata s)

end Model

/-- A reader of plain texts, for whom each line is a document. -/
def lineReader : Rabbits Nat Unit Rat (List String) Unit where
  guessType _ := some "text/plain"
  isUrl _ := false
  get _ := pure (.error "ConnectError")
  readFile _ := pure (.error "FileNotFoundError")
  sendWsMessage _ := pure (.ok ⟨⟩)
  rabbitholeInstantiatesParsers := pure (Dict.empty.set "text/plain" ⟨⟩)
  parse _ _ lines := pure (.ok (lines.map (fun line => ⟨line, []⟩)))
  beforeRabbitholeSplitsText := pure
  rabbitholeInstantiatesSplitter := pure
  splitDocuments _ docs := pure (.ok docs)
  afterRabbitholeSplittedText := pure
  beforeRabbitholeStoresDocuments := pure
  time := modifyGet (fun now => (now, now + 1))
  percRead d total := toString (d * 100 / total)
  beforeRabbitholeInsertMemory := pure
  embedDocuments text := pure (if text = "unreadable line" then .error "ValueError" else .ok ⟨⟩)
  upsert := pure (.ok true)
  uuid4 s := s.declarative.keys.foldr max 0 + 1
  afterRabbitholeStoredDocuments _ _ := pure ⟨⟩

theorem line_reader_fresh : lineReader.Fresh := by
  intro s h
  have hbound (l : List Nat) : ∀ n ∈ l, n ≤ l.foldr max 0 := by
    intro n hn
    induction l with
    | nil => cases hn
    | cons m l ih =>
      rcases List.mem_cons.mp hn with rfl | hn
      · exact Nat.le_max_left _ _
      · exact Nat.le_trans (ih hn) (Nat.le_max_right _ _)
  exact absurd (hbound _ _ h) (Nat.not_succ_le_self _)

/-- The first line is stored before the second one raises. -/
theorem half_ingested :
    (ingestFile lineReader (.uploadFile "notes.txt" ["a readable line", "unreadable line"]) none none
      (.obj [])).Ends ⟨.empty, 0⟩ (fun r s' t => r = .error "ValueError" ∧ (additions t).length = 1 ∧
        s'.declarative.entries = additions t ∧ (told t).length = 0) := by
  have h := ingest_ends line_reader_fresh (.uploadFile "notes.txt" ["a readable line", "unreadable line"])
    none none (.obj []) ⟨.empty, 0⟩
  obtain ⟨hgrown, -⟩ := h
  exact ⟨by decide +kernel, by decide +kernel, hgrown, by decide +kernel⟩

end CheshireCat.Documents
