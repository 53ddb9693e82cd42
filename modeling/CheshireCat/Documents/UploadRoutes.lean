import Mathlib.Data.List.Infix
import CheshireCat.Documents.RabbitHole

/-! The routes by which files come into the declarative memory. -/

namespace CheshireCat.Documents
open Base Json Memory

variable {ι V W β φ : Type}

/-- A file of a form. -/
structure UploadFile (β : Type) where
  filename : String
  contentType : Option String
  fileBytes : β

/-- A call of `ingest_file` that waits until the answer is sent. -/
structure Ingestion (β : Type) where
  file : IngestedFile β
  chunkSize : Option Int
  chunkOverlap : Option Int
  metadata : Json

structure UploadReply where
  filename : String
  contentType : Option String
  info : String
deriving DecidableEq

/-- The error of a route, or the exception that it leaves. -/
inductive UploadError where
  | http (statusCode : Nat) (error : String)
  | badUrl (statusCode : Nat) (error url : String)
  | raised (error : String)
deriving DecidableEq

/-- Why a `HEAD` request gets no response. -/
inductive HeadError where
  | requestError
  | other (error : String)

section Routes

variable (rabbits : Rabbits ι V W β φ) (loads : String → Except String Json)

def notSupported (contentType : Option String) (admittedTypes : List String) : UploadError :=
  .http 400 ("MIME type " ++ contentType.getD "None" ++ " not supported. Admitted types: " ++
    " - ".intercalate admittedTypes)

def UploadFile.reply (file : UploadFile β) : UploadReply :=
  ⟨file.filename, file.contentType, "File is being ingested asynchronously"⟩

/-- `content_type not in admitted_types` -/
def admits (admittedTypes : List String) (file : UploadFile β) : Bool :=
  (rabbits.guessType file.filename).any (fun contentType => contentType ∈ admittedTypes)

def uploadFile (file : UploadFile β) (chunkSize chunkOverlap : Option Int) (metadata : String) :
    StateM W (Except UploadError (UploadReply × List (Ingestion β))) := do
  let handlers ← rabbits.rabbitholeInstantiatesParsers
  if admits rabbits handlers.keys file then
    match loads metadata with
    | .error error => pure (.error (.raised error))
    | .ok metadata =>
      let task := ⟨.uploadFile file.filename file.fileBytes, chunkSize, chunkOverlap, metadata⟩
      pure (.ok (file.reply, [task]))
  else pure (.error (notSupported (rabbits.guessType file.filename) handlers.keys))

/-- `metadata_dict[filename] if filename in metadata_dict else {}` -/
def fileMetadata (metadataDict : Json) (filename : String) : Except String Json :=
  match metadataDict with
  | .obj fields => .ok ((field? fields filename).getD (.obj []))
  | .arr items => if .str filename ∈ items then .error "TypeError" else .ok (.obj [])
  | .str s => if filename.toList <:+: s.toList then .error "TypeError" else .ok (.obj [])
  | _ => .error "TypeError"

/-- One iteration over the files: the responses and the tasks so far. -/
def uploadStep (admittedTypes : List String) (chunkSize chunkOverlap : Option Int) (metadataDict : Json)
    (uploaded : Dict String UploadReply × List (Ingestion β)) (file : UploadFile β) :
    Except UploadError (Dict String UploadReply × List (Ingestion β)) :=
  if admits rabbits admittedTypes file then
    match fileMetadata metadataDict file.filename with
    | .error error => .error (.raised error)
    | .ok metadata =>
      let task := ⟨.uploadFile file.filename file.fileBytes, chunkSize, chunkOverlap, metadata⟩
      .ok (uploaded.1.set file.filename file.reply, uploaded.2 ++ [task])
  else .error (notSupported (rabbits.guessType file.filename) admittedTypes)

def uploadFiles (files : List (UploadFile β)) (chunkSize chunkOverlap : Option Int) (metadata : String) :
    StateM W (Except UploadError (Dict String UploadReply × List (Ingestion β))) := do
  let handlers ← rabbits.rabbitholeInstantiatesParsers
  match loads metadata with
  | .error error => pure (.error (.raised error))
  | .ok metadataDict =>
    pure (files.foldlM (uploadStep rabbits handlers.keys chunkSize chunkOverlap metadataDict) (.empty, []))

/-- The response of the `HEAD` request has a status code. -/
def uploadUrl (head : String → StateM W (Except HeadError Nat)) (url : String)
    (chunkSize chunkOverlap : Option Int) (metadata : Fields) :
    StateM W (Except UploadError (String × List (Ingestion β))) := do
  match ← head url with
  | .ok 200 => pure (.ok (url, [⟨.str url, chunkSize, chunkOverlap, .obj metadata⟩]))
  | .ok _ => pure (.error (.badUrl 400 "Invalid URL" url))
  | .error .requestError => pure (.error (.badUrl 400 "Unable to reach the URL" url))
  | .error (.other error) => pure (.error (.raised error))

/-- The task that a file of a batch becomes. -/
def Scheduled (admittedTypes : List String) (chunkSize chunkOverlap : Option Int) (metadataDict : Json)
    (file : UploadFile β) (task : Ingestion β) : Prop :=
  admits rabbits admittedTypes file = true ∧ ∃ metadata,
    fileMetadata metadataDict file.filename = .ok metadata ∧
    task = ⟨.uploadFile file.filename file.fileBytes, chunkSize, chunkOverlap, metadata⟩

variable [DecidableEq ι]

/-- After the answer the tasks run one after the other. The first exception ends them. -/
def backgroundTasks (tasks : List (Ingestion β)) : Digging ι V W Unit :=
  tasks.foldlM (fun _ task =>
    ingestFile rabbits task.file task.chunkSize task.chunkOverlap task.metadata) ⟨⟩

/-- What the run of a task adds: nothing, if it raises before anything is stored, or chunks of its file. -/
def Ingested (task : Ingestion β) (r : Except String Unit) (t : List (HoleEvent ι V)) : Prop :=
  additions t = [] ∧ told t = [] ∧ (∃ error, r = .error error) ∨
    ∃ docs, Chunks rabbits task.file task.chunkSize task.chunkOverlap docs ∧
      Digs rabbits task.file.name task.metadata docs r t

end Routes

section Batch

variable {rabbits : Rabbits ι V W β φ} {loads : String → Except String Json} {admittedTypes : List String}
  {chunkSize chunkOverlap : Option Int} {metadataDict : Json}

/-! ### What is scheduled -/

variable (rabbits admittedTypes chunkSize chunkOverlap metadataDict) in
/-- A file that becomes a task is answered. -/
theorem upload_step_cases (uploaded : Dict String UploadReply × List (Ingestion β)) (file : UploadFile β) :
    (∃ task, Scheduled rabbits admittedTypes chunkSize chunkOverlap metadataDict file task ∧
      uploadStep rabbits admittedTypes chunkSize chunkOverlap metadataDict uploaded file =
        .ok (uploaded.1.set file.filename file.reply, uploaded.2 ++ [task])) ∨
    (∃ error, uploadStep rabbits admittedTypes chunkSize chunkOverlap metadataDict uploaded file =
        .error error) ∧
      ∀ task, ¬ Scheduled rabbits admittedTypes chunkSize chunkOverlap metadataDict file task := by
  unfold uploadStep
  by_cases hadmits : admits rabbits admittedTypes file = true
  · rw [if_pos hadmits]
    cases hmetadata : fileMetadata metadataDict file.filename with
    | ok metadata => exact Or.inl ⟨_, ⟨hadmits, metadata, hmetadata, rfl⟩, rfl⟩
    | error error =>
      refine Or.inr ⟨⟨_, rfl⟩, ?_⟩
      intro task ⟨_, metadata, hfound, _⟩
      rw [hmetadata] at hfound
      cases hfound
  · rw [if_neg hadmits]
    exact Or.inr ⟨⟨_, rfl⟩, fun task h => hadmits h.1⟩

/-- The response to a name is that to the last file of the name. -/
def responseTo (files : List (UploadFile β)) (name : String) : Option UploadReply :=
  ((files.filter (fun file => file.filename = name)).getLast?).map UploadFile.reply

theorem response_to_cons (file : UploadFile β) (files : List (UploadFile β)) (name : String) :
    responseTo (file :: files) name =
      (responseTo files name).or (if file.filename = name then some file.reply else none) := by
  unfold responseTo
  by_cases hname : file.filename = name
  · rw [List.filter_cons_of_pos (by simpa using hname), if_pos hname, List.getLast?_cons]
    cases (files.filter (fun file => file.filename = name)).getLast? <;> rfl
  · rw [List.filter_cons_of_neg (by simpa using hname), if_neg hname, Option.or_none]

theorem uploads_scheduled {files : List (UploadFile β)}
    {uploaded uploaded' : Dict String UploadReply × List (Ingestion β)}
    (h : files.foldlM (uploadStep rabbits admittedTypes chunkSize chunkOverlap metadataDict) uploaded =
      .ok uploaded') :
    (∀ name, uploaded'.1.get? name = (responseTo files name).or (uploaded.1.get? name)) ∧
      ∃ tasks, uploaded'.2 = uploaded.2 ++ tasks ∧
        List.Forall₂ (Scheduled rabbits admittedTypes chunkSize chunkOverlap metadataDict) files tasks := by
  induction files generalizing uploaded with
  | nil =>
    cases h
    exact ⟨fun name => rfl, [], (List.append_nil _).symm, .nil⟩
  | cons file files ih =>
    rw [List.foldlM_cons] at h
    obtain ⟨task, htask, hstep⟩ | ⟨⟨error, hstep⟩, _⟩ :=
      upload_step_cases rabbits admittedTypes chunkSize chunkOverlap metadataDict uploaded file
    · rw [hstep] at h
      obtain ⟨hresponse, tasks, htasks, hfiles⟩ := ih h
      refine ⟨fun name => ?_, task :: tasks, ?_, .cons htask hfiles⟩
      · rw [hresponse, response_to_cons, Dict.get?_set, Option.or_assoc]
        congr 1
        by_cases hname : file.filename = name
        · simp [hname]
        · simp [hname, Ne.symm hname]
      · rw [htasks, List.append_assoc]
        rfl
    · rw [hstep] at h
      cases h

theorem uploads_refused {files : List (UploadFile β)}
    {uploaded : Dict String UploadReply × List (Ingestion β)} {error : UploadError}
    (h : files.foldlM (uploadStep rabbits admittedTypes chunkSize chunkOverlap metadataDict) uploaded =
      .error error) :
    ∃ file ∈ files, ∀ task,
      ¬ Scheduled rabbits admittedTypes chunkSize chunkOverlap metadataDict file task := by
  induction files generalizing uploaded with
  | nil => cases h
  | cons file files ih =>
    rw [List.foldlM_cons] at h
    obtain ⟨task, htask, hstep⟩ | ⟨_, hbad⟩ :=
      upload_step_cases rabbits admittedTypes chunkSize chunkOverlap metadataDict uploaded file
    · rw [hstep] at h
      obtain ⟨other, hother, hbad⟩ := ih h
      exact ⟨other, List.mem_cons_of_mem _ hother, hbad⟩
    · exact ⟨file, List.mem_cons_self, hbad⟩

/-! ### What is ingested -/

variable [DecidableEq ι]

theorem task_ends (task : Ingestion β) (s : Hole ι V W) :
    (ingestFile rabbits task.file task.chunkSize task.chunkOverlap task.metadata).Ends s (fun r _ t =>
      Ingested rabbits task r t) :=
  ingest_chunks task.file task.chunkSize task.chunkOverlap task.metadata s

/-- The tasks that are done, and the one that has raised. -/
theorem background_ends (hfresh : rabbits.Fresh) (tasks : List (Ingestion β)) (s : Hole ι V W) :
    (backgroundTasks rabbits tasks).Ends s (fun r s' t =>
      s'.declarative.entries = s.declarative.entries ++ additions t ∧
      ∃ done traces rest last, tasks = done ++ rest ∧
        List.Forall₂ (fun task t => Ingested rabbits task (.ok ⟨⟩) t) done traces ∧
        t = traces.flatten ++ last ∧ (∀ acc', r = .ok acc' → rest = [] ∧ last = []) ∧
        (∀ error, r = .error error → ∃ task after, rest = task :: after ∧
          ∃ error, Ingested rabbits task (.error error) last)) := by
  have hlogs := Traced.logs_foldlM (fun (_ : Unit) (task : Ingestion β) =>
    ingest_logs hfresh task.file task.chunkSize task.chunkOverlap task.metadata) tasks ⟨⟩ s
  have htasks := Traced.ends_foldlM
    (D := fun (task : Ingestion β) t => Ingested rabbits task (.ok ⟨⟩) t)
    (F := fun task t => ∃ error, Ingested rabbits task (.error error) t)
    (fun (_ : Unit) task s => (task_ends task s).mono (fun r s' t h =>
      ⟨fun acc' hok => hok ▸ h, fun error herror => ⟨error, herror ▸ h⟩⟩)) tasks ⟨⟩ s
  exact hlogs.and htasks

variable (rabbits chunkSize chunkOverlap) in
/-- What a file of a batch adds. -/
def Filed (admittedTypes : List String) (metadataDict : Json) (file : UploadFile β) (r : Except String Unit)
    (t : List (HoleEvent ι V)) : Prop :=
  ∃ task, Scheduled rabbits admittedTypes chunkSize chunkOverlap metadataDict file task ∧
    Ingested rabbits task r t

omit [DecidableEq ι] in
theorem files_filed {files : List (UploadFile β)} {done rest : List (Ingestion β)}
    {traces : List (List (HoleEvent ι V))}
    (hfiles : List.Forall₂ (Scheduled rabbits admittedTypes chunkSize chunkOverlap metadataDict) files
      (done ++ rest))
    (hdone : List.Forall₂ (fun task t => Ingested rabbits task (.ok ⟨⟩) t) done traces) :
    ∃ filed waiting, files = filed ++ waiting ∧
      List.Forall₂ (fun file t =>
        Filed rabbits chunkSize chunkOverlap admittedTypes metadataDict file (.ok ⟨⟩) t) filed traces ∧
      List.Forall₂ (Scheduled rabbits admittedTypes chunkSize chunkOverlap metadataDict) waiting rest := by
  induction hdone generalizing files with
  | nil => exact ⟨[], files, rfl, .nil, hfiles⟩
  | @cons task t done traces htask hdone ih =>
    cases hfiles with
    | @cons file _ files _ hfile hfiles =>
      obtain ⟨filed, waiting, rfl, hfiled, hwaiting⟩ := ih hfiles
      exact ⟨file :: filed, waiting, rfl, .cons ⟨task, hfile, htask⟩ hfiled, hwaiting⟩

/-- A batch is refused as a whole, or each of its files is answered and is to be ingested. The files are
ingested in their order, up to the first one that raises: what is before it is told and in the memory, and
what is after it is not. -/
theorem batch_ingested (hfresh : rabbits.Fresh) (files : List (UploadFile β)) (metadata : String) (w : W) :
    let admittedTypes := (rabbits.rabbitholeInstantiatesParsers.run w).1.keys
    match ((uploadFiles rabbits loads files chunkSize chunkOverlap metadata).run w).1 with
    | .error _ => ∀ metadataDict, loads metadata = .ok metadataDict → ∃ file ∈ files, ∀ task,
        ¬ Scheduled rabbits admittedTypes chunkSize chunkOverlap metadataDict file task
    | .ok (response, tasks) => ∃ metadataDict, loads metadata = .ok metadataDict ∧
        (∀ name, response.get? name = responseTo files name) ∧
        List.Forall₂ (Scheduled rabbits admittedTypes chunkSize chunkOverlap metadataDict) files tasks ∧
        ∀ s, (backgroundTasks rabbits tasks).Ends s (fun r s' t =>
          s'.declarative.entries = s.declarative.entries ++ additions t ∧
          ∃ done traces rest last, files = done ++ rest ∧ t = traces.flatten ++ last ∧
            List.Forall₂ (fun file t =>
              Filed rabbits chunkSize chunkOverlap admittedTypes metadataDict file (.ok ⟨⟩) t) done traces ∧
            (r = .ok ⟨⟩ → rest = [] ∧ last = []) ∧
            (∀ error, r = .error error → ∃ file after, rest = file :: after ∧ ∃ error,
              Filed rabbits chunkSize chunkOverlap admittedTypes metadataDict file (.error error) last)) := by
  intro admittedTypes
  have hran : ((uploadFiles rabbits loads files chunkSize chunkOverlap metadata).run w).1 =
      match loads metadata with
      | .error error => .error (.raised error)
      | .ok metadataDict => files.foldlM
          (uploadStep rabbits admittedTypes chunkSize chunkOverlap metadataDict) (.empty, []) := by
    unfold uploadFiles
    rw [StateT.run_bind]
    cases loads metadata <;> rfl
  rw [hran]
  cases hloads : loads metadata with
  | error error => exact nofun
  | ok metadataDict =>
    dsimp only
    cases huploads : files.foldlM (uploadStep rabbits admittedTypes chunkSize chunkOverlap metadataDict)
        ((.empty, []) : Dict String UploadReply × List (Ingestion β)) with
    | error error =>
      intro other hother
      cases hother
      exact uploads_refused huploads
    | ok uploaded =>
      obtain ⟨hresponse, tasks, htasks, hfiles⟩ := uploads_scheduled huploads
      refine ⟨metadataDict, rfl, fun name => ?_, htasks.symm ▸ hfiles, fun s => ?_⟩
      · rw [hresponse, Dict.get?_empty, Option.or_none]
      · rw [htasks, List.nil_append]
        apply (background_ends hfresh tasks s).mono
        intro r s' t h
        obtain ⟨hgrown, done, traces, rest, last, rfl, hdone, ht, hok, herror⟩ := h
        obtain ⟨filed, waiting, hsplit, hfiled, hwaiting⟩ := files_filed hfiles hdone
        refine ⟨hgrown, filed, traces, waiting, last, hsplit, ht, hfiled, fun h => ?_, fun error h => ?_⟩
        · obtain ⟨rfl, hlast⟩ := hok _ h
          cases hwaiting
          exact ⟨rfl, hlast⟩
        · obtain ⟨task, after, rfl, error', hraised⟩ := herror error h
          cases hwaiting with
          | @cons file _ files _ hfile _ => exact ⟨file, files, rfl, error', task, hfile, hraised⟩

/-- What an URL that answers is scheduled for is the ingestion of the URL alone. -/
theorem url_ingested (hfresh : rabbits.Fresh) {head : String → StateM W (Except HeadError Nat)}
    {url url' : String} {metadata : Fields} {w : W} {tasks : List (Ingestion β)}
    (h : ((uploadUrl head url chunkSize chunkOverlap metadata).run w).1 = .ok (url', tasks))
    (s : Hole ι V W) :
    ((head url).run w).1 = .ok 200 ∧ (backgroundTasks rabbits tasks).Ends s (fun r s' t =>
      s'.declarative.entries = s.declarative.entries ++ additions t ∧
      Ingested rabbits ⟨.str url, chunkSize, chunkOverlap, .obj metadata⟩ r t) := by
  have hanswer : ((head url).run w).1 = .ok 200 ∧
      tasks = [⟨.str url, chunkSize, chunkOverlap, .obj metadata⟩] := by
    unfold uploadUrl at h
    rw [StateT.run_bind] at h
    generalize (head url).run w = answer at h ⊢
    obtain ⟨answer, w'⟩ := answer
    dsimp only [bind] at h
    split at h
    · cases h
      exact ⟨rfl, rfl⟩
    · cases h
    · cases h
    · cases h
  obtain ⟨hhead, rfl⟩ := hanswer
  refine ⟨hhead, ?_⟩
  rw [backgroundTasks, List.foldlM_cons]
  apply Traced.ends_bind
  refine ((ingest_logs hfresh (.str url) chunkSize chunkOverlap (.obj metadata) s).and
    (ingest_chunks (.str url) chunkSize chunkOverlap (.obj metadata) s)).mono ?_
  intro r s' t hends
  cases r with
  | error error => exact hends
  | ok _ =>
    apply Traced.ends_pure
    rw [List.append_nil]
    exact hends

omit [DecidableEq ι] in
/-- A file alone is ingested like a batch of one, with its metadata under its name. -/
theorem upload_file_as_batch (file : UploadFile β) {metadata metadata' : String} {value : Json}
    (hvalue : loads metadata = .ok value) (hbatch : loads metadata' = .ok (.obj [(file.filename, value)]))
    (w : W) :
    ((uploadFile rabbits loads file chunkSize chunkOverlap metadata).run w).1.map Prod.snd =
      ((uploadFiles rabbits loads [file] chunkSize chunkOverlap metadata').run w).1.map Prod.snd := by
  have hfound : fileMetadata (.obj [(file.filename, value)]) file.filename = .ok value := by
    simp [fileMetadata, field?]
  have hstep (admittedTypes : List String) :
      ([file].foldlM (uploadStep rabbits admittedTypes chunkSize chunkOverlap (.obj [(file.filename, value)]))
        ((.empty, []) : Dict String UploadReply × List (Ingestion β))) =
      if admits rabbits admittedTypes file then .ok (Dict.empty.set file.filename file.reply,
        [⟨.uploadFile file.filename file.fileBytes, chunkSize, chunkOverlap, value⟩])
      else .error (notSupported (rabbits.guessType file.filename) admittedTypes) := by
    rw [List.foldlM_cons, uploadStep, hfound]
    split <;> rfl
  unfold uploadFile uploadFiles
  rw [StateT.run_bind, StateT.run_bind, hvalue, hbatch]
  simp only [hstep]
  cases rabbits.rabbitholeInstantiatesParsers.run w with
  | mk handlers w' =>
    dsimp only [bind]
    by_cases hadmits : admits rabbits handlers.keys file = true
    · rw [if_pos hadmits, if_pos hadmits]
      rfl
    · rw [if_neg hadmits, if_neg hadmits]
      rfl

end Batch

def twoNotes : List (UploadFile (List String)) :=
  [⟨"tea.txt", some "text/plain", ["a readable line"]⟩,
    ⟨"rain.txt", none, ["another readable line", "unreadable line", "a line too late"]⟩]

def noteResponse : Dict String UploadReply :=
  .ofList (twoNotes.map (fun file => (file.filename, file.reply)))

def noteTasks : List (Ingestion (List String)) :=
  twoNotes.map (fun file => ⟨.uploadFile file.filename file.fileBytes, none, none, .obj []⟩)

theorem notes_scheduled :
    ((uploadFiles lineReader (fun _ => .ok (.obj [])) twoNotes none none "{}").run 0).1 =
      .ok (noteResponse, noteTasks) := rfl

/-- Both files are answered. The last line of the second one is never stored. -/
theorem notes_ingested :
    noteResponse.get? "rain.txt" = some ⟨"rain.txt", none, "File is being ingested asynchronously"⟩ ∧
    (backgroundTasks lineReader noteTasks).Ends ⟨.empty, 0⟩ (fun r s' t => r = .error "ValueError" ∧
      s'.declarative.entries = additions t ∧ (additions t).length = 2 ∧ (told t).length = 1) := by
  have h := @batch_ingested _ _ _ _ _ lineReader (fun _ => .ok (.obj [])) none none _ line_reader_fresh
    twoNotes "{}" 0
  rw [notes_scheduled] at h
  obtain ⟨_, _, hresponse, _, hbackground⟩ := h
  obtain ⟨hgrown, _⟩ := hbackground ⟨.empty, 0⟩
  exact ⟨hresponse "rain.txt", by decide +kernel, hgrown, by decide +kernel, by decide +kernel⟩

end CheshireCat.Documents
