import CheshireCat.Base.Json
import CheshireCat.Base.Outcome

namespace CheshireCat.Form
open Base

inductive CatFormState where
  | incomplete
  | complete
  | waitConfirm
  | closed
deriving DecidableEq

abbrev FormData := Dict String Json

/-- An entry of `ValidationError.errors()`. -/
structure FieldError where
  loc : List String
  type : String
  msg : String
deriving DecidableEq

/-- How `model_getter()(**data).model_dump()` ends. -/
inductive Validation where
  | valid
  | invalid (errors : List FieldError)
  | raises (error : String)

/-- The calls of interest on a form, in order. The code keeps no such log and no
step reads it. -/
inductive FormEvent where
  | nextCalled (state : CatFormState)
  | confirmed (answer : Bool)
  | validated (model : FormData) (valid : Bool)
  | submitted (model : FormData)
deriving DecidableEq

structure CatForm where
  state : CatFormState := .incomplete
  model : FormData := .empty
  errors : List String := []
  missingFields : List String := []
  log : List FormEvent := []
deriving DecidableEq

/-- What the form class decides once: its `ask_confirm` flag. -/
structure FormClass where
  askConfirm : Bool

/-- What the LLM, the model and the methods of the form class do in one turn. The
first `check_exit_intent` is the one after a refused confirmation. -/
structure Turn where
  confirm : Except String Bool
  refusedExit : Except String Bool
  exit : Except String Bool
  extract : Except String Json
  model : FormData → Validation
  submit : FormData → Option String
  message : CatFormState → Option String

def CatForm.note (f : CatForm) (e : FormEvent) : CatForm := { f with log := f.log ++ [e] }

def nullFields : List Json :=
  [.null, .str "", .str "None", .str "null", .str "lower-case", .str "unknown", .str "missing"]

/-- `sanitize`. The LLM's JSON may be no object. -/
def sanitize : Json → Except String FormData
  | .obj fields => .ok (Dict.ofList (fields.filter (fun p => p.2 ∉ nullFields)))
  | _ => .error "AttributeError"

/-- One iteration over the validation errors. -/
def CatForm.collect (f : CatForm) (e : FieldError) : Outcome CatForm :=
  match e.loc with
  | [] => .raised "IndexError" f
  | fieldName :: _ =>
    if e.type = "missing" then
      .returned { f with missingFields := f.missingFields ++ [fieldName] }
    else
      let f := { f with errors := f.errors ++ [fieldName ++ ": " ++ e.msg] }
      if fieldName ∈ f.model.keys then .returned { f with model := f.model.erase fieldName }
      else .raised "KeyError" f

def CatForm.validate (turn : Turn) (f : CatForm) : Outcome CatForm :=
  let f := { f with missingFields := [], errors := [] }
  match turn.model f.model with
  | .valid => .returned { f.note (.validated f.model true) with state := .complete }
  | .raises error => .raised error (f.note (.validated f.model false))
  | .invalid errors =>
    (Outcome.loop CatForm.collect errors (f.note (.validated f.model false))).andThen
      (fun f => .returned { f with state := .incomplete })

def CatForm.update (turn : Turn) (f : CatForm) : Outcome CatForm :=
  match turn.extract with
  | .error error => .raised error f
  | .ok jsonDetails =>
    match sanitize jsonDetails with
    | .error error => .raised error f
    | .ok details => { f with model := f.model.update details }.validate turn

def CatForm.submit (turn : Turn) (f : CatForm) : Outcome CatForm :=
  let f := f.note (.submitted f.model)
  match turn.submit f.model with
  | none => .returned f
  | some error => .raised error f

def CatForm.message (turn : Turn) (f : CatForm) : Outcome CatForm :=
  match turn.message f.state with
  | none => .returned f
  | some error => .raised error f

/-- The last part of `next`, after the update. -/
def CatForm.conclude (cls : FormClass) (turn : Turn) (f : CatForm) : Outcome CatForm :=
  if f.state = .complete then
    if cls.askConfirm then { f with state := .waitConfirm }.message turn
    else { f with state := .closed }.submit turn
  else f.message turn

/-- `next` from the second `check_exit_intent` on. -/
def CatForm.proceed (cls : FormClass) (turn : Turn) (f : CatForm) : Outcome CatForm :=
  match turn.exit with
  | .error error => .raised error f
  | .ok exit =>
    let f := if exit then { f with state := .closed } else f
    (if f.state = .incomplete then f.update turn else .returned f).andThen
      (CatForm.conclude cls turn)

def CatForm.next (cls : FormClass) (turn : Turn) (f : CatForm) : Outcome CatForm :=
  if f.state = .waitConfirm then
    match turn.confirm with
    | .error error => .raised error f
    | .ok true => { f.note (.confirmed true) with state := .closed }.submit turn
    | .ok false =>
      let f := f.note (.confirmed false)
      match turn.refusedExit with
      | .error error => .raised error f
      | .ok true => { f with state := .closed }.proceed cls turn
      | .ok false => { f with state := .incomplete }.proceed cls turn
  else f.proceed cls turn

/-- A form instance, and whether it is the `active_form` of the working memory. -/
structure FormMemory where
  form : CatForm := {}
  active : Bool := true
deriving DecidableEq

/-- `FormAgent.execute`: what the form raises is only logged. -/
def execute (cls : FormClass) (m : FormMemory) (turn : Turn) : FormMemory :=
  if m.active then
    if m.form.state = .closed then { m with active := false }
    else { m with form := ((m.form.note (.nextCalled m.form.state)).next cls turn).state }
  else m

end CheshireCat.Form
