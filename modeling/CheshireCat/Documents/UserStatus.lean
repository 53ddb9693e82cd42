import CheshireCat.Base.Json

namespace CheshireCat.Documents
open Base Json

/-- The folder `cat/static`. A file that is missing or cannot be decoded is `none`. -/
structure Static where
  userStatus : Option Json
  tags : Option Json

def loadJsonSafe (file : Option Json) (default : Json) : Json := file.getD default

def defaultTagObj : Fields :=
  [("status", .bool false), ("documents", .arr []), ("prompt_list", .arr []),
    ("selected_prompt", .str ""), ("prompt", .str "")]

/-- `str(t)` for the strings and the integers, of which the booleans are two. -/
def tagName : Json → Option String
  | .str s => some s
  | .number (.int n) => some (toString n)
  | .bool b => some (if b then "True" else "False")
  | _ => none

/-- `_load_tags_list`. It raises when the file holds no object, or when its
`tags` cannot be iterated over. -/
def loadTagsList (tags : Option Json) : Option (List String) :=
  match loadJsonSafe tags (.obj []) with
  | .obj data =>
    match (field? data "tags").getD (.arr []) with
    | .arr items => some (items.filterMap tagName)
    | .str s => some (s.toList.map String.singleton)
    | .obj fields => some (fields.map Prod.fst)
    | _ => none
  | _ => none

/-- A field that is missing from the tag object gets its default. -/
def completeField (t : Fields) (field : String × Json) : Fields :=
  if (field? t field.1).isSome then t else setField t field.1 field.2

def ensureTag (tagmap : Fields) (tag : String) : Fields :=
  match field? tagmap tag with
  | some (.obj t) => setField tagmap tag (.obj (defaultTagObj.foldl completeField t))
  | _ => setField tagmap tag (.obj defaultTagObj)

def ensureUserStatusSchema (userStatus : Fields) (tags : List String) : Fields :=
  userStatus.map (fun p => (p.1, .obj (tags.foldl ensureTag (fieldsOf (some p.2)))))

def loadUserStatusWithSchema (static : Static) : Option Fields :=
  match loadTagsList static.tags, loadJsonSafe static.userStatus (.obj []) with
  | some tags, .obj userStatus => some (ensureUserStatusSchema userStatus tags)
  | _, _ => none

/-- `isinstance(obj, dict) and obj.get("status", False)`. -/
def isActive : Json → Bool
  | .obj t => ((field? t "status").getD (.bool false)).truthy
  | _ => false

def activeTags (tagsForUser : Fields) : List String :=
  (tagsForUser.filter (fun p => isActive p.2)).map Prod.fst

/-- The tags that are active for the user. `none` when a file has a shape that
makes the reading raise. -/
def Static.activeTags (static : Static) (user : String) : Option (List String) :=
  (loadUserStatusWithSchema static).map
    (fun status => Documents.activeTags (fieldsOf (field? status user)))

/-- One active tag of the `mutator`: the source is appended to its documents. -/
def addToTag (source : String) (userMap : Json) (tag : String) : Option Json :=
  match userMap with
  | .obj tagmap =>
    match (field? tagmap tag).getD (.obj defaultTagObj) with
    | .obj tagObj =>
      let docsList := match (field? tagObj "documents").getD (.arr []) with
        | .arr docs => docs
        | _ => []
      let docsList := if .str source ∈ docsList then docsList else docsList ++ [.str source]
      some (.obj (setField tagmap tag (.obj (setField tagObj "documents" (.arr docsList)))))
    | _ => none
  | _ => none

/-- The `mutator` of `before_rabbithole_stores_documents` for one chunk. -/
def addSource (user : String) (activeTags : List String) (source : String) : Json → Option Json
  | .obj state =>
    (activeTags.foldlM (addToTag source) ((field? state user).getD (.obj []))).map
      (fun userMap => .obj (setField state user userMap))
  | _ => none

/-- `_update_user_status_atomic`, with no other writer. It raises when the mutator does. -/
def Static.updateUserStatus (static : Static) (mutator : Json → Option Json) : Option Static :=
  (mutator (loadJsonSafe static.userStatus (.obj []))).map
    (fun newData => { static with userStatus := some newData })

/-- What `aggiorna_users_tags` makes of the file. -/
def aggiornaUsersTags (users : List String) (tags : Option Json) : Json → Option Json
  | .obj userStatus =>
    (loadTagsList tags).map (fun tags => .obj (users.foldl (fun status username =>
      let tagmap := fieldsOf (field? status username)
      setField status username (.obj (tags.foldl ensureTag tagmap))) userStatus))
  | _ => none

end CheshireCat.Documents
