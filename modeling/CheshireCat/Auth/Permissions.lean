import CheshireCat.Base.Dict

namespace CheshireCat.Auth
open Base

inductive AuthResource where
  | status
  | memory
  | conversation
  | settings
  | llm
  | embedder
  | authHandler
  | users
  | upload
  | plugins
  | static
deriving DecidableEq

inductive AuthPermission where
  | write
  | edit
  | list
  | read
  | delete
deriving DecidableEq

/-- `list(AuthResource)`. -/
def AuthResource.all : List AuthResource :=
  [.status, .memory, .conversation, .settings, .llm, .embedder, .authHandler, .users, .upload,
    .plugins, .static]

/-- `list(AuthPermission)`. -/
def AuthPermission.all : List AuthPermission := [.write, .edit, .list, .read, .delete]

abbrev Permissions := Dict AuthResource (List AuthPermission)

def getFullPermissions : Permissions :=
  AuthResource.all.foldl (fun perms res => perms.set res AuthPermission.all) Dict.empty

/-- The default permissions of a new user. -/
def getBasePermissions : Permissions :=
  Dict.ofList [(.status, [.read]), (.memory, [.read, .list]),
    (.conversation, [.write, .edit, .list, .read, .delete]), (.static, [.read])]

/-- `res in perms.keys() and perm in perms[res]`. -/
def grants (perms : Permissions) (res : AuthResource) (perm : AuthPermission) : Bool :=
  match perms.get? res with
  | some granted => perm ∈ granted
  | none => false

theorem full_grants (res : AuthResource) (perm : AuthPermission) :
    grants getFullPermissions res perm = true := by
  cases res <;> cases perm <;> decide

end CheshireCat.Auth
