import CheshireCat.Auth.Permissions
import CheshireCat.Base.Runs

namespace CheshireCat.Auth
open Base

/-- An entry of the users setting. The password is hashed. -/
structure User where
  id : String
  username : String
  password : String
  permissions : Permissions
deriving DecidableEq

abbrev Users := Dict String User

/-- What comes from outside: the random identifiers, and bcrypt with its random salts. -/
structure Env where
  uuid4 : Nat → String
  hashPassword : Nat → String → String
  checkPassword : String → String → Bool

/-- The users setting, and the index at which the next request draws its random values. -/
structure UsersDb where
  users : Users
  drawn : Nat
deriving DecidableEq

structure UserCreate where
  username : String
  password : String
  permissions : Permissions := getBasePermissions

/-- A field that the request leaves out is `none`. -/
structure UserUpdate where
  username : Option String := none
  password : Option String := none
  permissions : Option Permissions := none

structure UserResponse where
  id : String
  username : String
  permissions : Permissions
deriving DecidableEq

def User.response (user : User) : UserResponse := ⟨user.id, user.username, user.permissions⟩

/-- A request that is turned down: the fields that pydantic finds wrong, or the error of
the endpoint. -/
inductive Rejection where
  | invalid (fields : List String)
  | http (statusCode : Nat) (error : String)
deriving DecidableEq

/-- `get_users`: the first call creates the admin and an ordinary user. -/
def getUsers (env : Env) (setting : Option UsersDb) : UsersDb :=
  match setting with
  | some db => db
  | none =>
    let adminId := env.uuid4 0
    let userId := env.uuid4 1
    { users := Dict.ofList
        [(adminId, ⟨adminId, "admin", env.hashPassword 0 "admin", getFullPermissions⟩),
          (userId, ⟨userId, "user", env.hashPassword 1 "user", getBasePermissions⟩)]
      drawn := 2 }

/-- The fields of a model that are shorter than their `min_length`. -/
def tooShort (fields : List (String × Option String × Nat)) : List String :=
  (fields.filter (fun f => f.2.1.any (fun value => value.length < f.2.2))).map Prod.fst

def UserCreate.invalid (newUser : UserCreate) : List String :=
  tooShort [("username", some newUser.username, 2), ("password", some newUser.password, 5)]

def UserUpdate.invalid (user : UserUpdate) : List String :=
  tooShort [("username", user.username, 2), ("password", user.password, 4)]

def createUser (env : Env) (newUser : UserCreate) (db : UsersDb) :
    Except Rejection (UserResponse × UsersDb) :=
  if newUser.invalid ≠ [] then .error (.invalid newUser.invalid)
  else if newUser.username ∈ db.users.values.map User.username then
    .error (.http 403 "Cannot duplicate user")
  else
    let newId := env.uuid4 db.drawn
    let user := ⟨newId, newUser.username, env.hashPassword db.drawn newUser.password,
      newUser.permissions⟩
    .ok (user.response, ⟨db.users.set newId user, db.drawn + 1⟩)

/-- `stored_user | user.model_dump(exclude_unset=True)`. -/
def User.updated (env : Env) (drawn : Nat) (stored : User) (user : UserUpdate) : User where
  id := stored.id
  username := user.username.getD stored.username
  password :=
    match user.password with
    | some password => if password = "" then password else env.hashPassword drawn password
    | none => stored.password
  permissions := user.permissions.getD stored.permissions

def updateUser (env : Env) (userId : String) (user : UserUpdate) (db : UsersDb) :
    Except Rejection (UserResponse × UsersDb) :=
  if user.invalid ≠ [] then .error (.invalid user.invalid)
  else
    match db.users.get? userId with
    | none => .error (.http 404 "User not found")
    | some stored =>
      let updated := stored.updated env db.drawn user
      .ok (updated.response, ⟨db.users.set userId updated, db.drawn + 1⟩)

def deleteUser (userId : String) (db : UsersDb) : Except Rejection (UserResponse × UsersDb) :=
  match db.users.get? userId with
  | none => .error (.http 404 "User not found")
  | some user => .ok (user.response, { db with users := db.users.erase userId })

inductive UserRequest where
  | create (newUser : UserCreate)
  | update (userId : String) (user : UserUpdate)
  | delete (userId : String)

def serve (env : Env) (db : UsersDb) :
    UserRequest → Except Rejection (UserResponse × UsersDb)
  | .create newUser => createUser env newUser db
  | .update userId user => updateUser env userId user db
  | .delete userId => deleteUser userId db

/-- The store after the request. One that is turned down leaves it alone. -/
def served (env : Env) (db : UsersDb) (request : UserRequest) : UsersDb :=
  match serve env db request with
  | .ok (_, db) => db
  | .error _ => db

/-- What a request leaves of the store. -/
inductive Served (env : Env) (db : UsersDb) : UserRequest → UsersDb → Prop where
  | rejected (request : UserRequest) : Served env db request db
  | created (newUser : UserCreate) (valid : newUser.invalid = [])
      (new : newUser.username ∉ db.users.values.map User.username) :
      Served env db (.create newUser)
        ⟨db.users.set (env.uuid4 db.drawn)
          ⟨env.uuid4 db.drawn, newUser.username, env.hashPassword db.drawn newUser.password,
            newUser.permissions⟩, db.drawn + 1⟩
  | updated (userId : String) (user : UserUpdate) (stored : User) (valid : user.invalid = [])
      (found : db.users.get? userId = some stored) :
      Served env db (.update userId user)
        ⟨db.users.set userId (stored.updated env db.drawn user), db.drawn + 1⟩
  | deleted (userId : String) (stored : User) (found : db.users.get? userId = some stored) :
      Served env db (.delete userId) { db with users := db.users.erase userId }

theorem served_cases (env : Env) (db : UsersDb) (request : UserRequest) :
    Served env db request (served env db request) := by
  unfold served
  cases request with
  | create newUser =>
    rw [serve, createUser]
    split
    · rename_i he
      split at he
      · cases he
      · split at he
        · cases he
        · rename_i hvalid hnew
          cases he
          exact .created newUser (not_not.mp hvalid) hnew
    · exact .rejected _
  | update userId user =>
    rw [serve, updateUser]
    split
    · rename_i he
      split at he
      · cases he
      · rename_i hvalid
        split at he
        · cases he
        · rename_i stored hfound
          cases he
          exact .updated userId user stored (not_not.mp hvalid) hfound
    · exact .rejected _
  | delete userId =>
    rw [serve, deleteUser]
    split
    · rename_i he
      split at he
      · cases he
      · rename_i stored hfound
        cases he
        exact .deleted userId stored hfound
    · exact .rejected _

/-- A request stores no other identifier than those that were there and one that it draws. -/
theorem served_keys (env : Env) (db : UsersDb) (request : UserRequest) :
    db.drawn ≤ (served env db request).drawn ∧ ∀ id ∈ (served env db request).users.keys,
      id ∈ db.users.keys ∨ (id = env.uuid4 db.drawn ∧ db.drawn < (served env db request).drawn) := by
  have hserved := served_cases env db request
  generalize served env db request = after at hserved
  cases hserved with
  | rejected => exact ⟨Nat.le_refl _, fun id hid => Or.inl hid⟩
  | created newUser _ _ =>
    refine ⟨Nat.le_succ _, fun id hid => ?_⟩
    rcases (Dict.mem_keys_set _ _ _ _).mp hid with hnew | hold
    · exact Or.inr ⟨hnew, Nat.lt_succ_self _⟩
    · exact Or.inl hold
  | updated userId user stored _ hfound =>
    refine ⟨Nat.le_succ _, fun id hid => ?_⟩
    rcases (Dict.mem_keys_set _ _ _ _).mp hid with rfl | hold
    · exact Or.inl ((db.users.mem_keys_iff id).mpr ⟨stored, hfound⟩)
    · exact Or.inl hold
  | deleted userId =>
    refine ⟨Nat.le_refl _, fun id hid => Or.inl ?_⟩
    obtain ⟨user, huser⟩ := (Dict.mem_keys_iff _ _).mp hid
    rw [Dict.get?_erase] at huser
    split at huser
    · cases huser
    · exact (db.users.mem_keys_iff id).mpr ⟨user, huser⟩

end CheshireCat.Auth
