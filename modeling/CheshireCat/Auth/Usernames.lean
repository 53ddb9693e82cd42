import CheshireCat.Auth.CoreAuthHandler

namespace CheshireCat.Auth
open Base

/-- No two stored users have the same username. -/
def UniqueNames (users : Users) : Prop :=
  ∀ id id' user user', users.get? id = some user → users.get? id' = some user' →
    user.username = user'.username → id = id'

/-- Nobody but the user of the given id has the name. -/
def FreeFor (users : Users) (userId name : String) : Prop :=
  ∀ id user, users.get? id = some user → id ≠ userId → user.username ≠ name

/-- A request that renames a stored user takes a name that no other user has. -/
def TakesFreeName (db : UsersDb) : UserRequest → Prop
  | .update userId user =>
    user.invalid = [] → userId ∈ db.users.keys → ∀ name, user.username = some name →
      FreeFor db.users userId name
  | _ => True

theorem UniqueNames.free {users : Users} (h : UniqueNames users) {id : String} {user : User}
    (hu : users.get? id = some user) : FreeFor users id user.username := by
  intro id' user' hu' hne hname
  exact hne (h id' id user' user hu' hu hname)

theorem UniqueNames.set {users : Users} (h : UniqueNames users) {userId : String} {user : User}
    (hfree : FreeFor users userId user.username) : UniqueNames (users.set userId user) := by
  intro id id' a b ha hb hname
  rw [Dict.get?_set] at ha hb
  split at ha
  · rename_i hid
    cases ha
    split at hb
    · rename_i hid'
      rw [hid, hid']
    · rename_i hid'
      exact absurd hname.symm (hfree id' b hb hid')
  · rename_i hid
    split at hb
    · cases hb
      exact absurd hname (hfree id a ha hid)
    · exact h id id' a b ha hb hname

theorem UniqueNames.erase {users : Users} (h : UniqueNames users) (userId : String) :
    UniqueNames (users.erase userId) := by
  intro id id' a b ha hb
  rw [Dict.get?_erase] at ha hb
  split at ha
  · cases ha
  · split at hb
    · cases hb
    · exact h id id' a b ha hb

theorem free_of_new {users : Users} {name : String}
    (hnew : name ∉ users.values.map User.username) (userId : String) :
    FreeFor users userId name := by
  intro id user hu _ hname
  exact hnew (List.mem_map.mpr ⟨user, Dict.mem_values_of_get? hu, hname⟩)

theorem initial_unique (env : Env) : UniqueNames (getUsers env none).users := by
  have hempty : UniqueNames (Dict.empty.set (env.uuid4 0) ⟨env.uuid4 0, "admin",
      env.hashPassword 0 "admin", getFullPermissions⟩) := by
    refine UniqueNames.set ?_ ?_
    · intro id id' a b ha
      cases ha
    · intro id a ha
      cases ha
  refine hempty.set ?_
  intro id a ha _ hname
  rw [Dict.get?_set] at ha
  split at ha
  · cases ha
    exact absurd (show "admin" = "user" from hname) (by decide)
  · cases ha

theorem updated_free {env : Env} {db : UsersDb} {userId : String} {user : UserUpdate}
    {stored : User} (hu : UniqueNames db.users) (hvalid : user.invalid = [])
    (hfound : db.users.get? userId = some stored) (hc : TakesFreeName db (.update userId user)) :
    FreeFor db.users userId (stored.updated env db.drawn user).username := by
  cases hname : user.username with
  | none =>
    simp only [User.updated, hname, Option.getD_none]
    exact hu.free hfound
  | some name =>
    simp only [User.updated, hname, Option.getD_some]
    exact hc hvalid ((db.users.mem_keys_iff userId).mpr ⟨stored, hfound⟩) name hname

/-- A request keeps the usernames unique exactly when it takes a free name. -/
theorem served_unique_iff (env : Env) {db : UsersDb} (hu : UniqueNames db.users)
    (request : UserRequest) :
    TakesFreeName db request ↔ UniqueNames (served env db request).users := by
  constructor
  · intro hc
    have hserved := served_cases env db request
    generalize served env db request = after at hserved
    cases hserved with
    | rejected => exact hu
    | created newUser _ hnew => exact hu.set (free_of_new hnew _)
    | updated userId user stored hvalid hfound =>
      exact hu.set (updated_free hu hvalid hfound hc)
    | deleted userId => exact hu.erase userId
  · intro h
    cases request with
    | create newUser => trivial
    | delete userId => trivial
    | update userId user =>
      intro hvalid hkey name hname id other hother hne htaken
      obtain ⟨stored, hfound⟩ := (db.users.mem_keys_iff userId).mp hkey
      have hserved : served env db (.update userId user) =
          ⟨db.users.set userId (stored.updated env db.drawn user), db.drawn + 1⟩ := by
        simp [served, serve, updateUser, hvalid, hfound]
      rw [hserved] at h
      refine hne (h id userId other _ ?_ (Dict.get?_set_self _ _ _) ?_)
      · rw [Dict.get?_set_other _ _ hne]
        exact hother
      · rw [htaken, User.updated, hname, Option.getD_some]

/-- `issue_jwt` issues to the one user of the name. -/
def IssuesToSingleUser (settings : Settings) (env : Env) (users : Users) : Prop :=
  ∀ now username password content,
    jwtContent settings env users now username password = some content →
      ∃ user, users.get? content.sub = some user ∧ user.username = username ∧
        ∀ id other, users.get? id = some other → other.username = username → id = content.sub

theorem UniqueNames.issues {users : Users} (h : UniqueNames users) (settings : Settings)
    (env : Env) : IssuesToSingleUser settings env users := by
  intro now username password content hcontent
  obtain ⟨-, user, huser, hname, -⟩ := jwt_content_some hcontent
  refine ⟨user, huser, hname, ?_⟩
  intro id other hother hsame
  exact h id content.sub other user hother huser (hsame.trans hname.symm)

/-- Over all requests, the usernames stay unique exactly when every renaming takes a free
name. -/
theorem usernames_unique_iff (settings : Settings) (env : Env) (requests : List UserRequest) :
    (∀ earlier, earlier <+: requests → ∀ db,
      run (fun db request => some (served env db request)) (getUsers env none) earlier = some db →
        UniqueNames db.users ∧ IssuesToSingleUser settings env db.users) ↔
      Meets (fun db request => some (served env db request)) TakesFreeName (getUsers env none)
        requests := by
  rw [← keeps_iff_meets (I := fun db => UniqueNames db.users) _ (initial_unique env)]
  · constructor
    · intro h earlier he db hdb
      exact (h earlier he db hdb).1
    · intro h earlier he db hdb
      have hu := h earlier he db hdb
      exact ⟨hu, hu.issues settings env⟩
  · intro db request hu
    rw [served_unique_iff env hu request]
    constructor
    · intro h t ht
      cases ht
      exact h
    · intro h
      exact h _ rfl

/-- Identifiers of growing length, and passwords that are stored as they are. -/
def plainEnv : Env where
  uuid4 n := String.ofList (List.replicate (n + 1) 'u')
  hashPassword _ password := password
  checkPassword password hashed := password = hashed

/-- The ordinary user renames himself to admin. -/
theorem renamed_to_admin :
    ¬ UniqueNames (served plainEnv (getUsers plainEnv none)
      (.update "uu" { username := some "admin" })).users := by
  intro h
  have hid := h "u" "uu" ⟨"u", "admin", "admin", getFullPermissions⟩
    ⟨"uu", "admin", "user", getBasePermissions⟩ (by decide) (by decide) rfl
  revert hid
  decide

end CheshireCat.Auth
