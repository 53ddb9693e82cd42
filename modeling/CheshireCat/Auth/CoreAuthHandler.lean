import CheshireCat.Auth.Users
import CheshireCat.Base.Json

namespace CheshireCat.Auth
open Base Json

/-- The environment variables that the handler reads. -/
structure Settings where
  apiKey : Option String
  apiKeyWs : Option String
  jwtSecret : String
  jwtAlgorithm : String
  jwtExpireMinutes : Rat

/-- `jwt_content`. The library encodes the expiry as whole seconds. -/
structure JwtContent where
  sub : String
  username : String
  permissions : Permissions
  exp : Int
deriving DecidableEq

/-- The JWT library. `decode` gives the payload of a token, at the time of the call, and
`none` where it raises. -/
structure Jwt where
  isJwt : String → Bool
  encode : JwtContent → (secret algorithm : String) → String
  decode : (token secret algorithm : String) → (now : Rat) → Option Fields

/-- What `AuthUserInfo` passes on. `extra` is the stored user. -/
structure AuthUserInfo where
  id : String
  name : String
  permissions : Permissions
  extra : Option User
deriving DecidableEq

inductive Protocol where
  | http
  | websocket
deriving DecidableEq

section
variable (jwt : Jwt) (settings : Settings)

/-- An exception in the `try` ends in `None`: a token that cannot be decoded, a payload
without the fields that are read, a name that is no string. -/
def authorizeUserFromJwt (users : Users) (now : Rat) (token : String) (res : AuthResource)
    (perm : AuthPermission) : Option AuthUserInfo :=
  match jwt.decode token settings.jwtSecret settings.jwtAlgorithm now with
  | none => none
  | some payload =>
    match field? payload "sub" with
    | some (.str sub) =>
      match users.get? sub with
      | none => none
      | some user =>
        if grants user.permissions res perm then
          match field? payload "username" with
          | some (.str username) => some ⟨sub, username, user.permissions, some user⟩
          | _ => none
        else none
    | _ => none

def authorizeHttpKey (userId : String) (apiKey httpKey : Option String) : Option AuthUserInfo :=
  if apiKey = httpKey then some ⟨userId, userId, getFullPermissions, none⟩ else none

def authorizeWebsocketKey (userId : String) (apiKey wsKey : Option String) :
    Option AuthUserInfo :=
  if apiKey = wsKey then some ⟨userId, userId, getBasePermissions, none⟩ else none

/-- `bool(key)`: an unset key is `None`. -/
def keySet (key : Option String) : Bool := key.any (fun k => k ≠ "")

/-- The resource and the permission are passed on, and not looked at. -/
def authorizeUserFromKey (protocol : Protocol) (userId : String) (apiKey : Option String)
    (_res : AuthResource) (_perm : AuthPermission) : Option AuthUserInfo :=
  if ¬ keySet settings.apiKey ∧ ¬ keySet settings.apiKeyWs then
    some ⟨userId, userId, getFullPermissions, none⟩
  else
    match protocol with
    | .websocket => authorizeWebsocketKey userId apiKey settings.apiKeyWs
    | .http => authorizeHttpKey userId apiKey settings.apiKey

def authorizeUserFromCredential (users : Users) (now : Rat) (protocol : Protocol)
    (credential : Option String) (res : AuthResource) (perm : AuthPermission)
    (userId : String := "user") : Option AuthUserInfo :=
  match credential with
  | some token =>
    if jwt.isJwt token then authorizeUserFromJwt jwt settings users now token res perm
    else authorizeUserFromKey settings protocol userId (some token) res perm
  | none => authorizeUserFromKey settings protocol userId none res perm

/-- The content of the token that `issue_jwt` signs: the first user with this name whose
password matches. -/
def jwtContent (env : Env) (users : Users) (now : Rat) (username password : String) :
    Option JwtContent :=
  (users.entries.find? (fun p =>
      p.2.username = username && env.checkPassword password p.2.password)).map
    (fun p =>
      { sub := p.1
        username := username
        permissions := p.2.permissions
        exp := (now + settings.jwtExpireMinutes * 60).floor })

def issueJwt (env : Env) (users : Users) (now : Rat) (username password : String) :
    Option String :=
  (jwtContent settings env users now username password).map
    (fun content => jwt.encode content settings.jwtSecret settings.jwtAlgorithm)

end

/-- What the JWT path returns comes from the payload and from the store. -/
theorem authorize_jwt_some {jwt : Jwt} {settings : Settings} {users : Users} {now : Rat}
    {token : String} {res : AuthResource} {perm : AuthPermission} {info : AuthUserInfo}
    (h : authorizeUserFromJwt jwt settings users now token res perm = some info) :
    ∃ payload user,
      jwt.decode token settings.jwtSecret settings.jwtAlgorithm now = some payload ∧
      field? payload "sub" = some (.str info.id) ∧
      field? payload "username" = some (.str info.name) ∧
      users.get? info.id = some user ∧ info.permissions = user.permissions ∧
      grants user.permissions res perm = true := by
  unfold authorizeUserFromJwt at h
  split at h
  · cases h
  · rename_i payload hdecode
    split at h
    · rename_i sub hsub
      split at h
      · cases h
      · rename_i user huser
        split at h
        · rename_i hgrants
          split at h
          · rename_i username hname
            cases h
            exact ⟨payload, user, hdecode, hsub, hname, huser, rfl, hgrants⟩
          · cases h
        · cases h
    · cases h

/-- A token is issued to a stored user of the name. -/
theorem jwt_content_some {settings : Settings} {env : Env} {users : Users} {now : Rat}
    {username password : String} {content : JwtContent}
    (h : jwtContent settings env users now username password = some content) :
    content.username = username ∧
      ∃ user, users.get? content.sub = some user ∧ user.username = username ∧
        content.permissions = user.permissions := by
  obtain ⟨⟨id, user⟩, hfind, rfl⟩ := Option.map_eq_some_iff.mp h
  have hname : user.username = username := by
    have hp := List.find?_some hfind
    simp only [Bool.and_eq_true, decide_eq_true_eq] at hp
    exact hp.1
  exact ⟨rfl, user, (users.get?_eq_some_iff id user).mpr (List.mem_of_find?_eq_some hfind), hname,
    rfl⟩

end CheshireCat.Auth
