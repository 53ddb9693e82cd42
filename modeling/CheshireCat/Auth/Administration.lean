import CheshireCat.Auth.Tokens
import CheshireCat.Base.Replace

/-! Who can change what the users may do. -/

namespace CheshireCat.Auth
open Base Json

/-! ### The connection -/

def bearer : List Char := ['B', 'e', 'a', 'r', 'e', 'r', ' ']

/-- The user id and the token of a request. The names of the headers are in lower case. -/
def extractCredentials (headers : Dict String String) : String × Option String :=
  let userId := (headers.get? "user_id").getD "user"
  let token := (headers.get? "authorization").map (fun token =>
    if token ≠ "" ∧ bearer <:+: token.toList then String.ofList (replaceAll bearer [] token.toList)
    else token)
  let token := if token.getD "" = "" then headers.get? "access_token" else token
  (userId, if token = some "" then none else token)

/-- The auth handler of a plugin. -/
abbrev CustomAuthHandler :=
  Option String → AuthResource → AuthPermission → (userId : String) → Option AuthUserInfo

/-- `CoreOnlyAuthHandler` -/
def coreOnly : CustomAuthHandler := fun _ _ _ _ => none

section
variable (jwt : Jwt) (settings : Settings) (env : Env) (custom : CustomAuthHandler)

/-- The user for whom an HTTP request is executed, if it is. The local identity provider is asked first. -/
def authorizeConnection (users : Users) (now : Rat) (headers : Dict String String) (res : AuthResource)
    (perm : AuthPermission) : Option AuthUserInfo :=
  (authorizeUserFromCredential jwt settings users now .http (extractCredentials headers).2 res perm
    (extractCredentials headers).1).or
      (custom (extractCredentials headers).2 res perm (extractCredentials headers).1)

/-- The permission on the users that the endpoint asks for. -/
def UserRequest.permission : UserRequest → AuthPermission
  | .create _ => .write
  | .update _ _ => .edit
  | .delete _ => .delete

inductive AuthEvent where
  | request (headers : Dict String String) (request : UserRequest)
  | authToken (username password : String)
  | clock (time : Rat)

def authStep (s : Idp) : AuthEvent → Option Idp
  | .request headers request =>
    if (authorizeConnection jwt settings custom s.db.users s.now headers .users
        request.permission).isSome then
      idpStep jwt settings env s (.request request)
    else some s
  | .authToken username password => idpStep jwt settings env s (.issue username password)
  | .clock time => idpStep jwt settings env s (.clock time)

/-! ### Where permissions come from -/

def Holds (users : Users) (id : String) (res : AuthResource) (perm : AuthPermission) : Prop :=
  ∃ user, users.get? id = some user ∧ grants user.permissions res perm = true

/-- The request gives the permission to the user. -/
def Gives (db : UsersDb) (id : String) (res : AuthResource) (perm : AuthPermission) : UserRequest → Prop
  | .create newUser => env.uuid4 db.drawn = id ∧ grants newUser.permissions res perm = true
  | .update userId user =>
    userId = id ∧ ∃ permissions, user.permissions = some permissions ∧ grants permissions res perm = true
  | .delete _ => False

/-- The request has the API key, or there is no key at all. -/
def HasKey (headers : Dict String String) : Prop :=
  isJwtCredential jwt (extractCredentials headers).2 = false ∧
    (¬ keySet settings.apiKey ∧ ¬ keySet settings.apiKeyWs ∨ (extractCredentials headers).2 = settings.apiKey)

/-- The plugin lets the request in. -/
def LetIn (headers : Dict String String) (res : AuthResource) (perm : AuthPermission) : Prop :=
  ∃ info, custom (extractCredentials headers).2 res perm (extractCredentials headers).1 = some info

/-- The token of the request is valid, and the user its subject. -/
def Bears (now : Rat) (headers : Dict String String) (sub : String) : Prop :=
  ∃ token payload, (extractCredentials headers).2 = some token ∧
    jwt.decode token settings.jwtSecret settings.jwtAlgorithm now = some payload ∧
    field? payload "sub" = some (.str sub)

/-- The user has had the permission from the start, or was given it by somebody who came with a key or by way
of a plugin, or by a user entitled to do so. -/
inductive Entitled (start : Idp) : List AuthEvent → String → AuthResource → AuthPermission → Prop
  | initially {events : List AuthEvent} {id : String} {res : AuthResource} {perm : AuthPermission}
      (holds : Holds start.db.users id res perm) : Entitled start events id res perm
  | keyed {before after : List AuthEvent} {headers : Dict String String} {request : UserRequest} {mid : Idp}
      {id : String} {res : AuthResource} {perm : AuthPermission}
      (ran : run (authStep jwt settings env custom) start before = some mid)
      (gives : Gives env mid.db id res perm request)
      (key : HasKey jwt settings headers ∨ LetIn custom headers .users request.permission) :
      Entitled start (before ++ .request headers request :: after) id res perm
  | granted {before after : List AuthEvent} {headers : Dict String String} {request : UserRequest} {mid : Idp}
      {id sub : String} {res : AuthResource} {perm : AuthPermission}
      (ran : run (authStep jwt settings env custom) start before = some mid)
      (gives : Gives env mid.db id res perm request) (bears : Bears jwt settings mid.now headers sub)
      (entitled : Entitled start before sub .users request.permission) :
      Entitled start (before ++ .request headers request :: after) id res perm

end

variable {jwt : Jwt} {settings : Settings} {env : Env} {custom : CustomAuthHandler}

/-- What is held after a request was held before it or is given by it. -/
theorem served_holds {db : UsersDb} {request : UserRequest} {id : String} {res : AuthResource}
    {perm : AuthPermission} (h : Holds (served env db request).users id res perm) :
    Holds db.users id res perm ∨ Gives env db id res perm request := by
  obtain ⟨user, huser, hgrants⟩ := h
  have hserved := served_cases env db request
  generalize served env db request = after at hserved huser
  cases hserved with
  | rejected => exact Or.inl ⟨user, huser, hgrants⟩
  | created newUser _ _ =>
    rw [Dict.get?_set] at huser
    split at huser
    · rename_i hid
      cases huser
      exact Or.inr ⟨hid.symm, hgrants⟩
    · exact Or.inl ⟨user, huser, hgrants⟩
  | updated userId update stored _ hfound =>
    rw [Dict.get?_set] at huser
    split at huser
    · rename_i hid
      cases huser
      cases hpermissions : update.permissions with
      | none =>
        rw [User.updated, hpermissions] at hgrants
        exact Or.inl ⟨stored, hid ▸ hfound, hgrants⟩
      | some permissions =>
        rw [User.updated, hpermissions] at hgrants
        exact Or.inr ⟨hid.symm, permissions, hpermissions, hgrants⟩
    · exact Or.inl ⟨user, huser, hgrants⟩
  | deleted userId =>
    rw [Dict.get?_erase] at huser
    split at huser
    · cases huser
    · exact Or.inl ⟨user, huser, hgrants⟩

/-- Who is let in has a key, or is let in by the plugin, or has a token of a user with the permission. -/
theorem connection_cases {users : Users} {now : Rat} {headers : Dict String String} {res : AuthResource}
    {perm : AuthPermission}
    (h : (authorizeConnection jwt settings custom users now headers res perm).isSome = true) :
    HasKey jwt settings headers ∨ LetIn custom headers res perm ∨
      ∃ sub, Bears jwt settings now headers sub ∧ Holds users sub res perm := by
  obtain ⟨info, hinfo⟩ := Option.isSome_iff_exists.mp h
  rw [authorizeConnection] at hinfo
  rcases Option.or_eq_some_iff.mp hinfo with hcore | ⟨_, hcustom⟩
  · cases hjwt : isJwtCredential jwt (extractCredentials headers).2 with
    | false =>
      left
      refine ⟨hjwt, ?_⟩
      rw [authorize_credential_eq jwt settings users now .http _ res perm _ hjwt, authorizeUserFromKey] at hcore
      split at hcore
      · rename_i hnone
        exact Or.inl hnone
      · rw [authorizeHttpKey] at hcore
        split at hcore
        · rename_i hkey
          exact Or.inr hkey
        · cases hcore
    | true =>
      right
      right
      cases hcredential : (extractCredentials headers).2 with
      | none =>
        rw [hcredential] at hjwt
        cases hjwt
      | some token =>
        rw [hcredential] at hjwt hcore
        have htoken : jwt.isJwt token = true := hjwt
        rw [authorizeUserFromCredential, if_pos htoken] at hcore
        obtain ⟨payload, user, hdecode, hsub, _, huser, _, hgrants⟩ := authorize_jwt_some hcore
        exact ⟨info.id, ⟨token, payload, hcredential, hdecode, hsub⟩, user, huser, hgrants⟩
  · exact Or.inr (Or.inl ⟨info, hcustom⟩)

theorem Entitled.append {start : Idp} {events : List AuthEvent} {id : String} {res : AuthResource}
    {perm : AuthPermission} (h : Entitled jwt settings env custom start events id res perm)
    (more : List AuthEvent) : Entitled jwt settings env custom start (events ++ more) id res perm := by
  cases h with
  | initially holds => exact .initially holds
  | keyed ran gives key =>
    rw [List.append_assoc]
    exact .keyed ran gives key
  | granted ran gives bears entitled =>
    rw [List.append_assoc]
    exact .granted ran gives bears entitled

/-- What an event makes a user hold, a request gives him that was let in. -/
theorem step_holds {s t : Idp} {e : AuthEvent} (hstep : authStep jwt settings env custom s e = some t)
    {id : String} {res : AuthResource} {perm : AuthPermission} (h : Holds t.db.users id res perm) :
    Holds s.db.users id res perm ∨ ∃ headers request, e = .request headers request ∧
      Gives env s.db id res perm request ∧
      (authorizeConnection jwt settings custom s.db.users s.now headers .users request.permission).isSome =
        true := by
  cases e with
  | request headers request =>
    rw [authStep] at hstep
    split at hstep
    · rename_i hlet
      cases hstep
      rcases served_holds h with hheld | hgives
      · exact Or.inl hheld
      · exact Or.inr ⟨headers, request, rfl, hgives, hlet⟩
    · cases hstep
      exact Or.inl h
  | authToken username password =>
    rw [authStep, idpStep] at hstep
    split at hstep
    · cases hstep
      exact Or.inl h
    · cases hstep
      exact Or.inl h
  | clock time =>
    rw [authStep, idpStep] at hstep
    split at hstep
    · cases hstep
      exact Or.inl h
    · cases hstep

/-- No user ever comes by a permission on his own: it goes back, from request to request, to one who had it
from the start or to somebody with the key. -/
theorem permissions_traced {start : Idp} {events : List AuthEvent} {s : Idp}
    (hrun : run (authStep jwt settings env custom) start events = some s) {id : String} {res : AuthResource}
    {perm : AuthPermission} (h : Holds s.db.users id res perm) :
    Entitled jwt settings env custom start events id res perm := by
  induction events using List.reverseRecOn generalizing s id res perm with
  | nil =>
    cases hrun
    exact .initially h
  | append_singleton before e ih =>
    rw [run_append] at hrun
    obtain ⟨mid, hmid, hlast⟩ := Option.bind_eq_some_iff.mp hrun
    obtain ⟨t, hstep, ht⟩ := run_cons_some hlast
    cases ht
    rcases step_holds hstep h with hheld | ⟨headers, request, rfl, hgives, hlet⟩
    · exact (ih hmid hheld).append [e]
    · rcases connection_cases hlet with hkey | hcustom | ⟨sub, hbears, hsub⟩
      · exact .keyed hmid hgives (Or.inl hkey)
      · exact .keyed hmid hgives (Or.inr hcustom)
      · exact .granted hmid hgives hbears (ih hmid hsub)

def keyOnly : Settings := ⟨some "meow", none, "secret", "HS256", 1 / 20⟩

def adminHeaders : Dict String String :=
  Dict.empty.set "authorization" (String.ofList bearer ++ (issuedTo "u" getFullPermissions).token)

/-- The admin logs in and promotes the ordinary user. -/
def promotion : List AuthEvent :=
  [.authToken "admin" "admin", .request adminHeaders (.update "uu" { permissions := some getFullPermissions })]

theorem promotion_traced :
    ∃ s, run (authStep plainJwt keyOnly plainEnv coreOnly) (Idp.start plainEnv 0) promotion = some s ∧
      Holds s.db.users "uu" .plugins .delete ∧
      Entitled plainJwt keyOnly plainEnv coreOnly (Idp.start plainEnv 0) promotion "uu" .plugins .delete := by
  have hview : (run (authStep plainJwt keyOnly plainEnv coreOnly) (Idp.start plainEnv 0) promotion).map
      (fun s => (s.db.users.get? "uu").map (fun user => grants user.permissions .plugins .delete)) =
        some (some true) := by
    decide +kernel
  obtain ⟨s, hs, huser⟩ := Option.map_eq_some_iff.mp hview
  have hholds : Holds s.db.users "uu" .plugins .delete := Option.map_eq_some_iff.mp huser
  exact ⟨s, hs, hholds, permissions_traced hs hholds⟩

/-! ### Users who are deleted -/

/-- A token that decodes has the subject for whom it was signed. -/
def Signs (jwt : Jwt) : Prop :=
  ∀ (content : JwtContent) (secret algorithm : String) (now : Rat) (payload : Fields),
    jwt.decode (jwt.encode content secret algorithm) secret algorithm now = some payload →
      field? payload "sub" = some (.str content.sub)

/-- The identifiers that are stored have been drawn, and the tokens are signed. -/
structure Kept (jwt : Jwt) (settings : Settings) (env : Env) (s : Idp) : Prop where
  drawn : ∀ id ∈ s.db.users.keys, ∃ n < s.db.drawn, id = env.uuid4 n
  signed : ∀ t ∈ s.issued, t.token = jwt.encode t.content settings.jwtSecret settings.jwtAlgorithm

/-- The identifier has been drawn and is not stored any more. -/
structure Gone (env : Env) (id : String) (db : UsersDb) : Prop where
  absent : db.users.get? id = none
  used : ∃ n < db.drawn, id = env.uuid4 n

/-- What an event does to the identity provider. -/
theorem auth_step_cases {s t : Idp} {e : AuthEvent} (h : authStep jwt settings env custom s e = some t) :
    (∃ request, t = { s with db := served env s.db request }) ∨
    (∃ content user, s.db.users.get? content.sub = some user ∧
      t = { s with issued := s.issued ++
        [⟨jwt.encode content settings.jwtSecret settings.jwtAlgorithm, content⟩] }) ∨
    ∃ now, t = { s with now := now } := by
  cases e with
  | request headers request =>
    rw [authStep] at h
    split at h
    · cases h
      exact Or.inl ⟨request, rfl⟩
    · cases h
      exact Or.inr (Or.inr ⟨s.now, rfl⟩)
  | authToken username password =>
    rw [authStep, idpStep] at h
    split at h
    · rename_i content hcontent
      cases h
      obtain ⟨_, user, huser, _⟩ := jwt_content_some hcontent
      exact Or.inr (Or.inl ⟨content, user, huser, rfl⟩)
    · cases h
      exact Or.inr (Or.inr ⟨s.now, rfl⟩)
  | clock time =>
    rw [authStep, idpStep] at h
    split at h
    · cases h
      exact Or.inr (Or.inr ⟨time, rfl⟩)
    · cases h

theorem Kept.step {s t : Idp} (h : Kept jwt settings env s) {e : AuthEvent}
    (hstep : authStep jwt settings env custom s e = some t) : Kept jwt settings env t := by
  obtain ⟨request, rfl⟩ | ⟨content, user, _, rfl⟩ | ⟨now, rfl⟩ := auth_step_cases hstep
  · exact ⟨(served_drawn h.drawn request).2, h.signed⟩
  · refine ⟨h.drawn, fun t ht => ?_⟩
    rcases List.mem_append.mp ht with hold | hnew
    · exact h.signed t hold
    · rw [List.mem_singleton.mp hnew]
  · exact ⟨h.drawn, h.signed⟩

/-- Nobody else is ever given the identifier. -/
theorem Gone.served {db : UsersDb} (hids : Function.Injective env.uuid4) {id : String} (h : Gone env id db)
    (request : UserRequest) : Gone env id (served env db request) := by
  obtain ⟨n, hn, hid⟩ := h.used
  obtain ⟨hle, hkeys⟩ := served_keys env db request
  refine ⟨?_, n, hn.trans_le hle, hid⟩
  cases hfound : (Auth.served env db request).users.get? id with
  | none => rfl
  | some user =>
    rcases hkeys id ((Dict.mem_keys_iff _ _).mpr ⟨user, hfound⟩) with hold | ⟨hnew, _⟩
    · obtain ⟨stored, hstored⟩ := (Dict.mem_keys_iff _ _).mp hold
      rw [h.absent] at hstored
      cases hstored
    · exact absurd (hids (hid.symm.trans hnew)) (Nat.ne_of_lt hn)

/-- Once the user is gone he gets no tokens. -/
theorem Gone.step {s t : Idp} (hids : Function.Injective env.uuid4) {id : String} (h : Gone env id s.db)
    {e : AuthEvent} (hstep : authStep jwt settings env custom s e = some t) :
    Gone env id t.db ∧ ∀ issued ∈ t.issued, issued.content.sub = id → issued ∈ s.issued := by
  obtain ⟨request, rfl⟩ | ⟨content, user, huser, rfl⟩ | ⟨now, rfl⟩ := auth_step_cases hstep
  · exact ⟨h.served hids request, fun issued hissued _ => hissued⟩
  · refine ⟨h, fun issued hissued hsub => ?_⟩
    rcases List.mem_append.mp hissued with hold | hnew
    · exact hold
    · rw [List.mem_singleton.mp hnew] at hsub
      have habsent := h.absent
      rw [← hsub, huser] at habsent
      cases habsent
  · exact ⟨h, fun issued hissued _ => hissued⟩

theorem Gone.run {s t : Idp} (hids : Function.Injective env.uuid4) {id : String} (h : Gone env id s.db)
    {events : List AuthEvent} (hrun : run (authStep jwt settings env custom) s events = some t) :
    Gone env id t.db ∧ ∀ issued ∈ t.issued, issued.content.sub = id → issued ∈ s.issued := by
  refine run_keeps (I := fun t : Idp => Gone env id t.db ∧
    ∀ issued ∈ t.issued, issued.content.sub = id → issued ∈ s.issued) ?_ ⟨h, fun _ h _ => h⟩ hrun
  intro u e v ⟨hgone, hissued⟩ hstep
  obtain ⟨hgone', hstep'⟩ := hgone.step hids hstep
  exact ⟨hgone', fun issued hmem hsub => hissued issued (hstep' issued hmem hsub) hsub⟩

theorem Kept.start (env : Env) (now : Rat) : Kept jwt settings env (Idp.start env now) :=
  have hsound : Sound jwt settings env (Idp.start env now) := Sound.start env now
  ⟨hsound.drawn, nofun⟩

/-- When a user has been deleted, none of his tokens is ever accepted again and none is issued, whoever
takes his name. -/
theorem deleted_locked_out (hsigns : Signs jwt) (hids : Function.Injective env.uuid4) {now : Rat}
    {events later : List AuthEvent} {s t : Idp} {headers : Dict String String} {id : String}
    (hs : run (authStep jwt settings env custom) (Idp.start env now) events = some s)
    (hstored : id ∈ s.db.users.keys)
    (hlet : (authorizeConnection jwt settings custom s.db.users s.now headers .users .delete).isSome = true)
    (ht : run (authStep jwt settings env custom) (Idp.start env now)
      (events ++ .request headers (.delete id) :: later) = some t) :
    t.db.users.get? id = none ∧ ∀ issued ∈ t.issued, issued.content.sub = id →
      issued ∈ s.issued ∧ ∀ res perm,
        authorizeUserFromJwt jwt settings t.db.users t.now issued.token res perm = none := by
  have hkept : Kept jwt settings env s :=
    run_keeps (fun u e v h hstep => h.step hstep) (Kept.start env now) hs
  rw [run_append, hs, Option.bind_some] at ht
  obtain ⟨u, hdelete, hlater⟩ := run_cons_some ht
  rw [authStep, UserRequest.permission, if_pos hlet] at hdelete
  cases hdelete
  obtain ⟨user, huser⟩ := (Dict.mem_keys_iff _ _).mp hstored
  have hgone : Gone env id (served env s.db (.delete id)) := by
    have hserved : served env s.db (.delete id) = { s.db with users := s.db.users.erase id } := by
      rw [served, serve, deleteUser, huser]
    rw [hserved]
    exact ⟨by rw [Dict.get?_erase, if_pos rfl], hkept.drawn id hstored⟩
  obtain ⟨hgone', hissued⟩ := hgone.run hids hlater
  refine ⟨hgone'.absent, fun issued hmem hsub => ⟨hissued issued hmem hsub, fun res perm => ?_⟩⟩
  have hsigned := hkept.signed issued (hissued issued hmem hsub)
  cases hfound : authorizeUserFromJwt jwt settings t.db.users t.now issued.token res perm with
  | none => rfl
  | some info =>
    obtain ⟨payload, user, hdecode, hinfo, _, hstored, _⟩ := authorize_jwt_some hfound
    rw [hsigned] at hdecode
    have hsubject := hsigns _ _ _ _ _ hdecode
    rw [hsubject] at hinfo
    have hid : issued.content.sub = info.id := Json.str.inj (Option.some.inj hinfo)
    rw [← hid, hsub, hgone'.absent] at hstored
    cases hstored

theorem plain_jwt_signs : Signs plainJwt := by
  intro content secret algorithm now payload h
  simp only [plainJwt, String.toList_ofList, List.append_assoc, unquote_quote, Option.bind_eq_bind,
    Option.bind_some] at h
  split at h
  · cases h
    rfl
  · cases h

/-- The ordinary user and the admin log in. -/
def logins : List AuthEvent := [.authToken "user" "user", .authToken "admin" "admin"]

/-- Somebody else registers under the name of the ordinary user. -/
def successor : List AuthEvent :=
  [.request adminHeaders (.create ⟨"user", "hatter", getBasePermissions⟩), .authToken "user" "hatter"]

/-- The ordinary user is deleted: his token is worth nothing, and his successor gets one of his own. -/
theorem user_locked_out :
    ∃ t, run (authStep plainJwt keyOnly plainEnv coreOnly) (Idp.start plainEnv 0)
        (logins ++ .request adminHeaders (.delete "uu") :: successor) = some t ∧
      t.issued.map (fun issued => issued.content.sub) = ["uu", "u", "uuu"] ∧
      ∀ issued ∈ t.issued, issued.content.sub = "uu" → ∀ res perm,
        authorizeUserFromJwt plainJwt keyOnly t.db.users t.now issued.token res perm = none := by
  have hview : (run (authStep plainJwt keyOnly plainEnv coreOnly) (Idp.start plainEnv 0) logins).map
      (fun s => decide ("uu" ∈ s.db.users.keys) && (authorizeConnection plainJwt keyOnly coreOnly s.db.users s.now
        adminHeaders .users .delete).isSome) = some true := by
    decide +kernel
  have hend : (run (authStep plainJwt keyOnly plainEnv coreOnly) (Idp.start plainEnv 0)
      (logins ++ .request adminHeaders (.delete "uu") :: successor)).map
        (fun t => t.issued.map (fun issued => issued.content.sub)) = some ["uu", "u", "uuu"] := by
    decide +kernel
  obtain ⟨s, hs, hfacts⟩ := Option.map_eq_some_iff.mp hview
  obtain ⟨hstored, hlet⟩ := Bool.and_eq_true_iff.mp hfacts
  obtain ⟨t, ht, hsubs⟩ := Option.map_eq_some_iff.mp hend
  have h := deleted_locked_out plain_jwt_signs plain_env_injective hs (of_decide_eq_true hstored) hlet ht
  exact ⟨t, ht, hsubs, fun issued hissued hsub => (h.2 issued hissued hsub).2⟩

end CheshireCat.Auth
