import CheshireCat.Auth.Authorization
import CheshireCat.Auth.Usernames
import CheshireCat.Session.StrayCat
import Mathlib.Algebra.Order.Ring.Unbundled.Rat

namespace CheshireCat.Auth
open Base Json

/-- A token that has not expired decodes to what was signed. -/
def Lawful (jwt : Jwt) : Prop :=
  ∀ (content : JwtContent) (secret algorithm : String) (now : Rat), now < content.exp →
    ∃ payload, jwt.decode (jwt.encode content secret algorithm) secret algorithm now =
        some payload ∧
      field? payload "sub" = some (.str content.sub) ∧
      field? payload "username" = some (.str content.username)

structure Issued where
  token : String
  content : JwtContent
deriving DecidableEq

/-- The local identity provider, with the tokens that it has issued so far. -/
structure Idp where
  db : UsersDb
  now : Rat
  issued : List Issued

inductive IdpEvent where
  | request (request : UserRequest)
  | issue (username password : String)
  | clock (time : Rat)

def Idp.start (env : Env) (now : Rat) : Idp := ⟨getUsers env none, now, []⟩

section
variable (jwt : Jwt) (settings : Settings) (env : Env)

def idpStep (s : Idp) : IdpEvent → Option Idp
  | .request request => some { s with db := served env s.db request }
  | .issue username password =>
    match jwtContent settings env s.db.users s.now username password with
    | some content =>
      let token := jwt.encode content settings.jwtSecret settings.jwtAlgorithm
      some { s with issued := s.issued ++ [⟨token, content⟩] }
    | none => some s
  | .clock time => if s.now ≤ time then some { s with now := time } else none

/-- The token that a step issues is the one of `issue_jwt`. -/
theorem issued_token (s : Idp) (username password : String) :
    (idpStep jwt settings env s (.issue username password)).map (fun t => t.issued.map Issued.token) =
      some (s.issued.map Issued.token ++
        (issueJwt jwt settings env s.db.users s.now username password).toList) := by
  rw [idpStep, issueJwt]
  cases jwtContent settings env s.db.users s.now username password with
  | none =>
    rw [Option.map_none, Option.toList_none, List.append_nil]
    rfl
  | some content =>
    dsimp only
    rw [Option.map_some, Option.map_some, Option.toList_some, List.map_append]
    rfl

/-- An unexpired token that is accepted gives the id, the username and the permissions that
are stored for its subject. -/
def TokensCurrent (s : Idp) : Prop :=
  ∀ t ∈ s.issued, s.now < t.content.exp → ∀ res perm info,
    authorizeUserFromJwt jwt settings s.db.users s.now t.token res perm = some info →
      ∃ user, s.db.users.get? t.content.sub = some user ∧ info.id = t.content.sub ∧
        info.name = user.username ∧ info.permissions = user.permissions

/-- Tokens of different subjects are given different working memories. -/
def SeparateSessions (s : Idp) : Prop :=
  ∀ t ∈ s.issued, ∀ t' ∈ s.issued, s.now < t.content.exp → s.now < t'.content.exp →
    t.content.sub ≠ t'.content.sub → ∀ res perm info res' perm' info',
      authorizeUserFromJwt jwt settings s.db.users s.now t.token res perm = some info →
      authorizeUserFromJwt jwt settings s.db.users s.now t'.token res' perm' = some info' →
        Session.cacheKey info.name ≠ Session.cacheKey info'.name

end

/-- The name under which the token of a stored user was issued is the one that he keeps
while it is valid. -/
def KeepsTokenNames (s : Idp) : IdpEvent → Prop
  | .request (.update userId user) =>
    user.invalid = [] → userId ∈ s.db.users.keys → ∀ name, user.username = some name →
      ∀ t ∈ s.issued, s.now < t.content.exp → t.content.sub = userId → t.content.username = name
  | _ => True

/-- A rename takes a free name, and leaves valid tokens with the name of their subject. -/
def RenamesSafely (s : Idp) (e : IdpEvent) : Prop :=
  KeepsTokenNames s e ∧ ∀ request, e = .request request → TakesFreeName s.db request

/-- What the identity provider keeps when users are renamed safely. -/
structure Sound (jwt : Jwt) (settings : Settings) (env : Env) (s : Idp) : Prop where
  unique : UniqueNames s.db.users
  drawn : ∀ id ∈ s.db.users.keys, ∃ n < s.db.drawn, id = env.uuid4 n
  subjects : ∀ t ∈ s.issued, ∃ n < s.db.drawn, t.content.sub = env.uuid4 n
  signed : ∀ t ∈ s.issued,
    t.token = jwt.encode t.content settings.jwtSecret settings.jwtAlgorithm
  named : ∀ t ∈ s.issued, s.now < t.content.exp → ∀ user,
    s.db.users.get? t.content.sub = some user → user.username = t.content.username

variable {jwt : Jwt} {settings : Settings} {env : Env}

theorem Sound.start (env : Env) (now : Rat) : Sound jwt settings env (Idp.start env now) where
  unique := initial_unique env
  drawn := by
    intro id hid
    rcases (Dict.mem_keys_set _ _ _ _).mp hid with h | h
    · exact ⟨1, Nat.one_lt_two, h⟩
    · rcases (Dict.mem_keys_set _ _ _ _).mp h with h | h
      · exact ⟨0, Nat.two_pos, h⟩
      · cases h
  subjects := fun _ h => absurd h List.not_mem_nil
  signed := fun _ h => absurd h List.not_mem_nil
  named := fun _ h => absurd h List.not_mem_nil

/-- A request leaves valid tokens with the name of their subject. -/
theorem Sound.served_named {s : Idp} (h : Sound jwt settings env s)
    (hids : Function.Injective env.uuid4) {request : UserRequest}
    (hc : RenamesSafely s (.request request)) :
    ∀ t ∈ s.issued, s.now < t.content.exp → ∀ user,
      (served env s.db request).users.get? t.content.sub = some user →
        user.username = t.content.username := by
  intro t ht hexp user huser
  have hserved := served_cases env s.db request
  generalize served env s.db request = after at hserved huser
  cases hserved with
  | rejected => exact h.named t ht hexp user huser
  | created newUser _ _ =>
    obtain ⟨n, hn, hsub⟩ := h.subjects t ht
    rw [Dict.get?_set_other] at huser
    · exact h.named t ht hexp user huser
    · rw [hsub]
      intro he
      exact absurd (hids he) (Nat.ne_of_lt hn)
  | updated userId update stored hvalid hfound =>
    rw [Dict.get?_set] at huser
    split at huser
    · rename_i hsub
      cases huser
      cases hname : update.username with
      | none =>
        simp only [User.updated, hname, Option.getD_none]
        exact h.named t ht hexp stored (hsub ▸ hfound)
      | some name =>
        simp only [User.updated, hname, Option.getD_some]
        exact (hc.1 hvalid ((s.db.users.mem_keys_iff userId).mpr ⟨stored, hfound⟩) name hname t
          ht hexp hsub).symm
    · exact h.named t ht hexp user huser
  | deleted userId =>
    rw [Dict.get?_erase] at huser
    split at huser
    · cases huser
    · exact h.named t ht hexp user huser

theorem served_drawn {db : UsersDb} (h : ∀ id ∈ db.users.keys, ∃ n < db.drawn, id = env.uuid4 n)
    (request : UserRequest) :
    db.drawn ≤ (served env db request).drawn ∧
      ∀ id ∈ (served env db request).users.keys,
        ∃ n < (served env db request).drawn, id = env.uuid4 n := by
  obtain ⟨hle, hkeys⟩ := served_keys env db request
  refine ⟨hle, fun id hid => ?_⟩
  rcases hkeys id hid with hold | ⟨hnew, hless⟩
  · obtain ⟨n, hn, he⟩ := h id hold
    exact ⟨n, hn.trans_le hle, he⟩
  · exact ⟨db.drawn, hless, hnew⟩

/-- Every event keeps the identity provider sound. -/
theorem Sound.step {s t : Idp} (hids : Function.Injective env.uuid4) {e : IdpEvent}
    (hc : RenamesSafely s e) (h : Sound jwt settings env s)
    (hstep : idpStep jwt settings env s e = some t) : Sound jwt settings env t := by
  cases e with
  | request request =>
    cases hstep
    obtain ⟨hle, hdrawn⟩ := served_drawn h.drawn request
    refine ⟨(served_unique_iff env h.unique request).mp (hc.2 request rfl), hdrawn, ?_, h.signed,
      h.served_named hids hc⟩
    intro t ht
    obtain ⟨n, hn, he⟩ := h.subjects t ht
    exact ⟨n, Nat.lt_of_lt_of_le hn hle, he⟩
  | issue username password =>
    rw [idpStep] at hstep
    split at hstep
    · rename_i content hcontent
      cases hstep
      obtain ⟨hname, user, huser, hsame, -⟩ := jwt_content_some hcontent
      refine ⟨h.unique, h.drawn, ?_, ?_, ?_⟩
      · intro t ht
        rcases List.mem_append.mp ht with hold | hnew
        · exact h.subjects t hold
        · rw [List.mem_singleton.mp hnew]
          exact h.drawn _ ((s.db.users.mem_keys_iff _).mpr ⟨user, huser⟩)
      · intro t ht
        rcases List.mem_append.mp ht with hold | hnew
        · exact h.signed t hold
        · rw [List.mem_singleton.mp hnew]
      · intro t ht hexp other hother
        rcases List.mem_append.mp ht with hold | hnew
        · exact h.named t hold hexp other hother
        · rw [List.mem_singleton.mp hnew] at hother ⊢
          have he : user = other := Option.some.inj (huser.symm.trans hother)
          rw [← he, hsame]
          exact hname.symm
    · cases hstep
      exact h
  | clock time =>
    rw [idpStep] at hstep
    split at hstep
    · rename_i hle
      cases hstep
      refine ⟨h.unique, h.drawn, h.subjects, h.signed, ?_⟩
      intro t ht hexp
      exact h.named t ht (lt_of_le_of_lt hle hexp)
    · cases hstep

theorem Sound.current {s : Idp} (hlaw : Lawful jwt) (h : Sound jwt settings env s) :
    TokensCurrent jwt settings s := by
  intro t ht hexp res perm info hinfo
  obtain ⟨payload, user, hdecode, hsub, hname, huser, hperms, -⟩ := authorize_jwt_some hinfo
  obtain ⟨payload', hdecode', hsub', hname'⟩ :=
    hlaw t.content settings.jwtSecret settings.jwtAlgorithm s.now hexp
  rw [h.signed t ht] at hdecode
  cases hdecode.symm.trans hdecode'
  have hid : info.id = t.content.sub := Json.str.inj (Option.some.inj (hsub.symm.trans hsub'))
  have hown : info.name = t.content.username :=
    Json.str.inj (Option.some.inj (hname.symm.trans hname'))
  rw [hid] at huser
  exact ⟨user, huser, hid, hown.trans (h.named t ht hexp user huser).symm, hperms⟩

theorem cache_key_injective {name name' : String}
    (h : Session.cacheKey name = Session.cacheKey name') : name = name' :=
  (String.append_left_inj _).mp h

theorem Sound.separate {s : Idp} (hlaw : Lawful jwt) (h : Sound jwt settings env s) :
    SeparateSessions jwt settings s := by
  intro t ht t' ht' hexp hexp' hne res perm info res' perm' info' hinfo hinfo' hkey
  obtain ⟨user, huser, -, hname, -⟩ := h.current hlaw t ht hexp res perm info hinfo
  obtain ⟨user', huser', -, hname', -⟩ := h.current hlaw t' ht' hexp' res' perm' info' hinfo'
  have hsame : user.username = user'.username := by
    rw [← hname, ← hname']
    exact cache_key_injective hkey
  exact hne (h.unique _ _ user user' huser huser' hsame)

/-- While users are renamed safely, every valid token opens the session of its subject as it
is stored. -/
theorem tokens_current (hlaw : Lawful jwt) (hids : Function.Injective env.uuid4) {now : Rat}
    {events : List IdpEvent} {s : Idp}
    (hm : Meets (idpStep jwt settings env) RenamesSafely (Idp.start env now) events)
    (hrun : run (idpStep jwt settings env) (Idp.start env now) events = some s) :
    TokensCurrent jwt settings s ∧ SeparateSessions jwt settings s := by
  have h : Sound jwt settings env s :=
    run_keeps_when (fun _ _ _ hc h hstep => h.step hids hc hstep) hm (Sound.start env now) hrun
  exact ⟨h.current hlaw, h.separate hlaw⟩

theorem unquote_quote (s : String) (rest : List Char) :
    unquote (quote s ++ rest) = some (s, rest) := by
  have hchars : ∀ l : List Char,
      unquote (l.flatMap (fun c => ['+', c]) ++ ['.'] ++ rest) = some (String.ofList l, rest) := by
    intro l
    induction l with
    | nil => rfl
    | cons c l ih =>
      rw [List.flatMap_cons]
      change (unquote (l.flatMap (fun c => ['+', c]) ++ ['.'] ++ rest)).map _ = _
      rw [ih, Option.map_some, String.ofList_cons]
  rw [quote, hchars, String.ofList_toList]

theorem plain_jwt_lawful : Lawful plainJwt := by
  intro content secret algorithm now hexp
  refine ⟨[("sub", .str content.sub), ("username", .str content.username)], ?_, rfl, rfl⟩
  have htime : now < (content.exp.toNat : Rat) := by
    refine lt_of_lt_of_le hexp ?_
    rw [← Rat.intCast_natCast, Rat.intCast_le_intCast]
    exact Int.self_le_toNat content.exp
  simp [plainJwt, unquote_quote, htime]

theorem plain_env_injective : Function.Injective plainEnv.uuid4 := by
  intro n m h
  have hlength := congrArg String.length h
  simpa [plainEnv] using hlength

/-- Tokens that expire after three seconds. -/
def shortLived : Settings := ⟨none, none, "secret", "HS256", 1 / 20⟩

/-- The admin changes his password while his token is valid. -/
theorem tokens_current_password :
    ∃ s, run (idpStep plainJwt shortLived plainEnv) (Idp.start plainEnv 0)
        [.issue "admin" "admin", .request (.update "u" { password := some "cheshire" })] = some s ∧
      TokensCurrent plainJwt shortLived s ∧ SeparateSessions plainJwt shortLived s := by
  obtain ⟨s, hs⟩ : ∃ s, run (idpStep plainJwt shortLived plainEnv) (Idp.start plainEnv 0)
      [.issue "admin" "admin", .request (.update "u" { password := some "cheshire" })] = some s :=
    ⟨_, rfl⟩
  refine ⟨s, hs, tokens_current plain_jwt_lawful plain_env_injective ?_ hs⟩
  refine ⟨⟨trivial, ?_⟩, ?_⟩
  · intro request h
    cases h
  · intro s hs
    refine ⟨⟨?_, ?_⟩, fun _ _ => trivial⟩
    · intro _ _ name hname
      cases hname
    · intro request h
      cases h
      intro _ _ name hname
      cases hname

/-- The admin is renamed, and somebody else registers under his name. -/
def bossRun : List IdpEvent :=
  [.issue "admin" "admin", .request (.update "u" { username := some "boss" }),
    .request (.create ⟨"admin", "hatter", getBasePermissions⟩), .issue "admin" "hatter"]

def issuedTo (sub : String) (permissions : Permissions) : Issued :=
  let content := ⟨sub, "admin", permissions, 3⟩
  ⟨plainJwt.encode content shortLived.jwtSecret shortLived.jwtAlgorithm, content⟩

/-- The token of the renamed admin still opens the session admin, which is also the one
that the new admin gets. -/
theorem renamed_token_opens_old_session :
    ∃ s, run (idpStep plainJwt shortLived plainEnv) (Idp.start plainEnv 0) bossRun = some s ∧
      ¬ TokensCurrent plainJwt shortLived s ∧ ¬ SeparateSessions plainJwt shortLived s := by
  let boss : User := ⟨"u", "boss", "admin", getFullPermissions⟩
  let hatter : User := ⟨"uuuu", "admin", "hatter", getBasePermissions⟩
  let old := issuedTo "u" getFullPermissions
  let new := issuedTo "uuuu" getBasePermissions
  let asOld : AuthUserInfo := ⟨"u", "admin", getFullPermissions, some boss⟩
  let asNew : AuthUserInfo := ⟨"uuuu", "admin", getBasePermissions, some hatter⟩
  have hview : (run (idpStep plainJwt shortLived plainEnv) (Idp.start plainEnv 0) bossRun).map
      (fun s => decide (s.now = 0 ∧ s.issued = [old, new] ∧ s.db.users.get? "u" = some boss ∧
        authorizeUserFromJwt plainJwt shortLived s.db.users 0 old.token .memory .read =
          some asOld ∧
        authorizeUserFromJwt plainJwt shortLived s.db.users 0 new.token .memory .read =
          some asNew)) = some true := by
    decide +kernel
  obtain ⟨s, hs, hfacts⟩ := Option.map_eq_some_iff.mp hview
  obtain ⟨hnow, hissued, hboss, hold, hnew⟩ := of_decide_eq_true hfacts
  rw [← hnow] at hold hnew
  have hexp : s.now < 3 := by rw [hnow]; decide
  have hmem : old ∈ s.issued ∧ new ∈ s.issued := by simp [hissued]
  refine ⟨s, hs, ?_, ?_⟩
  · intro h
    obtain ⟨user, huser, -, hname, -⟩ := h old hmem.1 hexp .memory .read asOld hold
    cases hboss.symm.trans huser
    revert hname
    decide
  · intro h
    exact h old hmem.1 new hmem.2 hexp hexp (by decide) .memory .read asOld .memory .read asNew
      hold hnew rfl

end CheshireCat.Auth
