import CheshireCat.Auth.CoreAuthHandler

namespace CheshireCat.Auth
open Base Json

variable (jwt : Jwt) (settings : Settings)

/-- The credential is one that `is_jwt` accepts. -/
def isJwtCredential (credential : Option String) : Bool := credential.any jwt.isJwt

/-- A connection that the WebSocket key lets in, to ask for more than the base
permissions: the key is compared and the permission is not. -/
structure BeyondBase (protocol : Protocol) (credential : Option String) (res : AuthResource)
    (perm : AuthPermission) : Prop where
  websocket : protocol = .websocket
  noJwt : isJwtCredential jwt credential = false
  keyed : keySet settings.apiKey ∨ keySet settings.apiKeyWs
  key : credential = settings.apiKeyWs
  beyond : grants getBasePermissions res perm = false

theorem authorize_jwt_grants {users : Users} {now : Rat} {token : String} {res : AuthResource}
    {perm : AuthPermission} {info : AuthUserInfo}
    (h : authorizeUserFromJwt jwt settings users now token res perm = some info) :
    grants info.permissions res perm = true := by
  obtain ⟨_, user, _, _, _, _, hperms, hgrants⟩ := authorize_jwt_some h
  rw [hperms]
  exact hgrants

theorem authorize_credential_eq (users : Users) (now : Rat) (protocol : Protocol)
    (credential : Option String) (res : AuthResource) (perm : AuthPermission) (userId : String)
    (h : isJwtCredential jwt credential = false) :
    authorizeUserFromCredential jwt settings users now protocol credential res perm userId =
      authorizeUserFromKey settings protocol userId credential res perm := by
  cases credential with
  | none => rfl
  | some token =>
    have hjwt : jwt.isJwt token = false := h
    rw [authorizeUserFromCredential, hjwt]
    rfl

/-- The key path gives the full permissions, except to a WebSocket key. -/
theorem authorize_key_grants {protocol : Protocol} {userId : String} {apiKey : Option String}
    {res : AuthResource} {perm : AuthPermission} {info : AuthUserInfo}
    (h : authorizeUserFromKey settings protocol userId apiKey res perm = some info) :
    info.permissions = getFullPermissions ∨
      protocol = .websocket ∧ (keySet settings.apiKey ∨ keySet settings.apiKeyWs) ∧
        apiKey = settings.apiKeyWs ∧ info.permissions = getBasePermissions := by
  unfold authorizeUserFromKey at h
  split at h
  · cases h
    exact Or.inl rfl
  · rename_i hkeys
    split at h
    · unfold authorizeWebsocketKey at h
      split at h
      · rename_i hkey
        cases h
        refine Or.inr ⟨rfl, ?_, hkey, rfl⟩
        by_contra hnone
        exact hkeys (not_or.mp hnone)
      · cases h
    · unfold authorizeHttpKey at h
      split at h
      · cases h
        exact Or.inl rfl
      · cases h

/-- A WebSocket key that is configured and presented gives the base permissions. -/
theorem websocket_key_base {userId : String} {res : AuthResource} {perm : AuthPermission}
    (hkeyed : keySet settings.apiKey ∨ keySet settings.apiKeyWs) :
    authorizeUserFromKey settings .websocket userId settings.apiKeyWs res perm =
      some ⟨userId, userId, getBasePermissions, none⟩ := by
  rw [authorizeUserFromKey, if_neg (fun hnone => not_or.mpr hnone hkeyed), authorizeWebsocketKey]
  exact if_pos rfl

/-- Whoever is authorized has the permission that was asked for, exactly when no WebSocket
key is used to ask for more than the base permissions. -/
theorem authorization_sound_iff (users : Users) (now : Rat) (protocol : Protocol)
    (credential : Option String) (res : AuthResource) (perm : AuthPermission) (userId : String) :
    (∀ info,
      authorizeUserFromCredential jwt settings users now protocol credential res perm userId =
        some info → grants info.permissions res perm = true) ↔
      ¬ BeyondBase jwt settings protocol credential res perm := by
  constructor
  · intro h hb
    have hinfo := h ⟨userId, userId, getBasePermissions, none⟩ ?_
    · exact Bool.false_ne_true (hb.beyond.symm.trans hinfo)
    · rw [authorize_credential_eq jwt settings _ _ _ _ _ _ _ hb.noJwt, hb.websocket, hb.key]
      exact websocket_key_base settings hb.keyed
  · intro hb info h
    cases hjwt : isJwtCredential jwt credential with
    | true =>
      obtain ⟨token, rfl, htoken⟩ := (Option.any_eq_true jwt.isJwt credential).mp hjwt
      rw [authorizeUserFromCredential, htoken] at h
      exact authorize_jwt_grants jwt settings h
    | false =>
      rw [authorize_credential_eq jwt settings _ _ _ _ _ _ _ hjwt] at h
      rcases authorize_key_grants settings h with hfull | ⟨hws, hkeyed, hkey, hbase⟩
      · rw [hfull]
        exact full_grants res perm
      · rw [hbase]
        by_contra hnot
        exact hb ⟨hws, hjwt, hkeyed, hkey, Bool.eq_false_iff.mpr hnot⟩

/-- A text that ends where its first unmarked character is. -/
def quote (s : String) : List Char := s.toList.flatMap (fun c => ['+', c]) ++ ['.']

def unquote : List Char → Option (String × List Char)
  | '+' :: c :: rest => (unquote rest).map (fun p => (String.singleton c ++ p.1, p.2))
  | '.' :: rest => some ("", rest)
  | _ => none

/-- Tokens that carry their secret, and as many characters as the expiry has seconds. -/
def plainJwt : Jwt where
  isJwt token := (unquote token.toList).isSome
  encode content secret algorithm :=
    String.ofList (quote secret ++ quote algorithm ++ quote content.sub ++
      quote content.username ++ List.replicate content.exp.toNat 's')
  decode token secret algorithm now := do
    let (signed, rest) ← unquote token.toList
    let (header, rest) ← unquote rest
    let (sub, rest) ← unquote rest
    let (username, rest) ← unquote rest
    if signed = secret ∧ header = algorithm ∧ now < rest.length then
      some [("sub", .str sub), ("username", .str username)]
    else none

def wsKeyOnly : Settings := ⟨none, some "meow_ws", "secret", "HS256", 1440⟩

/-- The WebSocket key lets its holder in where the plugins may be deleted. -/
theorem ws_key_beyond_base :
    ∃ info,
      authorizeUserFromCredential plainJwt wsKeyOnly Dict.empty 0 .websocket (some "meow_ws")
        .plugins .delete "user" = some info ∧ grants info.permissions .plugins .delete = false :=
  ⟨⟨"user", "user", getBasePermissions, none⟩, by decide, by decide⟩

end CheshireCat.Auth
