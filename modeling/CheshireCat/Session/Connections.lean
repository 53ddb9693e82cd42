import CheshireCat.Base.Dict
import CheshireCat.Base.Runs

namespace CheshireCat.Session
open Base

variable {σ : Type}

/-- `WebsocketManager`: one connection for each user. -/
structure WebsocketManager (σ : Type) where
  connections : Dict String σ

def WebsocketManager.empty : WebsocketManager σ := ⟨Dict.empty⟩

def WebsocketManager.addConnection (m : WebsocketManager σ) (id : String) (websocket : σ) :
    WebsocketManager σ :=
  ⟨m.connections.set id websocket⟩

def WebsocketManager.getConnection (m : WebsocketManager σ) (id : String) : Option σ :=
  m.connections.get? id

def WebsocketManager.removeConnection (m : WebsocketManager σ) (id : String) :
    WebsocketManager σ :=
  if id ∈ m.connections.keys then ⟨m.connections.erase id⟩ else m

/-- `__send_ws_json`: the socket that gets the data. Without a connection it is dropped. -/
def sendWsJson (m : WebsocketManager σ) (userId : String) : Option σ := m.getConnection userId

/-- The sockets that are open, each with its user, and the manager. -/
structure Sockets (σ : Type) where
  opened : Dict σ String
  manager : WebsocketManager σ

def Sockets.start : Sockets σ := ⟨Dict.empty, .empty⟩

inductive SocketEvent (σ : Type) where
  | connect (websocket : σ) (userId : String)
  | disconnect (websocket : σ)

theorem get_remove_connection (m : WebsocketManager σ) (id id' : String) :
    (m.removeConnection id).getConnection id' = if id' = id then none else m.getConnection id' := by
  unfold WebsocketManager.removeConnection WebsocketManager.getConnection
  split
  · exact Dict.get?_erase m.connections id id'
  · rename_i hid
    split
    · rename_i he
      subst he
      rw [Option.eq_none_iff_forall_ne_some]
      intro w hw
      exact hid ((m.connections.mem_keys_iff id').mpr ⟨w, hw⟩)
    · rfl

variable [DecidableEq σ]

/-- `websocket_endpoint` adds the socket of the user when it is accepted, and removes the
user when the socket is closed. -/
def socketStep (s : Sockets σ) : SocketEvent σ → Option (Sockets σ)
  | .connect websocket userId =>
    if websocket ∈ s.opened.keys then none
    else some ⟨s.opened.set websocket userId, s.manager.addConnection userId websocket⟩
  | .disconnect websocket =>
    (s.opened.get? websocket).map (fun userId =>
      ⟨s.opened.erase websocket, s.manager.removeConnection userId⟩)

/-- The connection of a user is an open socket of his, wherever he has one. -/
structure KnowsOpen (s : Sockets σ) : Prop where
  isOpen : ∀ userId websocket, s.manager.getConnection userId = some websocket →
    s.opened.get? websocket = some userId
  known : ∀ userId, s.manager.getConnection userId = none →
    ∀ websocket, s.opened.get? websocket ≠ some userId

/-- Data for a user with an open socket reaches one. -/
def Delivers (s : Sockets σ) : Prop :=
  ∀ userId websocket, s.opened.get? websocket = some userId →
    ∃ reached, sendWsJson s.manager userId = some reached ∧ s.opened.get? reached = some userId

/-- A socket is closed when its user has no other one open. -/
def ClosesLast (s : Sockets σ) : SocketEvent σ → Prop
  | .connect _ _ => True
  | .disconnect websocket => ∀ userId, s.opened.get? websocket = some userId →
      ∀ other, s.opened.get? other = some userId → other = websocket

theorem KnowsOpen.start : KnowsOpen (Sockets.start : Sockets σ) := by
  refine ⟨?_, ?_⟩
  · intro userId websocket h
    cases h
  · intro userId _ websocket h
    cases h

theorem KnowsOpen.delivers {s : Sockets σ} (h : KnowsOpen s) : Delivers s := by
  intro userId websocket hopen
  cases hc : s.manager.getConnection userId with
  | none => exact absurd hopen (h.known userId hc websocket)
  | some reached => exact ⟨reached, hc, h.isOpen userId reached hc⟩

theorem KnowsOpen.connect {s : Sockets σ} (h : KnowsOpen s) {websocket : σ} (userId : String)
    (hnew : websocket ∉ s.opened.keys) :
    KnowsOpen ⟨s.opened.set websocket userId, s.manager.addConnection userId websocket⟩ := by
  refine ⟨?_, ?_⟩
  · intro user w hw
    change (s.manager.connections.set userId websocket).get? user = some w at hw
    change (s.opened.set websocket userId).get? w = some user
    rw [Dict.get?_set] at hw ⊢
    split at hw
    · rename_i hu
      rw [if_pos (Option.some.inj hw).symm, hu]
    · have hold := h.isOpen user w hw
      rw [if_neg, hold]
      intro he
      exact hnew ((s.opened.mem_keys_iff websocket).mpr ⟨user, he ▸ hold⟩)
  · intro user hnone w hw
    change (s.manager.connections.set userId websocket).get? user = none at hnone
    change (s.opened.set websocket userId).get? w = some user at hw
    rw [Dict.get?_set] at hnone hw
    split at hnone
    · cases hnone
    · rename_i hu
      split at hw
      · exact hu (Option.some.inj hw).symm
      · exact h.known user hnone w hw

/-- Closing a socket keeps the table right exactly when the user has no other one. -/
theorem KnowsOpen.disconnect_iff {s : Sockets σ} (h : KnowsOpen s) {websocket : σ}
    {userId : String} (hopen : s.opened.get? websocket = some userId) :
    ClosesLast s (.disconnect websocket) ↔
      KnowsOpen ⟨s.opened.erase websocket, s.manager.removeConnection userId⟩ := by
  constructor
  · intro hlast
    refine ⟨?_, ?_⟩
    · intro user w hw
      change (s.manager.removeConnection userId).getConnection user = some w at hw
      change (s.opened.erase websocket).get? w = some user
      rw [get_remove_connection] at hw
      split at hw
      · cases hw
      · rename_i hu
        have hold := h.isOpen user w hw
        rw [Dict.get?_erase, if_neg, hold]
        intro he
        exact hu (Option.some.inj (hold.symm.trans (he ▸ hopen)))
    · intro user hnone w hw
      change (s.manager.removeConnection userId).getConnection user = none at hnone
      change (s.opened.erase websocket).get? w = some user at hw
      rw [get_remove_connection] at hnone
      rw [Dict.get?_erase] at hw
      split at hw
      · cases hw
      · rename_i hne
        split at hnone
        · rename_i hu
          exact hne (hlast userId hopen w (hu ▸ hw))
        · exact h.known user hnone w hw
  · intro hafter user huser other hother
    have hsame : user = userId := Option.some.inj (huser.symm.trans hopen)
    subst hsame
    by_contra hne
    refine hafter.known user ?_ other ?_
    · change (s.manager.removeConnection user).getConnection user = none
      rw [get_remove_connection, if_pos rfl]
    · change (s.opened.erase websocket).get? other = some user
      rw [Dict.get?_erase, if_neg hne, hother]

theorem socket_step_iff {s : Sockets σ} (h : KnowsOpen s) (e : SocketEvent σ) :
    ClosesLast s e ↔ ∀ t, socketStep s e = some t → KnowsOpen t := by
  cases e with
  | connect websocket userId =>
    refine ⟨?_, fun _ => trivial⟩
    intro _ t ht
    rw [socketStep] at ht
    split at ht
    · cases ht
    · rename_i hnew
      cases ht
      exact h.connect userId hnew
  | disconnect websocket =>
    cases hopen : s.opened.get? websocket with
    | none =>
      constructor
      · intro _ t ht
        rw [socketStep, hopen] at ht
        cases ht
      · intro _ userId huser
        rw [hopen] at huser
        cases huser
    | some userId =>
      rw [h.disconnect_iff hopen]
      constructor
      · intro hafter t ht
        rw [socketStep, hopen] at ht
        cases ht
        exact hafter
      · intro hafter
        exact hafter _ (by rw [socketStep, hopen, Option.map_some])

/-- Over all connections and disconnections, the table knows an open socket of every
connected user exactly when no user closes a socket while another of his is open. -/
theorem connections_known_iff (events : List (SocketEvent σ)) :
    (∀ earlier, earlier <+: events → ∀ s, run socketStep Sockets.start earlier = some s →
      KnowsOpen s ∧ Delivers s) ↔ Meets socketStep ClosesLast Sockets.start events := by
  rw [← keeps_iff_meets (fun s e h => socket_step_iff h e) KnowsOpen.start]
  constructor
  · intro h earlier he s hs
    exact (h earlier he s hs).1
  · intro h earlier he s hs
    have hk := h earlier he s hs
    exact ⟨hk, hk.delivers⟩

/-- Alice opens a second socket and closes it: the first one is open, and unknown. -/
theorem second_socket_closed :
    ∃ s, run socketStep (Sockets.start : Sockets Nat)
        [.connect 0 "Alice", .connect 1 "Alice", .disconnect 1] = some s ∧
      s.opened.get? 0 = some "Alice" ∧ sendWsJson s.manager "Alice" = none := by
  refine ⟨_, rfl, ?_, ?_⟩ <;> decide

end CheshireCat.Session
