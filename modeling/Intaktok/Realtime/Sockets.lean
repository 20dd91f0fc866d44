import Intaktok.Realtime.Gateway
/-
# What the actions on a hub leave alone

One lemma for each operation of `Hub` and each part of the state it does not touch. An action of a
handshake changes nobody's `userId` but that of its own socket, and only when it authenticates
(`connectStep_sockets`); it reads the database and writes presence (`connectStep_world`).
-/

namespace Intaktok.Realtime

open Tables

@[simp] theorem Hub.sockets_update (h : Hub) (id j : String) (f : Socket → Socket) :
    (h.update id f).sockets j = if j = id then f (h.sockets id) else h.sockets j :=
  Function.update_apply ..

@[simp] theorem Hub.userId_join (h : Hub) (id j : String) (rooms : List String) :
    ((h.join id rooms).sockets j).userId = (h.sockets j).userId := by
  unfold Hub.join
  rw [Hub.sockets_update]
  split
  · rename_i hj; rw [hj]
  · rfl

@[simp] theorem userId_reject (h : Hub) (id j : String) (message : Option String) :
    ((reject h id message).sockets j).userId = (h.sockets j).userId := by
  unfold reject Hub.disconnect
  rw [Hub.sockets_update]
  split
  · rename_i hj; rw [hj]; rfl
  · rfl

@[simp] theorem sockets_emitToUsers (h : Hub) (userIds : List String) (e : ServerEvent) :
    (emitToUsers h userIds e).sockets = h.sockets := by
  unfold emitToUsers
  split <;> rfl

theorem sockets_env (cfg : AppConfig) (e : Env) (h : Hub) : (env cfg e h).sockets = h.sockets := by
  cases e with
  | tick ms => rfl
  | heartbeat id => simp only [env]; split <;> rfl

/-- Time and heartbeats touch nothing but the clock and Redis. -/
theorem world_env (cfg : AppConfig) (e : Env) (h : Hub) :
    ∃ redis now, (env cfg e h).world = { h.world with redis, now } := by
  cases e with
  | tick ms => exact ⟨_, _, rfl⟩
  | heartbeat s =>
    simp only [env]
    split
    · rename_i userId _ _ _
      obtain ⟨redis, he⟩ := World.expire_world h.world (Presence.key userId) cfg.presenceTtlSec
      exact ⟨redis, h.world.now, he⟩
    · exact ⟨_, _, rfl⟩

theorem db_env (cfg : AppConfig) (e : Env) (h : Hub) : (env cfg e h).world.db = h.world.db := by
  obtain ⟨redis, now, he⟩ := world_env cfg e h
  rw [he]

theorem pushed_env (cfg : AppConfig) (e : Env) (h : Hub) :
    (env cfg e h).world.pushed = h.world.pushed := by
  obtain ⟨redis, now, he⟩ := world_env cfg e h
  rw [he]

/-! ## What a handshake does to sockets -/

/-- The user the handshake has authenticated the socket as. -/
def authenticatedAs : ConnectPc → Option String
  | .verify | .user _ => none
  | .joinUser u | .memberships u | .joinRooms u _ | .presence u _ | .myRooms u | .coMembers u _
  | .accepted u => some u
  | .rejected u => u

/-- The socket has been left alone, but for the rooms it has joined, or has been disconnected. -/
structure Socket.Stays (s s' : Socket) : Prop where
  userId : s'.userId = s.userId
  connected : s'.connected = true → s.connected = true
  rooms : s'.connected = true → ∀ r ∈ s.rooms, r ∈ s'.rooms

theorem Socket.Stays.refl (s : Socket) : s.Stays s := ⟨rfl, id, fun _ _ hr => hr⟩

theorem stays_join (h : Hub) (id j : String) (rooms : List String) :
    (h.sockets j).Stays ((h.join id rooms).sockets j) := by
  unfold Hub.join
  rw [Hub.sockets_update]
  split
  · rename_i hj
    rw [hj]
    exact ⟨rfl, fun hc => hc, fun _ r hr => List.mem_append_left _ hr⟩
  · exact .refl _

theorem mem_rooms_join {h : Hub} {id room : String} {rooms : List String} (hr : room ∈ rooms) :
    room ∈ ((h.join id rooms).sockets id).rooms := by
  unfold Hub.join
  rw [Hub.sockets_update, if_pos rfl]
  by_cases hin : room ∈ (h.sockets id).rooms
  · exact List.mem_append_left _ hin
  · exact List.mem_append_right _ (List.mem_filter.2 ⟨hr, by simpa using hin⟩)

theorem stays_disconnect (h : Hub) (id j : String) :
    (h.sockets j).Stays ((h.disconnect id).sockets j) := by
  unfold Hub.disconnect
  rw [Hub.sockets_update]
  split
  · rename_i hj
    rw [hj]
    exact ⟨rfl, fun hc => by simp at hc, fun hc => by simp at hc⟩
  · exact .refl _

theorem stays_reject (h : Hub) (id j : String) (message : Option String) :
    (h.sockets j).Stays ((reject h id message).sockets j) := stays_disconnect _ _ _

/-- What an action of a handshake has done: it has authenticated its socket, as a user who is
`ACTIVE`, or else has left who everybody is alone. -/
theorem connectStep_sockets {cfg : AppConfig} {decode : String → Option Jwt} {id : String}
    {hs : Handshake} {h h' : Hub} {pc pc' : ConnectPc}
    (hstep : connectStep cfg decode id hs h pc = some (h', pc')) :
    (∀ j, (h.sockets j).Stays (h'.sockets j)) ∨ ∃ sub, pc = .user sub ∧ pc' = .joinUser sub ∧
      (∃ u ∈ h.world.db.users.rows, u.id = sub ∧ u.status = .ACTIVE) ∧
      h' = h.update id fun s => { s with userId := some sub } := by
  cases pc <;> simp only [connectStep] at hstep
  case verify =>
    left
    split at hstep
    · cases hstep; exact fun j => stays_reject h id j _
    · split at hstep
      · cases hstep; exact fun j => stays_reject h id j _
      · split at hstep <;> cases hstep
        · exact fun j => .refl _
        · exact fun j => stays_reject h id j _
  case user sub =>
    split at hstep
    · rename_i ha
      cases hstep
      obtain ⟨u, hf, hu⟩ := (Option.any_eq_true _ _).1 ha
      obtain ⟨hmem, hid⟩ := Table.find_some hf
      exact .inr ⟨sub, rfl, rfl, ⟨u, hmem, by simpa using hid, by simpa using hu⟩, rfl⟩
    · cases hstep; exact .inl fun j => stays_reject h id j _
  case joinUser u => cases hstep; exact .inl fun j => stays_join h id j _
  case memberships u => split at hstep <;> cases hstep <;> exact .inl fun j => .refl _
  case joinRooms u roomIds => cases hstep; exact .inl fun j => stays_join h id j _
  case presence u pc =>
    left
    obtain ⟨⟨world, pc₁⟩, -, he⟩ := Option.map_eq_some_iff.1 hstep
    simp only at he
    split at he <;> cases he
    · intro j
      simp only [Hub.sockets_update]
      split
      · rename_i hj
        rw [hj]
        exact ⟨rfl, fun hc => hc, fun _ r hr => hr⟩
      · exact .refl _
    · exact fun j => stays_reject { h with world } id j none
    · exact fun j => .refl _
  case myRooms u => split at hstep <;> cases hstep <;> exact .inl fun j => .refl _
  case coMembers u roomIds =>
    cases hstep
    refine .inl fun j => ?_
    rw [sockets_emitToUsers]
    exact .refl _
  case accepted u => cases hstep
  case rejected u => cases hstep

/-- A handshake reads the database, and no service hears of it. -/
theorem connectStep_world {cfg : AppConfig} {decode : String → Option Jwt} {id : String}
    {hs : Handshake} {h h' : Hub} {pc pc' : ConnectPc}
    (hstep : connectStep cfg decode id hs h pc = some (h', pc')) :
    h'.world.db = h.world.db ∧ h'.world.events = h.world.events ∧
      h'.world.pushed = h.world.pushed := by
  cases pc <;> simp only [connectStep] at hstep
  case verify =>
    split at hstep
    · cases hstep; exact ⟨rfl, rfl, rfl⟩
    · split at hstep
      · cases hstep; exact ⟨rfl, rfl, rfl⟩
      · split at hstep <;> cases hstep <;> exact ⟨rfl, rfl, rfl⟩
  case user sub => split at hstep <;> cases hstep <;> exact ⟨rfl, rfl, rfl⟩
  case joinUser u => cases hstep; exact ⟨rfl, rfl, rfl⟩
  case memberships u => split at hstep <;> cases hstep <;> exact ⟨rfl, rfl, rfl⟩
  case joinRooms u roomIds => cases hstep; exact ⟨rfl, rfl, rfl⟩
  case presence u pc =>
    obtain ⟨⟨world, pc₁⟩, hp, he⟩ := Option.map_eq_some_iff.1 hstep
    simp only at he
    obtain ⟨redis, rfl⟩ := Presence.addStep_world hp
    split at he <;> cases he <;> exact ⟨rfl, rfl, rfl⟩
  case myRooms u => split at hstep <;> cases hstep <;> exact ⟨rfl, rfl, rfl⟩
  case coMembers u roomIds =>
    cases hstep
    unfold emitToUsers
    split <;> exact ⟨rfl, rfl, rfl⟩
  case accepted u => cases hstep
  case rejected u => cases hstep

end Intaktok.Realtime
