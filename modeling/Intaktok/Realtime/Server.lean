import Intaktok.Realtime.Gateway
/-
# The server: services, sockets and what connects them

| here | there |
| --- | --- |
| `onEvent` | the `@OnEvent` handlers of `RealtimeGateway` (`realtime.gateway.ts:227`–`:261`); `EventEmitter2` calls them within `emit` |
| `Hub.disconnectSockets` | `server.in(room).disconnectSockets(true)` |
| `hosted` | calls of a service that knows nothing of sockets |
| `broadcasting` | a machine whose domain events reach the gateway |
-/

namespace Intaktok.Realtime

open Interleave

def Hub.disconnectSockets (h : Hub) (room : String) : Hub :=
  { h with sockets := fun id =>
      let s := h.sockets id
      if s.rooms.contains room then { s with rooms := [], connected := false } else s }

def onEvent (h : Hub) : DomainEvent → Hub
  | .messageCreated message memberUserIds _ _ => emitToUsers h memberUserIds (.messageNew message)
  | .messageRead roomId userId lastReadSeq memberUserIds =>
    emitToUsers h memberUserIds (.messageRead roomId userId lastReadSeq)
  | .messageDeleted roomId messageId memberUserIds =>
    emitToUsers h memberUserIds (.messageDeleted roomId messageId)
  | .roomCreated room _ memberUserIds => emitToUsers h memberUserIds (.roomCreated room)
  | .roomUpdated room _ memberUserIds => emitToUsers h memberUserIds (.roomUpdated room)
  | .sessionRevoked userId => h.disconnectSockets (userRoom userId)

/-- The gateway's answer to the events that have been emitted since `events`. -/
def deliver (events : List DomainEvent) (h : Hub) : Hub :=
  (h.world.events.drop events.length).foldl onEvent h

def hosted {κ π : Type} (cfg : AppConfig) (M : Machine World κ π Choice Nat) :
    Machine Hub κ π Choice Env where
  start := M.start
  step c k h l := (M.step c k h.world l).map fun r => ({ h with world := r.1 }, r.2)
  env := env cfg

def broadcasting {κ π : Type} (M : Machine Hub κ π Choice Env) : Machine Hub κ π Choice Env where
  start := M.start
  step c k h l := (M.step c k h l).map fun r => (deliver h.world.events r.1, r.2)
  env := M.env

/-! ## What an action of the server is -/

theorem hosted_step {κ π : Type} {cfg : AppConfig} {M : Machine World κ π Choice Nat} {c : Choice}
    {k : κ} {h h' : Hub} {l l' : π} (hs : (hosted cfg M).step c k h l = some (h', l')) :
    ∃ w, M.step c k h.world l = some (w, l') ∧ h' = { h with world := w } := by
  obtain ⟨⟨w, l₁⟩, hM, he⟩ := Option.map_eq_some_iff.1 hs
  cases he
  exact ⟨w, hM, rfl⟩

theorem broadcasting_step {κ π : Type} {M : Machine Hub κ π Choice Env} {c : Choice} {k : κ}
    {h h' : Hub} {l l' : π} (hs : (broadcasting M).step c k h l = some (h', l')) :
    ∃ h₁, M.step c k h l = some (h₁, l') ∧ h' = deliver h.world.events h₁ := by
  obtain ⟨⟨h₁, l₁⟩, hM, he⟩ := Option.map_eq_some_iff.1 hs
  cases he
  exact ⟨h₁, hM, rfl⟩

theorem deliver_of_events {events new : List DomainEvent} {h : Hub}
    (he : h.world.events = events ++ new) : deliver events h = new.foldl onEvent h := by
  rw [deliver, he, List.drop_left]

/-- Without an event nothing is sent. -/
theorem deliver_same {events : List DomainEvent} {h : Hub} (he : h.world.events = events) :
    deliver events h = h := by
  have he' : h.world.events = events ++ [] := by simpa using he
  exact deliver_of_events he'

theorem world_onEvent (h : Hub) (e : DomainEvent) : (onEvent h e).world = h.world := by
  cases e <;> simp only [onEvent]
  case sessionRevoked => rfl
  all_goals unfold emitToUsers; split <;> rfl

@[simp] theorem world_deliver (events : List DomainEvent) (h : Hub) :
    (deliver events h).world = h.world := by
  unfold deliver
  generalize h.world.events.drop events.length = new
  induction new generalizing h with
  | nil => rfl
  | cons e new ih => rw [List.foldl_cons, ih, world_onEvent]

end Intaktok.Realtime
