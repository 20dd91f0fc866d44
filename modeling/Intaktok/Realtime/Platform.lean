import Intaktok.Realtime.Server
import Intaktok.Realtime.Events
import Intaktok.Admin.Service
import Intaktok.Admin.Whitelist
import Intaktok.Rooms.UpdateRoom
import Intaktok.Push.Service
import Intaktok.Media.Service
import Intaktok.Profile.Service
/-
# The whole server

Every service behind its REST routes, as one `family` over the database and Redis, next to the
gateway with the events of its sockets. What a service emits the gateway sends on
(`broadcasting`); the listener of `PushService` is a call of its own, for an event that has been
emitted.
-/

namespace Intaktok.Realtime

open Interleave

inductive Service where
  | auth | admin | whitelist | messages | rooms | roomUpdates | push | media | profile
deriving DecidableEq, Repr

abbrev Service.Call : Service → Type
  | .auth => Auth.Call
  | .admin => Admin.Call
  | .whitelist => Admin.EntryCall
  | .messages => Messages.Call
  | .rooms => Rooms.Call
  | .roomUpdates => Rooms.UpdateCall
  | .push => Push.Call
  | .media => MediaService.Call
  | .profile => ProfileService.Call

abbrev Service.Pc : Service → Type
  | .auth => Auth.Pc
  | .admin => Admin.Pc
  | .whitelist => Admin.EntryPc
  | .messages => Messages.Pc
  | .rooms => Rooms.Pc
  | .roomUpdates => Rooms.UpdatePc
  | .push => Push.Pc
  | .media => MediaService.Pc
  | .profile => ProfileService.Pc

def Service.machine (cfg : AppConfig) (json : Messages.Json) :
    (s : Service) → Machine World s.Call s.Pc Choice Nat
  | .auth => Auth.machine cfg
  | .admin => Admin.machine
  | .whitelist => Admin.entryMachine
  | .messages => Messages.machine cfg json
  | .rooms => Rooms.machine json
  | .roomUpdates => Rooms.updateMachine json
  | .push => Push.machine cfg
  | .media => MediaService.machine cfg
  | .profile => ProfileService.machine cfg

def Service.returned : (s : Service) → s.Pc → Bool
  | .auth, .done _ | .admin, .done _ | .whitelist, .done _ | .messages, .create (.done _)
  | .messages, .read (.done _) | .messages, .delete (.done _) | .rooms, .done _
  | .roomUpdates, .after (.done _) | .push, .done _ | .media, .done _ | .profile, .done _ => true
  | _, _ => false

/-- A handshake, an event of a socket, or a request to a service. -/
abbrev ServerCall := (Call ⊕ EventCall) ⊕ (s : Service) × s.Call
abbrev ServerPc := (Pc ⊕ EventPc) ⊕ (s : Service) × s.Pc

def server (cfg : AppConfig) (decode : String → Option Jwt) (json : Messages.Json) :
    Machine Hub ServerCall ServerPc Choice Env :=
  broadcasting (((machine cfg decode).sum (eventMachine cfg json)).sum
    (hosted cfg (Machine.family (Service.machine cfg json) World.tick)))

def returned : ServerPc → Bool
  | .inl (.inl (.connect (.accepted _))) | .inl (.inl (.connect (.rejected _)))
  | .inl (.inl (.read (.done _))) | .inl (.inr (.send (.done _))) | .inl (.inr (.delete (.done _)))
  | .inl (.inr (.join (.done _))) | .inl (.inr (.disconnect .done)) => true
  | .inr ⟨s, pc⟩ => s.returned pc
  | _ => false

/-- What a process does before the gateway sends on what has been emitted. -/
inductive ServerActs (cfg : AppConfig) (decode : String → Option Jwt) (json : Messages.Json)
    (c : Choice) (h : Hub) : ServerCall → ServerPc → Hub → ServerPc → Prop
  | socket {call pc h' pc'} : step cfg decode call h pc = some (h', pc') →
      ServerActs cfg decode json c h (.inl (.inl call)) (.inl (.inl pc)) h' (.inl (.inl pc'))
  | event {call pc h' pc'} : eventStep cfg json c call h pc = some (h', pc') →
      ServerActs cfg decode json c h (.inl (.inr call)) (.inl (.inr pc)) h' (.inl (.inr pc'))
  | service {s : Service} {call : s.Call} {pc pc' : s.Pc} {w : World} :
      (s.machine cfg json).step c call h.world pc = some (w, pc') →
      ServerActs cfg decode json c h (.inr ⟨s, call⟩) (.inr ⟨s, pc⟩) { h with world := w }
        (.inr ⟨s, pc'⟩)

theorem server_step {cfg : AppConfig} {decode : String → Option Jwt} {json : Messages.Json}
    {c : Choice} {k : ServerCall} {h h' : Hub} {l l' : ServerPc}
    (hs : (server cfg decode json).step c k h l = some (h', l')) :
    ∃ h₁, ServerActs cfg decode json c h k l h₁ l' ∧ h' = deliver h.world.events h₁ := by
  obtain ⟨h₁, hsum, rfl⟩ := broadcasting_step hs
  refine ⟨h₁, ?_, rfl⟩
  rcases Machine.sum_step hsum with ⟨k₁, l₁, l₁', rfl, rfl, rfl, hgateway⟩ |
    ⟨k₁, l₁, l₁', rfl, rfl, rfl, hhosted⟩
  · rcases Machine.sum_step hgateway with ⟨call, pc, pc', rfl, rfl, rfl, hstep⟩ |
      ⟨call, pc, pc', rfl, rfl, rfl, hstep⟩
    · exact .socket hstep
    · exact .event hstep
  · obtain ⟨w, hfamily, rfl⟩ := hosted_step hhosted
    obtain ⟨s, call, pc, pc', rfl, rfl, rfl, hstep⟩ := Machine.family_step hfamily
    exact .service hstep

end Intaktok.Realtime
