import Intaktok.Rooms.Creations
/-
# Rooms and their messages

`chat` puts the requests of `MessagesService` and `RoomsService` side by side, as `RoomsService`
creates messages of its own. `ChatActs` sorts the actions by the request they belong to, and
`creations` is the message a request is creating.
-/

namespace Intaktok.Rooms

open Interleave Tables Messages

abbrev ChatCall := Messages.Call ⊕ (Call ⊕ UpdateCall)
abbrev ChatPc := Messages.Pc ⊕ (Pc ⊕ UpdatePc)

def chat (cfg : AppConfig) (json : Json) : Machine World ChatCall ChatPc Choice Nat :=
  (Messages.machine cfg json).sum ((machine json).sum (updateMachine json))

/-- What a request has come to. -/
def outcome : ChatPc → Option (Except Failure Unit)
  | .inl (.create (.done r)) => some (r.map fun _ => ())
  | .inl (.read (.done r)) | .inl (.delete (.done r)) => some r
  | .inr (.inl (.done r)) | .inr (.inr (.after (.done r))) => some (r.map fun _ => ())
  | _ => none

def Ended (pc : ChatPc) : Prop := (outcome pc).isSome = true

/-- The actions of a request. -/
inductive ChatActs (cfg : AppConfig) (json : Json) (c : Choice) (w : World) :
    ChatCall → ChatPc → World → ChatPc → Prop
  | create {p q w' q'} : CreateActs json c p w q w' q' →
      ChatActs cfg json c w (.inl (.createMessage p)) (.inl (.create q)) w' (.inl (.create q'))
  | read {r u n pc w' pc'} : readStep r u n w pc = some (w', pc') →
      ChatActs cfg json c w (.inl (.markRead r u n)) (.inl (.read pc)) w' (.inl (.read pc'))
  | delete {r m u pc w' pc'} : deleteStep cfg r m u w pc = some (w', pc') →
      ChatActs cfg json c w (.inl (.softDelete r m u)) (.inl (.delete pc)) w' (.inl (.delete pc'))
  | room {call pc w' pc'} : step json c call w pc = some (w', pc') →
      ChatActs cfg json c w (.inr (.inl call)) (.inr (.inl pc)) w' (.inr (.inl pc'))
  | update {r a dto pc w' pc'} : updateStep json c r a dto w pc = some (w', pc') →
      ChatActs cfg json c w (.inr (.inr (.updateRoom r a dto))) (.inr (.inr pc)) w'
        (.inr (.inr pc'))

theorem acts_of_chat {cfg : AppConfig} {json : Json} {c : Choice} {k : ChatCall} {w w' : World}
    {pc pc' : ChatPc} (h : (chat cfg json).step c k w pc = some (w', pc')) :
    ChatActs cfg json c w k pc w' pc' := by
  rcases Machine.sum_step h with ⟨call, l, l', rfl, rfl, rfl, hs⟩ | ⟨k₂, l, l', rfl, rfl, rfl, hs⟩
  · cases Messages.acts_of_step hs with
    | create hcreate => exact .create (acts_of_createStep hcreate)
    | read hread => exact .read hread
    | delete hdelete => exact .delete hdelete
  · rcases Machine.sum_step hs with ⟨call, l, l', rfl, rfl, rfl, hroom⟩ |
      ⟨⟨r, a, dto⟩, l, l', rfl, rfl, rfl, hupdate⟩
    · exact .room hroom
    · exact .update hupdate

/-- The room and the action of the message a tail is creating. -/
def Pc.creates : Pc → Option (String × CreatePc)
  | .tail r _ _ (.system q) _ => some (r, q)
  | _ => none

/-- The same for any request. -/
def creates : ChatCall → ChatPc → Option (String × CreatePc)
  | .inl (.createMessage p), .inl (.create q) => some (p.roomId, q)
  | _, .inr (.inl pc) => pc.creates
  | _, .inr (.inr (.after pc)) => pc.creates
  | _, _ => none

theorem creation_of_creates {pc : Pc} {r : String} {q : CreatePc}
    (h : pc.creates = some (r, q)) : pc.creation = some q := by
  unfold Pc.creates at h
  split at h <;> cases h
  rfl

/-- The message a request goes on creating, or is about to create. -/
theorem creates_afterCreate {json : Json} {r r' : String} {task : Task} {todo : List Task}
    {result : Option RoomView} {q q' : CreatePc}
    (h : (afterCreate json r task todo result q).creates = some (r', q')) :
    r' = r ∧ q' = q ∨ ∃ p, q' = Messages.createStart p := by
  have hbegins : ∀ {todo}, (proceed json r result todo).creates = some (r', q') →
      ∃ p, q' = Messages.createStart p := fun hp => begins_proceed _ (creation_of_creates hp)
  unfold afterCreate at h
  split at h
  · exact .inr (hbegins h)
  · cases h
  · cases h
    exact .inl ⟨rfl, rfl⟩

end Intaktok.Rooms
