import Intaktok.Rooms.Actions
/-
# `RoomsService.updateRoom`

| here | there |
| --- | --- |
| `UpdateRoomDto` | `rooms/dto/room.dto.ts:37`; a field is absent, null or a value (`@IsOptional` lets null through) |
| `UpdatePc`, `updateStep` | `updateRoom` (`rooms.service.ts:236`) behind the guard |
| `afterUpdate` | its system messages, the lifecycle event and the view, one after the other |

The tail of the request is that of the other ones (`tailStep`).
-/

namespace Intaktok.Rooms

open Interleave Tables Messages

structure UpdateRoomDto where
  name : Option (Option String) := none
  avatarMediaId : Option (Option String) := none
deriving DecidableEq, Repr

inductive UpdateCall where
  | updateRoom (roomId actorId : String) (dto : UpdateRoomDto)

inductive UpdatePc where
  | guard
  | room (role : MemberRole)
  | avatar (room : Room) (mediaId : String)
  | update (room : Room)
  /-- The request has written, or failed. -/
  | after (pc : Pc)

def UpdatePc.fail (e : AppException) : UpdatePc := .after (.fail e)

/-- The `data` of the write: only the fields the request names. -/
def UpdateRoomDto.apply (dto : UpdateRoomDto) (room : Room) : Room :=
  { room with
    name := dto.name.getD room.name
    avatarMediaId := dto.avatarMediaId.getD room.avatarMediaId }

def updateRooms (t : Table Room) (roomId : String) (dto : UpdateRoomDto) : Table Room :=
  t.updateWhere (·.id == roomId) dto.apply fun c _ _ => by cases c <;> rfl

/-- What `assertOwnedMediaOrNull` looks up. -/
def UpdateRoomDto.media (dto : UpdateRoomDto) : Option String := truthy (dto.avatarMediaId.getD none)

/-- On to the avatar, if one is named. -/
def afterChecks (dto : UpdateRoomDto) (room : Room) : UpdatePc :=
  match dto.media with
  | some mediaId => .avatar room mediaId
  | none => .update room

/-- `room` is the row as the request has found it. -/
def afterUpdate (json : Json) (roomId actorId : String) (dto : UpdateRoomDto) (room : Room) : Pc :=
  let renamed := match dto.name with
    | some name => if name = room.name then [] else [.system actorId (.roomRenamed actorId name)]
    | none => []
  let avatar := match dto.avatarMediaId with
    | some _ => [.system actorId (.roomAvatarChanged actorId)]
    | none => []
  proceed json roomId none (renamed ++ avatar ++ [.lifecycle .ROOM_UPDATED .active, .view actorId])

def updateStep (json : Json) (c : Choice) (roomId actorId : String) (dto : UpdateRoomDto)
    (w : World) : UpdatePc → Option (World × UpdatePc)
  | .guard => some (w, match canActivate w.db roomId actorId with
    | .error e => .fail e
    | .ok role => .room role)
  | .room role => some (w, match requireGroup w.db roomId with
    | .error e => .fail e
    | .ok room => match requireRole role [.OWNER, .ADMIN] with
      | .error e => .fail e
      | .ok () => afterChecks dto room)
  | .avatar room mediaId => some (w, match MediaService.assertOwnedMedia w.db mediaId actorId with
    | .error e => .fail e
    | .ok () => .update room)
  | .update room =>
    if w.db.rooms.rows.any (·.id == roomId) then
      some ({ w with db.rooms := updateRooms w.db.rooms roomId dto },
        .after (afterUpdate json roomId actorId dto room))
    else some (w, .after (.done (.error .recordNotFound)))
  | .after (.tail roomId task todo pc result) =>
    (tailStep json c roomId task todo result w pc).map fun r => (r.1, .after r.2)
  | .after _ => none

/-- Only time passes by itself. -/
def updateMachine (json : Json) : Machine World UpdateCall UpdatePc Choice Nat where
  start _ := .guard
  step
    | c, .updateRoom roomId actorId dto, w, pc => updateStep json c roomId actorId dto w pc
  env := World.tick

/-! ## What one action does -/

/-- The actions of `updateRoom`. -/
inductive UpdateActs (json : Json) (c : Choice) (roomId actorId : String) (dto : UpdateRoomDto)
    (w : World) : UpdatePc → World → UpdatePc → Prop
  | refused {pc e} : UpdateActs json c roomId actorId dto w pc w (.after (.done (.error e)))
  | entered {m} : crew w.db.roomMembers roomId actorId = some m →
      UpdateActs json c roomId actorId dto w .guard w (.room m.role)
  | group {role room} : requireGroup w.db roomId = .ok room → role = .OWNER ∨ role = .ADMIN →
      UpdateActs json c roomId actorId dto w (.room role) w (afterChecks dto room)
  | owned {room mediaId} : MediaService.assertOwnedMedia w.db mediaId actorId = .ok () →
      UpdateActs json c roomId actorId dto w (.avatar room mediaId) w (.update room)
  | updated {room pc'} : pc'.Between →
      UpdateActs json c roomId actorId dto w (.update room)
        { w with db.rooms := updateRooms w.db.rooms roomId dto } (.after pc')
  | after {r task todo pc result w' pc'} :
      tailStep json c r task todo result w pc = some (w', pc') →
      UpdateActs json c roomId actorId dto w (.after (.tail r task todo pc result)) w' (.after pc')

theorem acts_of_updateRoom {json : Json} {c : Choice} {roomId actorId : String}
    {dto : UpdateRoomDto} {w w' : World} {pc pc' : UpdatePc}
    (h : updateStep json c roomId actorId dto w pc = some (w', pc')) :
    UpdateActs json c roomId actorId dto w pc w' pc' := by
  cases pc <;> simp only [updateStep] at h
  case guard =>
    cases h
    split
    · exact .refused
    · rename_i hok
      obtain ⟨m, hm, rfl⟩ := canActivate_ok hok
      exact .entered hm
  case room role =>
    cases h
    split
    · exact .refused
    · rename_i hgroup
      split
      · exact .refused
      · rename_i hrole
        exact .group hgroup (by simpa using requireRole_ok hrole)
  case avatar room mediaId =>
    cases h
    split
    · exact .refused
    · rename_i hok; exact .owned hok
  case update room =>
    split at h <;> cases h
    · exact .updated (between_proceed ..)
    · exact .refused
  case after pc =>
    cases pc with
    | tail r task todo pc result =>
      obtain ⟨⟨w₁, pc₁⟩, hs, he⟩ := Option.map_eq_some_iff.1 h
      cases he
      exact .after hs
    | _ => cases h

end Intaktok.Rooms
