import Intaktok.Realtime.Announcements
/-
# Who refers to media

`getMedia` opens an object by what refers to it (`media.service.ts:119`): the `mediaId` of a
message, the avatar of a profile, the avatar of a room. Each of the paths that store such a
reference looks first whether the requester has uploaded the object, and an upload stays what it
is (`checked_of_step`). What an action stores is read off `sends_of_step`, `avatar_of_step` and
`roomAvatar_of_step`.
-/

namespace Intaktok

open Tables

/-- The object has been uploaded by `u`. -/
def Uploaded (db : Db) (mediaId u : String) : Prop :=
  ∃ x ∈ db.media.rows, x.id = mediaId ∧ x.uploaderId = u

theorem Uploaded.unique {db : Db} {mediaId u v : String} (hu : Uploaded db mediaId u)
    (hv : Uploaded db mediaId v) : u = v := by
  obtain ⟨x, hx, hxid, rfl⟩ := hu
  obtain ⟨y, hy, hyid, rfl⟩ := hv
  rw [media_eq_of_id hx hy (hxid.trans hyid.symm)]

theorem uploaded_of_assertOwnedMedia {db : Db} {mediaId u : String}
    (h : Messages.assertOwnedMedia db mediaId u = none) : Uploaded db mediaId u := by
  unfold Messages.assertOwnedMedia at h
  split at h
  · rename_i x hf
    obtain ⟨hx, hid⟩ := Table.find_some hf
    split at h
    · rename_i hu; exact ⟨x, hx, by simpa using hid, hu⟩
    · cases h
  · cases h

theorem MediaService.uploaded_of_assertOwnedMedia {db : Db} {mediaId u : String}
    (h : MediaService.assertOwnedMedia db mediaId u = .ok ()) : Uploaded db mediaId u := by
  unfold MediaService.assertOwnedMedia at h
  split at h
  · cases h
  · rename_i x hf
    obtain ⟨hx, hid⟩ := Table.find_some hf
    split at h
    · cases h
    · rename_i hu; exact ⟨x, hx, by simpa using hid, not_not.1 hu⟩

/-- The rows of the messages are as they were, or the insert has appended its row to them. -/
theorem Messages.rows_of_acts {json : Messages.Json} {c : Choice} {p : Messages.CreateMessageParams}
    {w w' : World} {pc pc' : Messages.CreatePc} (h : Messages.CreateActs json c p w pc w' pc') :
    w'.db.messages = w.db.messages ∨ ∃ a seq type, pc = .insert a seq ∧
      w'.db.messages.rows = w.db.messages.rows ++ [p.row type c.id seq w.now] := by
  cases h.effect with
  | inserted _ _ ht _ => exact .inr ⟨_, _, _, rfl, (Table.insert_ok ht).2⟩
  | _ => exact .inl rfl

/-- The avatar of a profile is there already, or has been set by the request. -/
theorem ProfileService.avatar_of_step {cfg : AppConfig} {call : ProfileService.Call} {w w' : World}
    {pc pc' : ProfileService.Pc} (h : ProfileService.step cfg call w pc = some (w', pc'))
    {x : Profile} {m : String} (hx : x ∈ w'.db.profiles.rows) (hm : x.avatarMediaId = some m)
    (hne : m ≠ "") :
    (∃ y ∈ w.db.profiles.rows, y.userId = x.userId ∧ y.avatarMediaId = some m) ∨
      pc = .write ∧ call.userId = x.userId ∧ call.media = some m := by
  cases pc <;> simp only [ProfileService.step] at h
  case existing => cases call <;> cases h <;> exact .inl ⟨x, hx, rfl, hm⟩
  case avatar i => cases h; exact .inl ⟨x, hx, rfl, hm⟩
  case resolve profile i => cases h; exact .inl ⟨x, hx, rfl, hm⟩
  case done r => cases call <;> cases h
  case write =>
    cases call with
    | create userId dto =>
      simp only [ProfileService.createStep] at h
      split at h
      · cases h
        obtain ⟨y, hy, rfl⟩ := List.mem_map.1 hx
        split at hm
        · rename_i hu
          simp only [hu, if_true, true_and]
          exact .inr ⟨(beq_iff_eq.1 hu).symm, truthy_eq_some.2 ⟨hm, hne⟩⟩
        · rename_i hu
          exact .inl ⟨y, hy, by simp [hu], hm⟩
      · split at h
        · cases h; exact .inl ⟨x, hx, rfl, hm⟩
        · rename_i t ht
          split at h <;> cases h
          · rcases (Table.mem_insert ht).1 hx with hx | rfl
            · exact .inl ⟨x, hx, rfl, hm⟩
            · exact .inr ⟨rfl, rfl, truthy_eq_some.2 ⟨hm, hne⟩⟩
          · exact .inl ⟨x, hx, rfl, hm⟩
    | update userId dto =>
      simp only [ProfileService.updateStep] at h
      split at h
      · cases h; exact .inl ⟨x, hx, rfl, hm⟩
      · split at h <;> cases h
        · exact .inl ⟨x, hx, rfl, hm⟩
        · obtain ⟨y, hy, rfl⟩ := List.mem_map.1 hx
          split at hm
          · rename_i hu
            simp only [hu, if_true, true_and]
            cases hdto : dto.avatarMediaId with
            | none =>
              simp only [ProfileService.UpdateProfileDto.apply, hdto, Option.getD_none] at hm
              exact .inl ⟨y, hy, rfl, hm⟩
            | some avatar =>
              simp only [ProfileService.UpdateProfileDto.apply, hdto, Option.getD_some] at hm
              refine .inr ⟨(beq_iff_eq.1 hu).symm, ?_⟩
              rw [ProfileService.Call.media, hdto]
              exact truthy_eq_some.2 ⟨hm, hne⟩
          · rename_i hu
            exact .inl ⟨y, hy, by simp [hu], hm⟩

/-- What an action of `MediaService` leaves of the uploads. -/
structure UploadsKept (t t' : Table Media) : Prop where
  kept : ∀ x ∈ t.rows, ∃ y ∈ t'.rows, y.id = x.id ∧ y.uploaderId = x.uploaderId
  ids : ∀ y ∈ t'.rows, y.id ≠ "" ∨ ∃ x ∈ t.rows, x.id = y.id

theorem UploadsKept.refl (t : Table Media) : UploadsKept t t :=
  ⟨fun x hx => ⟨x, hx, rfl, rfl⟩, fun y hy => .inr ⟨y, hy, rfl⟩⟩

theorem MediaService.uploadsKept_of_step {cfg : AppConfig} {c : Choice} {call : MediaService.Call}
    {w w' : World} {pc pc' : MediaService.Pc}
    (h : MediaService.step cfg c call w pc = some (w', pc')) :
    UploadsKept w.db.media w'.db.media := by
  cases MediaService.acts_of_step h with
  | created hid _ _ hins =>
    refine ⟨fun x hx => ⟨x, (Table.mem_insert hins).2 (.inl hx), rfl, rfl⟩, fun y hy => ?_⟩
    rcases (Table.mem_insert hins).1 hy with hy | rfl
    · exact .inr ⟨y, hy, rfl⟩
    · exact .inl hid
  | completed _ _ =>
    refine ⟨fun x hx => ⟨_, MediaService.mem_updateMedia.2 ⟨x, hx, rfl⟩, ?_⟩, fun y hy => ?_⟩
    · split <;> exact ⟨rfl, rfl⟩
    · obtain ⟨x, hx, rfl⟩ := MediaService.mem_updateMedia.1 hy
      exact .inr ⟨x, hx, by split <;> rfl⟩
  | _ => exact .refl _

theorem Uploaded.kept {db db' : Db} {mediaId u : String} (hk : UploadsKept db.media db'.media)
    (h : Uploaded db mediaId u) : Uploaded db' mediaId u := by
  obtain ⟨x, hx, rfl, rfl⟩ := h
  obtain ⟨y, hy, hid, hu⟩ := hk.kept x hx
  exact ⟨y, hy, hid, hu⟩

/-! ## Rooms -/

namespace Rooms

/-- A request changes no room it does not create. -/
theorem stubs_of_step {json : Messages.Json} {c : Choice} {call : Call} {w w' : World}
    {pc pc' : Pc} (h : step json c call w pc = some (w', pc')) :
    roomStubs w'.db = roomStubs w.db ∨ ∃ creatorId dto room,
      call = .createRoom creatorId dto ∧ roomStubs w'.db = roomStubs w.db ++ [roomStub room] ∧
      (room.avatarMediaId = none ∨ pc = .insertGroup ∧ room.type = .GROUP ∧
        room.avatarMediaId = dto.avatarMediaId) := by
  unfold step at h
  split at h
  · exact .inl (tail_step h).1.rooms
  · cases call with
    | createRoom creatorId dto =>
      cases pc <;> simp only [createStep] at h
      case insertDirect =>
        split at h
        · split at h <;> cases h
          · rename_i hins
            exact .inr ⟨creatorId, dto, _, rfl, roomStubs_insertRoom hins, .inl rfl⟩
          · exact .inl rfl
          · exact .inl rfl
        · cases h
      case insertGroup =>
        split at h
        · split at h <;> cases h
          · rename_i hins
            exact .inr ⟨creatorId, dto, _, rfl, roomStubs_insertRoom hins, .inr ⟨rfl, rfl, rfl⟩⟩
          · exact .inl rfl
        · cases h
      all_goals cases h <;> exact .inl rfl
    | addMembers r a userIds =>
      exact .inl (by rw [roomStubs, (acts_of_addMembers h).rooms]; rfl)
    | updateMemberRole r a t role =>
      exact .inl (by rw [roomStubs, (acts_of_updateMemberRole h).rooms]; rfl)
    | removeMember r a t =>
      exact .inl (by rw [roomStubs, (acts_of_removeMember h).rooms]; rfl)

theorem stubs_updateRooms (db : Db) (roomId : String) (dto : UpdateRoomDto) :
    roomStubs { db with rooms := updateRooms db.rooms roomId dto } =
      (roomStubs db).map fun x => if x.id == roomId then dto.apply x else x := by
  simp only [roomStubs, updateRooms, Table.updateWhere, List.map_map]
  refine List.map_congr_left fun x _ => ?_
  simp only [Function.comp_apply]
  have hid : (roomStub x).id = x.id := rfl
  rw [hid]
  split <;> rfl

/-- `updateRoom` changes the room it names, when it comes to its write. -/
theorem stubs_of_updateStep {json : Messages.Json} {c : Choice} {roomId actorId : String}
    {dto : UpdateRoomDto} {w w' : World} {pc pc' : UpdatePc}
    (h : updateStep json c roomId actorId dto w pc = some (w', pc')) :
    roomStubs w'.db = roomStubs w.db ∨ (∃ room, pc = .update room) ∧ roomStubs w'.db =
      (roomStubs w.db).map fun x => if x.id == roomId then dto.apply x else x := by
  cases acts_of_updateRoom h with
  | after hs => exact .inl (tail_step hs).1.rooms
  | updated => exact .inr ⟨⟨_, rfl⟩, stubs_updateRooms w.db roomId dto⟩
  | _ => exact .inl rfl

/-- A room stays of its type. -/
theorem hasType_of_step {json : Messages.Json} {c : Choice} {call : Call} {w w' : World}
    {pc pc' : Pc} (h : step json c call w pc = some (w', pc')) {r : String} {type : RoomType}
    (ht : HasType w.db r type) : HasType w'.db r type := by
  obtain ⟨x, hx, hid, htype⟩ := ht
  refine ⟨x, ?_, hid, htype⟩
  rcases stubs_of_step h with hs | ⟨_, _, _, _, hs, -⟩
  · rwa [hs]
  · rw [hs]; exact List.mem_append_left _ hx

theorem hasType_of_updateStep {json : Messages.Json} {c : Choice} {roomId actorId : String}
    {dto : UpdateRoomDto} {w w' : World} {pc pc' : UpdatePc}
    (h : updateStep json c roomId actorId dto w pc = some (w', pc')) {r : String}
    {type : RoomType} (ht : HasType w.db r type) : HasType w'.db r type := by
  obtain ⟨x, hx, hid, htype⟩ := ht
  rcases stubs_of_updateStep h with hs | ⟨-, hs⟩
  · exact ⟨x, by rwa [hs], hid, htype⟩
  · refine ⟨_, by rw [hs]; exact List.mem_map_of_mem hx, ?_⟩
    split <;> exact ⟨hid, htype⟩

end Rooms

/-! ## Who writes what media refer to -/

namespace Realtime

open Interleave
open Rooms (roomStubs HasType)
open Messages (CreateMessageParams CreatePc CreateActs)

/-- Calls of the services that write profiles, rooms or media. -/
def writesReferences : ServerCall → Bool
  | .inr ⟨.media, _⟩ | .inr ⟨.profile, _⟩ | .inr ⟨.rooms, _⟩ | .inr ⟨.roomUpdates, _⟩ => true
  | _ => false

inductive Writes (cfg : AppConfig) (json : Messages.Json) (c : Choice) (w w' : World) :
    ServerCall → ServerPc → ServerPc → Prop
  | media {call pc pc'} : MediaService.step cfg c call w pc = some (w', pc') →
      Writes cfg json c w w' (.inr ⟨.media, call⟩) (.inr ⟨.media, pc⟩) (.inr ⟨.media, pc'⟩)
  | profile {call pc pc'} : ProfileService.step cfg call w pc = some (w', pc') →
      Writes cfg json c w w' (.inr ⟨.profile, call⟩) (.inr ⟨.profile, pc⟩) (.inr ⟨.profile, pc'⟩)
  | rooms {call pc pc'} : Rooms.step json c call w pc = some (w', pc') →
      Writes cfg json c w w' (.inr ⟨.rooms, call⟩) (.inr ⟨.rooms, pc⟩) (.inr ⟨.rooms, pc'⟩)
  | roomUpdates {r a dto pc pc'} : Rooms.updateStep json c r a dto w pc = some (w', pc') →
      Writes cfg json c w w' (.inr ⟨.roomUpdates, .updateRoom r a dto⟩) (.inr ⟨.roomUpdates, pc⟩)
        (.inr ⟨.roomUpdates, pc'⟩)
  | other {k l l'} : writesReferences k = false → w'.db.media = w.db.media →
      w'.db.profiles = w.db.profiles → roomStubs w'.db = roomStubs w.db →
      Writes cfg json c w w' k l l'

section Step
variable {cfg : AppConfig} {decode : String → Option Jwt} {json : Messages.Json} {c : Choice}
  {h h' : Hub}

theorem writes_of_service {s : Service} {call : s.Call} {pc pc' : s.Pc} {w w' : World}
    (hs : (s.machine cfg json).step c call w pc = some (w', pc')) :
    Writes cfg json c w w' (.inr ⟨s, call⟩) (.inr ⟨s, pc⟩) (.inr ⟨s, pc'⟩) := by
  cases s with
  | auth => obtain ⟨_, _, _, _, _, rfl⟩ := Auth.step_db hs; exact .other rfl rfl rfl rfl
  | admin =>
    obtain ⟨⟨_, _, hdb⟩, -⟩ := Admin.step_db hs
    exact .other rfl (by rw [hdb]) (by rw [hdb]) (by rw [roomStubs, hdb]; rfl)
  | whitelist => obtain ⟨_, _, rfl⟩ := Admin.entryStep_db hs; exact .other rfl rfl rfl rfl
  | messages =>
    obtain ⟨⟨_, _, _, hdb⟩, -⟩ := Messages.step_db hs
    refine .other rfl (by rw [hdb]) (by rw [hdb]) ?_
    rcases Messages.step_cases hs with ⟨_, _, _, -, -, -, hacts⟩ | ⟨-, haside⟩
    · exact (Rooms.kept_of_createActs hacts).rooms
    · rw [roomStubs, haside.rooms]; rfl
  | rooms => exact .rooms hs
  | roomUpdates =>
    cases call with
    | updateRoom r a dto => exact .roomUpdates hs
  | push => obtain ⟨_, _, rfl⟩ := Push.step_db hs; exact .other rfl rfl rfl rfl
  | media => exact .media hs
  | profile => exact .profile hs

theorem writes_of_step {k : ServerCall} {l l' : ServerPc}
    (hs : (server cfg decode json).step c k h l = some (h', l')) :
    Writes cfg json c h.world h'.world k l l' := by
  obtain ⟨h₁, hacts, rfl⟩ := server_step hs
  rw [world_deliver]
  cases hacts with
  | socket hsocket =>
    cases acts_of_socket hsocket with
    | connect hconnect =>
      have hdb := (connectStep_world hconnect).1
      exact .other rfl (by rw [hdb]) (by rw [hdb]) (by rw [roomStubs, hdb]; rfl)
    | read hread =>
      obtain ⟨w, rfl, ⟨members, hdb⟩, -⟩ := onReadStep_world hread
      exact .other rfl (by rw [hdb]) (by rw [hdb]) (by rw [roomStubs, hdb]; rfl)
  | event hevent =>
    obtain ⟨-, ⟨_, _, _, hdb⟩, -⟩ := eventStep_world hevent
    exact .other rfl (by rw [hdb]) (by rw [hdb]) (kept_of_eventStep hevent).rooms
  | service hservice => exact writes_of_service hservice

/-- What has been found out about uploads and rooms stays true. -/
structure Found (db db' : Db) : Prop where
  uploads : UploadsKept db.media db'.media
  types : ∀ {r type}, HasType db r type → HasType db' r type

theorem found_of_step {k : ServerCall} {l l' : ServerPc}
    (hs : (server cfg decode json).step c k h l = some (h', l')) :
    Found h.world.db h'.world.db := by
  cases writes_of_step hs with
  | media hm =>
    obtain ⟨_, _, hw⟩ := MediaService.step_db hm
    refine ⟨MediaService.uploadsKept_of_step hm, ?_⟩
    rw [hw]
    exact fun ht => ht
  | profile hp =>
    obtain ⟨_, hw⟩ := ProfileService.step_db hp
    rw [hw]
    exact ⟨.refl _, fun ht => ht⟩
  | rooms hr =>
    obtain ⟨⟨_, _, _, hdb⟩, -⟩ := Rooms.step_db hr
    refine ⟨?_, Rooms.hasType_of_step hr⟩
    rw [hdb]
    exact .refl _
  | roomUpdates hr =>
    obtain ⟨⟨_, _, hdb⟩, -⟩ := Rooms.updateStep_db hr
    refine ⟨?_, Rooms.hasType_of_updateStep hr⟩
    rw [hdb]
    exact .refl _
  | other _ hm _ hr =>
    refine ⟨hm ▸ .refl _, fun ht => ?_⟩
    rw [HasType, hr]
    exact ht

/-! ## What a request has looked up -/

/-- The object, if one is named, has been uploaded by `u`. -/
def Vouched (db : Db) (media : Option String) (u : String) : Prop :=
  ∀ m, media = some m → Uploaded db m u

/-- Until the `insert` a client's message carries an object its sender has uploaded. -/
def CreateChecked (db : Db) (p : CreateMessageParams) : CreatePc → Prop
  | .media i => truthy p.mediaId = some i
  | .reply _ | .seqExists _ | .seqMax _ | .seqSetNx _ _ | .seqIncr _ | .insert _ _
  | .resyncMax _ | .resyncSet _ _ => p.isSystem = true ∨ Vouched db (truthy p.mediaId) p.senderId
  | _ => True

def ProfileChecked (db : Db) (call : ProfileService.Call) : ProfileService.Pc → Prop
  | .avatar i => call.media = some i
  | .write => Vouched db call.media call.userId
  | _ => True

def CreateRoomChecked (db : Db) (creatorId : String) (dto : Rooms.CreateRoomDto) : Rooms.Pc → Prop
  | .avatar i => truthy dto.avatarMediaId = some i
  | .insertGroup => Vouched db (truthy dto.avatarMediaId) creatorId
  | _ => True

def UpdateRoomChecked (db : Db) (roomId actorId : String) (dto : Rooms.UpdateRoomDto) :
    Rooms.UpdatePc → Prop
  | .avatar _ i => dto.media = some i ∧ HasType db roomId .GROUP
  | .update _ => Vouched db dto.media actorId ∧ HasType db roomId .GROUP
  | _ => True

/-- The object a `getMedia` has found is the one it was asked for. -/
def GetChecked (db : Db) (mediaId : String) : MediaService.Pc → Prop
  | .message x | .avatar x | .roomAvatar x | .url x => x.id = mediaId ∧ Uploaded db mediaId x.uploaderId
  | _ => True

def Checked (json : Messages.Json) (db : Db) (k : ServerCall) (l : ServerPc) : Prop :=
  (∀ p pc, creation json k l = some (p, pc) → CreateChecked db p pc) ∧
    match k, l with
    | .inr ⟨.media, .getMedia mediaId _⟩, .inr ⟨.media, pc⟩ => GetChecked db mediaId pc
    | .inr ⟨.profile, call⟩, .inr ⟨.profile, pc⟩ => ProfileChecked db call pc
    | .inr ⟨.rooms, .createRoom creatorId dto⟩, .inr ⟨.rooms, pc⟩ =>
      CreateRoomChecked db creatorId dto pc
    | .inr ⟨.roomUpdates, .updateRoom roomId actorId dto⟩, .inr ⟨.roomUpdates, pc⟩ =>
      UpdateRoomChecked db roomId actorId dto pc
    | _, _ => True

theorem vouched_none {db : Db} {media : Option String} {u : String} (h : media = none) :
    Vouched db media u := by
  rintro m rfl
  cases h

theorem Vouched.mono {db db' : Db} {media : Option String} {u : String} (hf : Found db db')
    (h : Vouched db media u) : Vouched db' media u :=
  fun m hm => (h m hm).kept hf.uploads

theorem Checked.mono {db db' : Db} (hf : Found db db') {k : ServerCall} {l : ServerPc}
    (h : Checked json db k l) : Checked json db' k l := by
  refine ⟨fun p pc hk => ?_, ?_⟩
  · have hpc := h.1 p pc hk
    cases pc with
    | reply | seqExists | seqMax | seqSetNx | seqIncr | insert | resyncMax | resyncSet =>
      exact hpc.imp_right (·.mono hf)
    | _ => exact hpc
  · have hl := h.2
    split
    · rename_i mediaId _ pc
      cases pc with
      | message | avatar | roomAvatar | url => exact ⟨hl.1, hl.2.kept hf.uploads⟩
      | _ => trivial
    · rename_i call pc
      cases pc with
      | write => exact hl.mono hf
      | _ => exact hl
    · rename_i creatorId dto pc
      cases pc with
      | insertGroup => exact hl.mono hf
      | _ => exact hl
    · rename_i roomId actorId dto pc
      cases pc with
      | avatar => exact ⟨hl.1, hf.types hl.2⟩
      | update => exact ⟨hl.1.mono hf, hf.types hl.2⟩
      | _ => exact hl
    · trivial

theorem createChecked_of_begins {db : Db} {q : Option (CreateMessageParams × CreatePc)}
    (h : Begins q) {p : CreateMessageParams} {pc : CreatePc} (hq : q = some (p, pc)) :
    CreateChecked db p pc := by
  obtain ⟨p', rfl, hp⟩ := h p pc hq
  have hlookup : CreateChecked db p (Messages.afterLookup p') := by
    unfold Messages.afterLookup
    split
    · rename_i hsys
      rcases hp with hp | rfl
      · exact .inl hp
      · exact .inl hsys
    · trivial
  rcases Messages.createStart_cases p' with h | ⟨k, h⟩ <;> rw [h]
  · exact hlookup
  · trivial

/-- A creation looks up the object before it goes on. -/
theorem createChecked_of_acts {p : CreateMessageParams} {w w' : World} {pc pc' : CreatePc}
    (h : CreateActs json c p w pc w' pc') (hpc : CreateChecked w.db p pc) :
    CreateChecked w.db p pc' := by
  have hmedia : Vouched w.db (truthy p.mediaId) p.senderId →
      CreateChecked w.db p (Messages.afterMedia p) := by
    intro hv
    rcases Messages.afterMedia_cases p with h | ⟨t, h⟩ <;> rw [h] <;> exact .inr hv
  cases h with
  | missed =>
    unfold Messages.afterLookup
    split
    · rename_i hsys; exact .inl hsys
    · trivial
  | member =>
    unfold Messages.afterMember
    split
    · trivial
    · rename_i hm; exact hm
    · rename_i hm
      exact hmedia (vouched_none hm)
  | owned ho =>
    refine hmedia fun m hm => ?_
    obtain rfl : _ = m := Option.some.inj (hpc.symm.trans hm)
    exact uploaded_of_assertOwnedMedia ho
  | target | counter | noCounter | seqMax | setNx | incr | resyncMax => exact hpc
  | seqTaken => exact hpc
  | resyncSet => split <;> [exact hpc; trivial]
  | @fetch dto got got' hf =>
    rcases Messages.emitCreated_cases json dto got' w with ⟨h, -⟩ | ⟨_, _, _, h⟩ | h <;> rw [h] <;>
      trivial
  | _ => trivial

/-- `getMedia` finds the object it is asked for. -/
theorem getChecked_of_step {mediaId requesterId : String} {w w' : World}
    {pc pc' : MediaService.Pc}
    (h : MediaService.step cfg c (.getMedia mediaId requesterId) w pc = some (w', pc'))
    (hpc : GetChecked w.db mediaId pc) : GetChecked w.db mediaId pc' := by
  cases pc <;> simp only [MediaService.step, MediaService.getStep] at h
  case media =>
    cases h
    split
    · trivial
    · rename_i x hf
      obtain ⟨hx, hid⟩ := Table.find_some hf
      have hid' : x.id = mediaId := by simpa using hid
      split <;> exact ⟨hid', x, hx, hid', rfl⟩
  case message x => cases h; split <;> exact hpc
  case avatar x => cases h; split <;> exact hpc
  case roomAvatar x => cases h; split <;> [exact hpc; trivial]
  case url x => cases h; trivial
  all_goals cases h

theorem profileChecked_of_step {call : ProfileService.Call} {w w' : World}
    {pc pc' : ProfileService.Pc} (h : ProfileService.step cfg call w pc = some (w', pc'))
    (hpc : ProfileChecked w.db call pc) : ProfileChecked w.db call pc' := by
  have hexisting : ProfileChecked w.db call (ProfileService.afterExisting call) := by
    unfold ProfileService.afterExisting
    split
    · rename_i hm; exact hm
    · rename_i hm; exact vouched_none hm
  have hwrite : ∀ profile, ProfileChecked w.db call (ProfileService.afterWrite profile) := by
    intro profile
    unfold ProfileService.afterWrite
    split <;> trivial
  cases pc <;> simp only [ProfileService.step] at h
  case existing =>
    cases call <;> cases h <;> split <;> [trivial; exact hexisting; trivial; exact hexisting]
  case avatar i =>
    cases h
    split
    · rename_i hok
      intro m hm
      obtain rfl : i = m := Option.some.inj (hpc.symm.trans hm)
      exact MediaService.uploaded_of_assertOwnedMedia hok
    · trivial
  case write =>
    cases call <;> simp only [ProfileService.createStep, ProfileService.updateStep] at h
    · split at h
      · cases h; exact hwrite _
      · split at h
        · cases h; trivial
        · split at h <;> cases h
          · exact hwrite _
          · trivial
    · split at h
      · cases h; trivial
      · split at h <;> cases h
        · trivial
        · exact hwrite _
  case resolve profile i => cases h; trivial
  case done r => cases call <;> cases h

theorem createRoomChecked_of_step {creatorId : String} {dto : Rooms.CreateRoomDto} {w w' : World}
    {pc pc' : Rooms.Pc} (h : Rooms.step json c (.createRoom creatorId dto) w pc = some (w', pc'))
    (hpc : CreateRoomChecked w.db creatorId dto pc) : CreateRoomChecked w.db creatorId dto pc' := by
  have hpast : ∀ {q : Rooms.Pc}, Rooms.past q = true → CreateRoomChecked w.db creatorId dto q := by
    intro q hq
    cases q <;> trivial
  unfold Rooms.step at h
  split at h
  · exact hpast (Rooms.tail_step h).2
  · rename_i hno
    clear hno
    simp only at h
    cases pc <;> simp only [Rooms.createStep] at h
    case activeUsers =>
      cases h
      unfold Rooms.orFail
      split <;> split
      · trivial
      · trivial
      · split
        · rename_i hm; exact hm
        · rename_i hm; exact vouched_none hm
      · trivial
    case directRoom => cases h; split <;> trivial
    case insertDirect =>
      split at h
      · split at h <;> cases h
        · exact hpast (Rooms.past_proceed ..)
        · trivial
        · trivial
      · cases h
    case winner e => cases h; split <;> trivial
    case reactivate r => cases h; exact hpast (Rooms.past_proceed ..)
    case avatar i =>
      cases h
      unfold Rooms.orFail
      split
      · rename_i hok
        intro m hm
        obtain rfl : i = m := Option.some.inj (hpc.symm.trans hm)
        exact MediaService.uploaded_of_assertOwnedMedia hok
      · trivial
    case insertGroup =>
      split at h
      · split at h <;> cases h
        · exact hpast (Rooms.past_proceed ..)
        · trivial
      · cases h
    all_goals cases h

theorem updateRoomChecked_of_step {roomId actorId : String} {dto : Rooms.UpdateRoomDto}
    {w w' : World} {pc pc' : Rooms.UpdatePc}
    (h : Rooms.updateStep json c roomId actorId dto w pc = some (w', pc'))
    (hpc : UpdateRoomChecked w.db roomId actorId dto pc) :
    UpdateRoomChecked w.db roomId actorId dto pc' := by
  cases Rooms.acts_of_updateRoom h with
  | refused | entered | updated | after => trivial
  | group hgroup =>
    have htype := Rooms.requireGroup_hasType hgroup
    unfold Rooms.afterChecks
    split
    · rename_i hm; exact ⟨hm, htype⟩
    · rename_i hm; exact ⟨vouched_none hm, htype⟩
  | owned hok =>
    refine ⟨fun m hm => ?_, hpc.2⟩
    obtain rfl : _ = m := Option.some.inj (hpc.1.symm.trans hm)
    exact MediaService.uploaded_of_assertOwnedMedia hok

theorem checked_of_step {k : ServerCall} {l l' : ServerPc}
    (hs : (server cfg decode json).step c k h l = some (h', l'))
    (hl : Checked json h.world.db k l) : Checked json h'.world.db k l' := by
  refine Checked.mono (found_of_step hs) ⟨fun p pc' hk => ?_, ?_⟩
  · rcases creation_step hs with hb | ⟨p₀, pc, w', pc₀, hk₀, hacts, hk'⟩
    · exact createChecked_of_begins hb hk
    · have hp : CreateChecked h.world.db p₀ pc₀ := createChecked_of_acts hacts (hl.1 p₀ pc hk₀)
      rw [hk'] at hk
      cases hk
      exact hp
  · obtain ⟨h₁, hacts, -⟩ := server_step hs
    cases hacts with
    | socket | event => trivial
    | @service s call pc pc' w hservice =>
      cases s with
      | media =>
        cases call with
        | getMedia mediaId requesterId => exact getChecked_of_step hservice hl.2
        | _ => trivial
      | profile => exact profileChecked_of_step hservice hl.2
      | rooms =>
        cases call with
        | createRoom creatorId dto => exact createRoomChecked_of_step hservice hl.2
        | _ => trivial
      | roomUpdates =>
        cases call with
        | updateRoom roomId actorId dto => exact updateRoomChecked_of_step hservice hl.2
      | _ => trivial

theorem checked_start (cfg : AppConfig) (decode : String → Option Jwt) (db : Db)
    (k : ServerCall) : Checked json db k ((server cfg decode json).start k) := by
  refine ⟨fun p pc hk => createChecked_of_begins (begins_start cfg decode json k) hk, ?_⟩
  rcases k with (call | call) | ⟨s, call⟩
  · trivial
  · trivial
  · cases s with
    | media => cases call <;> trivial
    | rooms =>
      cases call with
      | createRoom creatorId dto =>
        show CreateRoomChecked db creatorId dto (Rooms.createStart creatorId dto)
        rcases Rooms.createStart_cases creatorId dto with h | ⟨e, h⟩ <;> rw [h] <;> trivial
      | _ => trivial
    | roomUpdates => cases call; trivial
    | _ => trivial

/-! ## What an action stores -/

/-- A message with an object is there already, or has been sent by the action. -/
theorem sends_of_step {k : ServerCall} {l l' : ServerPc}
    (hs : (server cfg decode json).step c k h l = some (h', l')) {x : Message} {m : String}
    (hx : x ∈ h'.world.db.messages.rows) (hm : x.mediaId = some m) :
    x ∈ h.world.db.messages.rows ∨ ∃ p a seq type, creation json k l = some (p, .insert a seq) ∧
      x = p.row type c.id seq h.world.now := by
  cases creates_of_step hs with
  | other _ hrecedes =>
    obtain ⟨y, hy, rfl | ⟨d, rfl⟩⟩ := hrecedes x hx
    · exact .inl hy
    · cases hm
  | creates hk hacts =>
    rw [world_deliver] at hx
    rcases Messages.rows_of_acts hacts with hrows | ⟨a, seq, type, rfl, hrows⟩
    · exact .inl (hrows ▸ hx)
    · rw [hrows] at hx
      rcases List.mem_append.1 hx with hx | hx
      · exact .inl hx
      · exact .inr ⟨_, a, seq, type, hk, List.mem_singleton.1 hx⟩

/-- The avatar of a profile is there already, or has been set by the action. -/
theorem avatar_of_step {k : ServerCall} {l l' : ServerPc}
    (hs : (server cfg decode json).step c k h l = some (h', l')) {x : Profile} {m : String}
    (hx : x ∈ h'.world.db.profiles.rows) (hm : x.avatarMediaId = some m) (hne : m ≠ "") :
    (∃ y ∈ h.world.db.profiles.rows, y.userId = x.userId ∧ y.avatarMediaId = some m) ∨
      ∃ call, k = .inr ⟨.profile, call⟩ ∧ l = .inr ⟨.profile, .write⟩ ∧ call.userId = x.userId ∧
        call.media = some m := by
  cases writes_of_step hs with
  | media hmedia =>
    obtain ⟨_, _, hw⟩ := MediaService.step_db hmedia
    rw [hw] at hx
    exact .inl ⟨x, hx, rfl, hm⟩
  | rooms hr =>
    obtain ⟨⟨_, _, _, hdb⟩, -⟩ := Rooms.step_db hr
    rw [hdb] at hx
    exact .inl ⟨x, hx, rfl, hm⟩
  | roomUpdates hr =>
    obtain ⟨⟨_, _, hdb⟩, -⟩ := Rooms.updateStep_db hr
    rw [hdb] at hx
    exact .inl ⟨x, hx, rfl, hm⟩
  | other _ _ hp => exact .inl ⟨x, hp ▸ hx, rfl, hm⟩
  | @profile call pc pc' hp =>
    rcases ProfileService.avatar_of_step hp hx hm hne with h | ⟨rfl, hu, hcall⟩
    · exact .inl h
    · exact .inr ⟨call, rfl, rfl, hu, hcall⟩

/-- The requests that set the avatar of a room. -/
inductive SetsRoom (m roomId : String) : ServerCall → ServerPc → String → Prop
  | created {creatorId dto} : truthy dto.avatarMediaId = some m →
      SetsRoom m roomId (.inr ⟨.rooms, .createRoom creatorId dto⟩) (.inr ⟨.rooms, .insertGroup⟩)
        creatorId
  | updated {actorId dto room} : dto.media = some m →
      SetsRoom m roomId (.inr ⟨.roomUpdates, .updateRoom roomId actorId dto⟩)
        (.inr ⟨.roomUpdates, .update room⟩) actorId

/-- The avatar of a room is there already, or has been set by the action. -/
theorem roomAvatar_of_step {k : ServerCall} {l l' : ServerPc}
    (hs : (server cfg decode json).step c k h l = some (h', l')) (hl : Checked json h.world.db k l)
    {x : Room} {m : String} (hx : x ∈ roomStubs h'.world.db) (hm : x.avatarMediaId = some m)
    (hne : m ≠ "") :
    (∃ y ∈ roomStubs h.world.db, y.id = x.id ∧ y.type = x.type ∧ y.avatarMediaId = some m) ∨
      x.type = .GROUP ∧ ∃ u, SetsRoom m x.id k l u ∧ Uploaded h.world.db m u := by
  cases writes_of_step hs with
  | media hmedia =>
    obtain ⟨_, _, hw⟩ := MediaService.step_db hmedia
    rw [hw] at hx
    exact .inl ⟨x, hx, rfl, rfl, hm⟩
  | profile hp =>
    obtain ⟨_, hw⟩ := ProfileService.step_db hp
    rw [hw] at hx
    exact .inl ⟨x, hx, rfl, rfl, hm⟩
  | other _ _ _ hr => exact .inl ⟨x, hr ▸ hx, rfl, rfl, hm⟩
  | rooms hr =>
    rcases Rooms.stubs_of_step hr with hstubs | ⟨creatorId, dto, room, rfl, hstubs, hroom⟩
    · exact .inl ⟨x, hstubs ▸ hx, rfl, rfl, hm⟩
    rw [hstubs] at hx
    rcases List.mem_append.1 hx with hx | hx
    · exact .inl ⟨x, hx, rfl, rfl, hm⟩
    obtain rfl := List.mem_singleton.1 hx
    rcases hroom with hroom | ⟨rfl, htype, havatar⟩
    · cases hm.symm.trans hroom
    · have hdto : truthy dto.avatarMediaId = some m :=
        truthy_eq_some.2 ⟨havatar.symm.trans hm, hne⟩
      exact .inr ⟨htype, creatorId, .created hdto, hl.2 m hdto⟩
  | @roomUpdates roomId actorId dto pc pc' hr =>
    rcases Rooms.stubs_of_updateStep hr with hstubs | ⟨⟨room, rfl⟩, hstubs⟩
    · exact .inl ⟨x, hstubs ▸ hx, rfl, rfl, hm⟩
    rw [hstubs] at hx
    obtain ⟨y, hy, rfl⟩ := List.mem_map.1 hx
    split at hm
    · rename_i hid
      have hyid : y.id = roomId := by simpa using hid
      cases hdto : dto.avatarMediaId with
      | none =>
        refine .inl ⟨y, hy, ?_⟩
        simp only [hid, if_true, Rooms.UpdateRoomDto.apply, hdto, Option.getD_none] at hm ⊢
        exact ⟨trivial, trivial, hm⟩
      | some avatar =>
        simp only [Rooms.UpdateRoomDto.apply, hdto, Option.getD_some] at hm
        have hmedia : dto.media = some m := by
          rw [Rooms.UpdateRoomDto.media, hdto]
          exact truthy_eq_some.2 ⟨hm, hne⟩
        obtain ⟨z, hz, hzid, htype⟩ := hl.2.2
        obtain rfl := Rooms.roomStubs_eq_of_id hz hy (hzid.trans hyid.symm)
        simp only [hid, if_true]
        exact .inr ⟨htype, actorId, hyid ▸ .updated hmedia, hl.2.1 m hmedia⟩
    · rename_i hid
      simp only [hid]
      exact .inl ⟨y, hy, rfl, rfl, hm⟩

end Step

end Realtime

end Intaktok
