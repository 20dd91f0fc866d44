import Intaktok.Realtime.Frames
/-
# Personal rooms

One flat namespace holds the personal rooms `user:{id}` and the rooms of the chat, whose ids
`room:join` takes from the client. `onRoomJoin` looks for a membership (`realtime.gateway.ts:213`)
before it joins, memberships are of rooms, and ids of rooms are cuids (`cuids_of_step`), so that
only a handshake brings a socket into a personal room, and into that of the user it has
authenticated (`sealed_run`).
-/

namespace Intaktok

open Tables

/-! ## Room ids -/

def Cuids (db : Db) : Prop :=
  (∀ x ∈ db.rooms.rows, isCuid x.id = true) ∧ ∀ m ∈ db.roomMembers.rows, isCuid m.roomId = true

namespace Rooms

theorem cuids_of_kept {w w' : World} (h : Kept w w') (hc : Cuids w.db) : Cuids w'.db := by
  refine ⟨fun x hx => ?_, h.members ▸ hc.2⟩
  have hstub := roomStub_mem hx
  rw [h.rooms] at hstub
  obtain ⟨y, hy, hyx⟩ := List.mem_map.1 hstub
  have hid : (roomStub y).id = (roomStub x).id := by rw [hyx]
  exact (hid : y.id = x.id) ▸ hc.1 y hy

/-- A change of the memberships of a room that has some, or is about to. -/
theorem Elsewhere.cuids {r : String} {t t' : Table RoomMember} (h : Elsewhere r t t')
    (hr : isCuid r = true) (ht : ∀ m ∈ t.rows, isCuid m.roomId = true) :
    ∀ m ∈ t'.rows, isCuid m.roomId = true := by
  intro m hm
  by_cases hmr : m.roomId = r
  · rwa [hmr]
  · exact ht m ((h m hmr).1 hm)

theorem cuids_updateMember {r u : String} {t t' : Table RoomMember} {d : MemberData}
    (h : updateMember t r u d = some t') (ht : ∀ m ∈ t.rows, isCuid m.roomId = true) :
    ∀ m ∈ t'.rows, isCuid m.roomId = true := by
  obtain ⟨m, hm⟩ := updateMember_some h
  obtain ⟨hmem, rfl, -⟩ := find_isMember.1 hm
  exact (elsewhere_updateMember h).cuids (ht m hmem) ht

/-- Somebody joins a room by an update of his row, or by a row that refers to the room. -/
theorem cuids_joinMember {r u : String} {head : Nat} {existing : List RoomMember} {w : World}
    {t : Table RoomMember} (h : joinMember r u head existing w = .ok t) (hc : Cuids w.db) :
    ∀ m ∈ t.rows, isCuid m.roomId = true := by
  have helse := elsewhere_joinMember h
  simp only [joinMember] at h
  split at h
  · split at h <;> cases h
    rename_i hu; exact cuids_updateMember hu hc.2
  · split at h
    · cases h
    · split at h
      · rename_i hfk
        cases h
        simp only [Bool.and_eq_true, List.any_eq_true, beq_iff_eq] at hfk
        obtain ⟨⟨x, hx, rfl⟩, -⟩ := hfk
        exact helse.cuids (hc.1 x hx) hc.2
      · cases h

theorem cuids_insertRoom {room : Room} {ms : List RoomMember} {w w' : World}
    (h : insertRoom room ms w = .ok w') (hid : isCuid room.id = true)
    (hms : ∀ m ∈ ms, m.roomId = room.id) (hc : Cuids w.db) : Cuids w'.db := by
  obtain ⟨rooms, roomMembers, hr, hm, rfl⟩ := insertRoom_ok h
  refine ⟨fun x hx => ?_, (elsewhere_append (insertMembers_ok hm) hms).cuids hid hc.2⟩
  rcases (Table.mem_insert hr).1 hx with hx | rfl
  · exact hc.1 x hx
  · exact hid

theorem isCuid_of_freshRoomId {db : Db} {id : String} (h : freshRoomId db id = true) :
    isCuid id = true := by
  simp only [freshRoomId, Bool.and_eq_true] at h
  exact h.1.2

theorem cuids_of_acts {c : Choice} {call : Call} {w w' : World} {pc pc' : Pc}
    (h : Acts c call w pc w' pc') (hc : Cuids w.db) : Cuids w'.db := by
  cases call with
  | createRoom creatorId dto =>
    cases h with
    | insertedDirect hfresh hid _ _ hins =>
      refine cuids_insertRoom hins (hid ▸ isCuid_of_freshRoomId hfresh) (fun m hm => ?_) hc
      rw [hid]; exact (directMembers_room m hm).1
    | insertedGroup hfresh hid _ _ hins =>
      refine cuids_insertRoom hins (hid ▸ isCuid_of_freshRoomId hfresh) (fun m hm => ?_) hc
      rw [hid]; exact groupMembers_room m hm
    | reactivated =>
      refine ⟨hc.1, fun m hm => ?_⟩
      obtain ⟨x, hx, rfl⟩ := List.mem_map.1 hm
      split <;> exact hc.2 x hx
    | _ => exact hc
  | addMembers r a userIds =>
    cases h with
    | joined hj => exact ⟨hc.1, cuids_joinMember hj hc⟩
    | _ => exact hc
  | updateMemberRole r a t role =>
    cases h with
    | set hset =>
      obtain ⟨t₁, h₁, h₂⟩ := Option.bind_eq_some_iff.1 hset
      have ht₁ := cuids_updateMember h₁ hc.2
      refine ⟨hc.1, ?_⟩
      split at h₂
      · exact cuids_updateMember h₂ ht₁
      · cases h₂; exact ht₁
    | _ => exact hc
  | removeMember r a t =>
    cases h with
    | left hu | promoted hu => exact ⟨hc.1, cuids_updateMember hu hc.2⟩
    | _ => exact hc

theorem cuids_of_step {json : Messages.Json} {c : Choice} {call : Call} {w w' : World} {pc pc' : Pc}
    (h : step json c call w pc = some (w', pc')) (hc : Cuids w.db) : Cuids w'.db := by
  rcases step_cases h with ⟨-, -, hk⟩ | hacts
  · exact cuids_of_kept hk hc
  · exact cuids_of_acts hacts hc

theorem cuids_of_updateStep {json : Messages.Json} {c : Choice} {roomId actorId : String}
    {dto : UpdateRoomDto} {w w' : World} {pc pc' : UpdatePc}
    (h : updateStep json c roomId actorId dto w pc = some (w', pc')) (hc : Cuids w.db) :
    Cuids w'.db := by
  cases acts_of_updateRoom h with
  | after hs => exact cuids_of_kept (tail_step hs).1 hc
  | updated =>
    refine ⟨fun x hx => ?_, hc.2⟩
    simp only [updateRooms, Table.mem_updateWhere] at hx
    obtain ⟨y, hy, rfl⟩ := hx
    split <;> exact hc.1 y hy
  | _ => exact hc

end Rooms

namespace Messages

theorem cuids_of_readStep {roomId userId : WhereString} {n : JsNumber} {w w' : World}
    {pc pc' : ReadPc} (h : readStep roomId userId n w pc = some (w', pc')) (hc : Cuids w.db) :
    Cuids w'.db := by
  cases pc <;> simp only [readStep] at h
  case update =>
    split at h
    · cases h; exact hc
    · split at h
      · cases h; exact hc
      · split at h <;> cases h
        · refine ⟨hc.1, fun m hm => ?_⟩
          simp only [setLastReadSeq, Table.mem_updateWhere] at hm
          obtain ⟨x, hx, rfl⟩ := hm
          split <;> exact hc.2 x hx
        · exact hc
  case members l => cases h; exact hc
  case done r => cases h

theorem cuids_of_deleteStep {cfg : AppConfig} {roomId messageId requesterId : String}
    {w w' : World} {pc pc' : DeletePc}
    (h : deleteStep cfg roomId messageId requesterId w pc = some (w', pc')) (hc : Cuids w.db) :
    Cuids w'.db := by
  obtain ⟨⟨messages, hdb⟩, -⟩ := deleteStep_db h
  rw [hdb]
  exact hc

theorem cuids_of_step {cfg : AppConfig} {json : Json} {c : Choice} {call : Call} {w w' : World}
    {pc pc' : Pc} (h : step cfg json c call w pc = some (w', pc')) (hc : Cuids w.db) :
    Cuids w'.db := by
  unfold step at h
  split at h
  · obtain ⟨⟨w₁, pc₁⟩, hs, he⟩ := Option.map_eq_some_iff.1 h
    cases he
    exact Rooms.cuids_of_kept (Rooms.kept_of_createActs (acts_of_createStep hs)) hc
  · obtain ⟨⟨w₁, pc₁⟩, hs, he⟩ := Option.map_eq_some_iff.1 h
    cases he
    exact cuids_of_readStep hs hc
  · obtain ⟨⟨w₁, pc₁⟩, hs, he⟩ := Option.map_eq_some_iff.1 h
    cases he
    exact cuids_of_deleteStep hs hc
  · cases h

end Messages

namespace Realtime

open Interleave

section Step
variable {cfg : AppConfig} {decode : String → Option Jwt} {json : Messages.Json} {c : Choice}
  {h h' : Hub}

theorem cuids_of_service {s : Service} {call : s.Call} {pc pc' : s.Pc} {w w' : World}
    (hs : (s.machine cfg json).step c call w pc = some (w', pc')) (hc : Cuids w.db) :
    Cuids w'.db := by
  cases s with
  | auth => obtain ⟨_, _, _, _, _, rfl⟩ := Auth.step_db hs; exact hc
  | admin => obtain ⟨⟨_, _, hdb⟩, -⟩ := Admin.step_db hs; rw [hdb]; exact hc
  | whitelist => obtain ⟨_, _, rfl⟩ := Admin.entryStep_db hs; exact hc
  | messages => exact Messages.cuids_of_step hs hc
  | rooms => exact Rooms.cuids_of_step hs hc
  | roomUpdates =>
    cases call with
    | updateRoom roomId actorId dto => exact Rooms.cuids_of_updateStep hs hc
  | push => obtain ⟨_, _, rfl⟩ := Push.step_db hs; exact hc
  | media => obtain ⟨_, _, rfl⟩ := MediaService.step_db hs; exact hc
  | profile => obtain ⟨_, rfl⟩ := ProfileService.step_db hs; exact hc

/-- Only cuids name rooms, whatever the server does. -/
theorem cuids_of_step {k : ServerCall} {l l' : ServerPc}
    (hs : (server cfg decode json).step c k h l = some (h', l')) (hc : Cuids h.world.db) :
    Cuids h'.world.db := by
  obtain ⟨h₁, hacts, rfl⟩ := server_step hs
  rw [world_deliver]
  cases hacts with
  | socket hsocket =>
    cases acts_of_socket hsocket with
    | connect hconnect =>
      rw [(connectStep_world hconnect).1]
      exact hc
    | read hread =>
      rcases onReadStep_cases hread with rfl | ⟨_, _, _, _, w, _, hmark, rfl⟩
      · exact hc
      · exact Messages.cuids_of_readStep hmark hc
  | event hevent => exact Rooms.cuids_of_kept (kept_of_eventStep hevent) hc
  | service hservice => exact cuids_of_service hservice hc

/-! ## The rooms of a socket -/

theorem userRoom_inj {u v : String} (h : userRoom u = userRoom v) : u = v :=
  (String.append_right_inj "user:").1 h

/-- No personal room is a room of the chat. -/
theorem isCuid_userRoom (u : String) : isCuid (userRoom u) = false := by
  have hprefix : "user:".toList.all Char.isAlphanum = false := by decide
  rw [isCuid, userRoom, String.toList_append, List.all_append, hprefix, Bool.false_and]

theorem rooms_join {id j r : String} {rooms : List String}
    (hr : r ∈ ((h.join id rooms).sockets j).rooms) :
    r ∈ (h.sockets j).rooms ∨ j = id ∧ r ∈ rooms := by
  unfold Hub.join at hr
  rw [Hub.sockets_update] at hr
  split at hr
  · rename_i hj
    subst hj
    rcases List.mem_append.1 hr with hr | hr
    · exact .inl hr
    · exact .inr ⟨rfl, (List.mem_filter.1 hr).1⟩
  · exact .inl hr

theorem rooms_disconnect {id j r : String} (hr : r ∈ ((h.disconnect id).sockets j).rooms) :
    r ∈ (h.sockets j).rooms := by
  unfold Hub.disconnect at hr
  rw [Hub.sockets_update] at hr
  split at hr
  · cases hr
  · exact hr

theorem rooms_reject {id j r : String} {message : Option String}
    (hr : r ∈ ((reject h id message).sockets j).rooms) : r ∈ (h.sockets j).rooms :=
  rooms_disconnect (h := h.emit [id] (.error .UNAUTHORIZED message)) hr

theorem rooms_deliver {events : List DomainEvent} {j r : String}
    (hr : r ∈ ((deliver events h).sockets j).rooms) : r ∈ (h.sockets j).rooms := by
  unfold deliver at hr
  generalize h.world.events.drop events.length = new at hr
  induction new generalizing h with
  | nil => exact hr
  | cons e new ih =>
    have hr' := ih hr
    cases e with
    | sessionRevoked u =>
      simp only [onEvent, Hub.disconnectSockets] at hr'
      split at hr'
      · cases hr'
      · exact hr'
    | _ => simpa only [onEvent, sockets_emitToUsers] using hr'

/-- The action is the one by which the socket `s` joins the room `r`. -/
inductive Joins : ServerCall → ServerPc → String → String → Prop
  | personal {s hs u} :
      Joins (.inl (.inl (.connect s hs))) (.inl (.inl (.connect (.joinUser u)))) s (userRoom u)
  | rooms {s hs u ids r} : r ∈ ids →
      Joins (.inl (.inl (.connect s hs))) (.inl (.inl (.connect (.joinRooms u ids)))) s r
  | room {s body r} :
      Joins (.inl (.inr (.roomJoin s body))) (.inl (.inr (.join (.join r)))) s r

theorem rooms_connectStep {id : String} {hs : Handshake} {pc pc' : ConnectPc}
    (hstep : connectStep cfg decode id hs h pc = some (h', pc')) {j r : String}
    (hr : r ∈ (h'.sockets j).rooms) : r ∈ (h.sockets j).rooms ∨
      Joins (.inl (.inl (.connect id hs))) (.inl (.inl (.connect pc))) j r := by
  cases pc <;> simp only [connectStep] at hstep
  case verify =>
    left
    split at hstep
    · cases hstep; exact rooms_reject hr
    · split at hstep
      · cases hstep; exact rooms_reject hr
      · split at hstep <;> cases hstep
        · exact hr
        · exact rooms_reject hr
  case user sub =>
    left
    split at hstep <;> cases hstep
    · rw [Hub.sockets_update] at hr
      split at hr
      · rename_i hj; rw [hj]; exact hr
      · exact hr
    · exact rooms_reject hr
  case joinUser u =>
    cases hstep
    refine (rooms_join hr).imp_right ?_
    rintro ⟨rfl, hin⟩
    rw [List.mem_singleton.1 hin]
    exact .personal
  case memberships u => split at hstep <;> cases hstep <;> exact .inl hr
  case joinRooms u roomIds =>
    cases hstep
    refine (rooms_join hr).imp_right ?_
    rintro ⟨rfl, hin⟩
    exact .rooms hin
  case presence u pc =>
    left
    obtain ⟨⟨world, pc₁⟩, -, he⟩ := Option.map_eq_some_iff.1 hstep
    simp only at he
    split at he <;> cases he
    · rw [Hub.sockets_update] at hr
      split at hr
      · rename_i hj; rw [hj]; exact hr
      · exact hr
    · exact rooms_reject (h := { h with world }) hr
    · exact hr
  case myRooms u => split at hstep <;> cases hstep <;> exact .inl hr
  case coMembers u roomIds => cases hstep; rw [sockets_emitToUsers] at hr; exact .inl hr
  case accepted u => cases hstep
  case rejected u => cases hstep

theorem rooms_eventStep {call : EventCall} {pc pc' : EventPc}
    (hs : eventStep cfg json c call h pc = some (h', pc')) {j r : String}
    (hr : r ∈ (h'.sockets j).rooms) :
    r ∈ (h.sockets j).rooms ∨ Joins (.inl (.inr call)) (.inl (.inr pc)) j r := by
  cases acts_of_event hs with
  | send hsend =>
    obtain ⟨w, rfl, -⟩ := hsend.world
    exact .inl hr
  | delete hdelete =>
    obtain ⟨w, rfl, -⟩ := hdelete.world
    exact .inl hr
  | @join id roomId pc _ _ hjoin =>
    cases pc with
    | received => cases hjoin; exact .inl hr
    | member userId => cases hjoin; exact .inl hr
    | join roomId =>
      cases hjoin
      refine (rooms_join hr).imp_right ?_
      rintro ⟨rfl, hin⟩
      rw [List.mem_singleton.1 hin]
      exact .room
    | done ack => cases hjoin
  | @leave id pc _ _ hleave =>
    left
    cases pc <;> simp only [disconnectStep] at hleave
    case left =>
      cases hleave
      rw [Hub.sockets_update] at hr
      split at hr
      · rename_i hj; rw [hj]; exact rooms_disconnect hr
      · exact rooms_disconnect hr
    case presence userId pc =>
      obtain ⟨⟨w, pc₁⟩, -, he⟩ := Option.map_eq_some_iff.1 hleave
      cases he
      exact hr
    case myRooms userId => split at hleave <;> cases hleave <;> exact hr
    case coMembers userId roomIds => cases hleave; rwa [sockets_emitToUsers] at hr
    case done => cases hleave

/-- A room of a socket is one it was in, or one it has joined. -/
theorem rooms_of_step {k : ServerCall} {l l' : ServerPc}
    (hs : (server cfg decode json).step c k h l = some (h', l')) {j r : String}
    (hr : r ∈ (h'.sockets j).rooms) : r ∈ (h.sockets j).rooms ∨ Joins k l j r := by
  obtain ⟨h₁, hacts, rfl⟩ := server_step hs
  have hr₁ := rooms_deliver hr
  cases hacts with
  | socket hsocket =>
    cases acts_of_socket hsocket with
    | connect hconnect => exact rooms_connectStep hconnect hr₁
    | read hread =>
      obtain ⟨w, rfl, -⟩ := onReadStep_world hread
      exact .inl hr₁
  | event hevent => exact rooms_eventStep hevent hr₁
  | service hservice => exact .inl hr₁

/-- Nobody changes who a socket is but its own handshake, as it authenticates. -/
theorem userId_of_step {k : ServerCall} {l l' : ServerPc}
    (hs : (server cfg decode json).step c k h l = some (h', l')) :
    (∀ j, (h'.sockets j).userId = (h.sockets j).userId) ∨ ∃ s hs₀ sub,
      k = .inl (.inl (.connect s hs₀)) ∧ l = .inl (.inl (.connect (.user sub))) ∧
      l' = .inl (.inl (.connect (.joinUser sub))) ∧
      h' = h.update s fun s => { s with userId := some sub } := by
  obtain ⟨h₁, hacts, rfl⟩ := server_step hs
  have hdeliver : (∀ j, (h.sockets j).Stays (h₁.sockets j)) →
      ∀ j, ((deliver h.world.events h₁).sockets j).userId = (h.sockets j).userId :=
    fun hstay j => ((hstay j).trans (stays_deliver h.world.events h₁ j)).userId
  cases hacts with
  | socket hsocket =>
    cases acts_of_socket hsocket with
    | connect hconnect =>
      rcases connectStep_sockets hconnect with hstay | ⟨sub, rfl, rfl, -, rfl⟩
      · exact .inl (hdeliver hstay)
      · exact .inr ⟨_, _, sub, rfl, rfl, rfl, deliver_same rfl⟩
    | read hread =>
      obtain ⟨w, rfl, -⟩ := onReadStep_world hread
      exact .inl (hdeliver fun j => .refl _)
  | event hevent => exact .inl (hdeliver (eventStep_world hevent).1)
  | service hservice => exact .inl (hdeliver fun j => .refl _)

/-! ## Sealed rooms -/

/-- A socket in a personal room is authenticated as its user. -/
def Sealed (h : Hub) : Prop :=
  ∀ s x, userRoom x ∈ (h.sockets s).rooms → (h.sockets s).userId = some x

/-- What a process on its way to a room knows. -/
def Approaches (k : ServerCall) (h : Hub) (l : ServerPc) : Prop :=
  match k, l with
  | .inl (.inl (.connect s _)), .inl (.inl (.connect pc)) => match pc with
    | .verify | .user _ => (h.sockets s).userId = none
    | .joinUser u => (h.sockets s).userId = some u
    | .joinRooms _ ids => ∀ r ∈ ids, isCuid r = true
    | _ => True
  | .inl (.inr (.roomJoin _ _)), .inl (.inr (.join (.join r))) => isCuid r = true
  | _, _ => True

/-- Two calls that are handshakes of one socket. -/
def SameSocket (k k₂ : ServerCall) : Prop :=
  ∃ s hs hs₂, k = .inl (.inl (.connect s hs)) ∧ k₂ = .inl (.inl (.connect s hs₂))

def sealing : Outline Hub ServerCall ServerPc where
  glob h := Cuids h.world.db ∧ Sealed h
  own := Approaches
  apart k _ k₂ _ := ¬ SameSocket k k₂

theorem sealed_step {k : ServerCall} {l l' : ServerPc} (hS : Sealed h)
    (ha : Approaches k h l) (hs : (server cfg decode json).step c k h l = some (h', l')) :
    Sealed h' := by
  intro s x hx
  rcases rooms_of_step hs hx with hin | hj
  · rcases userId_of_step hs with hsame | ⟨s₀, hs₀, sub, rfl, rfl, -, rfl⟩
    · rw [hsame]; exact hS s x hin
    · -- who authenticates was nobody, and in nobody's room
      have hnone : (h.sockets s₀).userId = none := ha
      have hne : s ≠ s₀ := by
        rintro rfl
        rw [hS s x hin] at hnone
        cases hnone
      rw [Hub.sockets_update, if_neg hne]
      exact hS s x hin
  · have hsame : (h'.sockets s).userId = (h.sockets s).userId := by
      rcases userId_of_step hs with hsame | ⟨s₀, hs₀, sub, rfl, rfl, -, rfl⟩
      · exact hsame s
      · cases hj
    generalize hroom : userRoom x = room at hj
    cases hj with
    | personal =>
      rw [hsame, userRoom_inj hroom]
      exact ha
    | rooms hr =>
      have hcuid := ha _ hr
      rw [← hroom, isCuid_userRoom] at hcuid
      cases hcuid
    | room =>
      have hcuid : isCuid _ = true := ha
      rw [← hroom, isCuid_userRoom] at hcuid
      cases hcuid

theorem isCuid_of_member {db : Db} {r u : String} (hc : Cuids db)
    (h : (Messages.assertActiveMember db r u).isNone = true) : isCuid r = true := by
  unfold Messages.assertActiveMember at h
  split at h
  · rename_i m hf
    obtain ⟨hm, hp⟩ := Table.find_some hf
    simp only [Bool.and_eq_true, beq_iff_eq] at hp
    exact hp.1 ▸ hc.2 m hm
  · cases h

/-- A handshake comes to the next await knowing what it needs there. -/
theorem approaches_connect {id : String} {hs : Handshake} {pc pc' : ConnectPc}
    (hc : Cuids h.world.db)
    (ha : Approaches (.inl (.inl (.connect id hs))) h (.inl (.inl (.connect pc))))
    (hstep : connectStep cfg decode id hs h pc = some (h', pc')) :
    Approaches (.inl (.inl (.connect id hs))) h' (.inl (.inl (.connect pc'))) := by
  cases pc <;> simp only [connectStep] at hstep
  case verify =>
    split at hstep
    · cases hstep; trivial
    · split at hstep
      · cases hstep; trivial
      · split at hstep <;> cases hstep
        · exact ha
        · trivial
  case user sub =>
    split at hstep <;> cases hstep
    · show (((h.update id _).sockets id).userId = some sub)
      rw [Hub.sockets_update, if_pos rfl]
    · trivial
  case joinUser u => cases hstep; trivial
  case memberships u =>
    split at hstep <;> cases hstep
    · trivial
    · intro r hr
      obtain ⟨m, hm, rfl⟩ := List.mem_map.1 hr
      exact hc.2 m (Table.mem_findMany.1 hm).1
  case joinRooms u roomIds => cases hstep; trivial
  case presence u pc =>
    obtain ⟨⟨world, pc₁⟩, -, he⟩ := Option.map_eq_some_iff.1 hstep
    simp only at he
    split at he <;> cases he
    · rename_i becameOnline; cases becameOnline <;> trivial
    · trivial
    · trivial
  case myRooms u => split at hstep <;> cases hstep <;> trivial
  case coMembers u roomIds => cases hstep; trivial
  case accepted u => cases hstep
  case rejected u => cases hstep

theorem approaches_congr {k : ServerCall} {l : ServerPc}
    (hk : ∀ s hs, k = .inl (.inl (.connect s hs)) →
      (h'.sockets s).userId = (h.sockets s).userId)
    (ha : Approaches k h l) : Approaches k h' l := by
  rcases k with (call | call) | call
  · cases call with
    | connect s hs =>
      have hsame := hk s hs rfl
      rcases l with (pc | pc) | pc
      · cases pc with
        | connect pc =>
          revert ha
          cases pc <;> simp only [Approaches, hsame, imp_self]
        | read pc => trivial
      · trivial
      · trivial
    | messageRead s body => trivial
  · cases call with
    | roomJoin s body =>
      rcases l with (pc | pc) | pc
      · trivial
      · cases pc with
        | join pc => cases pc <;> exact ha
        | _ => trivial
      · trivial
    | _ => trivial
  · trivial

theorem approaches_step {k : ServerCall} {l l' : ServerPc} (hc : Cuids h.world.db)
    (ha : Approaches k h l) (hs : (server cfg decode json).step c k h l = some (h', l')) :
    Approaches k h' l' := by
  obtain ⟨h₁, hacts, rfl⟩ := server_step hs
  refine approaches_congr (h := h₁) (fun s _ _ => (stays_deliver h.world.events h₁ s).userId) ?_
  cases hacts with
  | socket hsocket =>
    cases acts_of_socket hsocket with
    | connect hconnect => exact approaches_connect hc ha hconnect
    | read hread => trivial
  | event hevent =>
    cases acts_of_event hevent with
    | @join id roomId pc _ _ hjoin =>
      cases pc with
      | received => cases hjoin; trivial
      | member userId =>
        cases hjoin
        split
        · split
          · rename_i hm; exact isCuid_of_member hc hm
          · trivial
        · trivial
      | join roomId => cases hjoin; trivial
      | done ack => cases hjoin
    | _ => trivial
  | service hservice => trivial

theorem sealing_valid :
    sealing.Valid (server cfg decode json) Discipline.free Outline.top where
  move h :=
    ⟨⟨cuids_of_step h.step h.glob.1, sealed_step h.glob.2 h.own h.step⟩,
      approaches_step h.glob.1 h.own h.step⟩
  keep h hw := by
    refine ⟨approaches_congr (fun s hs hk₂ => ?_) hw.own, hw.apart⟩
    rcases userId_of_step h.step with hsame | ⟨s₀, hs₀, sub, hk, -, -, heq⟩
    · exact hsame s
    · have hne : s ≠ s₀ := by
        rintro rfl
        exact hw.apart ⟨s, hs₀, hs, hk, hk₂⟩
      rw [heq, Hub.sockets_update, if_neg hne]
  symm hn := fun ⟨s, hs, hs₂, hk, hk₂⟩ => hn ⟨s, hs₂, hs, hk₂, hk⟩
  env e h hg := by
    have hsock : ∀ s, ((server cfg decode json).env e h).sockets s = h.sockets s :=
      congrFun (sockets_env cfg e h)
    have hdb : ((server cfg decode json).env e h).world.db = h.world.db := db_env cfg e h
    refine ⟨⟨?_, fun s x hx => ?_⟩, approaches_congr fun s _ _ => congrArg Socket.userId (hsock s)⟩
    · rw [hdb]; exact hg.1
    · rw [hsock] at hx ⊢; exact hg.2 s x hx

end Step

/-! ## Runs -/

/-- A server on which nobody is connected. -/
def Fresh (h : Hub) : Prop := ∀ s, (h.sockets s).userId = none ∧ (h.sockets s).rooms = []

/-- Every connection is a socket of its own. -/
def OneHandshake {ι : Type} (calls : ι → ServerCall) : Prop :=
  ∀ i j s hs hs₂, calls i = .inl (.inl (.connect s hs)) → calls j = .inl (.inl (.connect s hs₂)) →
    i = j

theorem sealing_initial {ι : Type} {cfg : AppConfig} {decode : String → Option Jwt}
    {json : Messages.Json} {calls : ι → ServerCall} {hub : Hub} (hc : Cuids hub.world.db)
    (hnew : Fresh hub) (hone : OneHandshake calls) :
    sealing.Holds calls ((server cfg decode json).initial calls hub) where
  glob := by
    refine ⟨hc, fun s x hx => ?_⟩
    have hrooms : userRoom x ∈ (hub.sockets s).rooms := hx
    rw [(hnew s).2] at hrooms
    cases hrooms
  own i := by
    simp only [Machine.initial]
    generalize calls i = k
    rcases k with (call | call) | call
    · cases call with
      | connect s hs => exact (hnew s).1
      | messageRead s body => trivial
    · cases call <;> trivial
    · trivial
  apart i j hij := fun ⟨s, hs, hs₂, hi, hj⟩ => hij (hone i j s hs hs₂ hi hj)

/-- **Sealed rooms.** From a server on which nobody is connected, every run keeps the sockets in
a personal room to those of its user. -/
theorem sealed_run {ι : Type} [DecidableEq ι] {cfg : AppConfig} {decode : String → Option Jwt}
    {json : Messages.Json} {calls : ι → ServerCall} {hub : Hub} (hc : Cuids hub.world.db)
    (hnew : Fresh hub) (hone : OneHandshake calls) {P : Pool Hub ServerPc ι}
    (hrun : Run (server cfg decode json) Discipline.free calls
      ((server cfg decode json).initial calls hub) P) : Sealed P.shared :=
  (sealing_valid.run (fun _ => Outline.top_holds _ _) (sealing_initial hc hnew hone) hrun).glob.2

end Realtime

end Intaktok
