import Intaktok.Realtime.Platform
import Intaktok.Realtime.Sockets
import Intaktok.Rooms.Creations
import Intaktok.Messages.Log
/-
# Which service writes which table

One lemma for each service, and one for the events of a socket; nobody pushes but `PushService`.
Handshakes only read (`connectStep_world`), and so does `room:join`.
-/

namespace Intaktok

open Tables Interleave

theorem Auth.step_db {cfg : AppConfig} {c : Choice} {call : Auth.Call} {w w' : World}
    {pc pc' : Auth.Pc} (h : Auth.step cfg c call w pc = some (w', pc')) :
    ∃ users whitelist accessRequests redis issued, w' = { w with
      db.users := users, db.whitelist := whitelist, db.accessRequests := accessRequests,
      redis := redis, issued := issued } := by
  cases Auth.acts_of_step h with
  | record hu =>
    obtain ⟨t, rfl⟩ := Auth.upsertAccessRequest_world hu
    exact ⟨_, _, t, _, _, rfl⟩
  | enroll he | enrollFailed he =>
    obtain ⟨t, t', rfl⟩ := Auth.enroll_world he
    exact ⟨t, t', _, _, _, rfl⟩
  | sweep hs | swept hs =>
    rcases sweepStep_world hs with rfl | ⟨key, rfl⟩ <;> exact ⟨_, _, _, _, _, rfl⟩
  | _ => exact ⟨_, _, _, _, _, rfl⟩

theorem Admin.step_db {c : Choice} {call : Admin.Call} {w w' : World} {pc pc' : Admin.Pc}
    (h : Admin.step c call w pc = some (w', pc')) :
    (∃ users whitelist, w'.db = { w.db with users, whitelist }) ∧ w'.pushed = w.pushed := by
  obtain ⟨id, dto⟩ := call
  cases Admin.acts_of_step h with
  | sweep hs | swept hs =>
    rcases sweepStep_world hs with rfl | ⟨key, rfl⟩ <;> exact ⟨⟨_, _, rfl⟩, rfl⟩
  | _ => exact ⟨⟨_, _, rfl⟩, rfl⟩

/-- A block emits `SESSION_REVOKED` as it ends, and nothing else. -/
theorem Admin.step_events {c : Choice} {call : Admin.Call} {w w' : World} {pc pc' : Admin.Pc}
    (hs : Admin.step c call w pc = some (w', pc')) :
    (w'.events = w.events ∧ ∀ updated u sweep, pc = .revoke updated u sweep →
      ∃ sweep', pc' = .revoke updated u sweep') ∨
    ∃ updated u sweep, pc = .revoke updated u sweep ∧ pc' = .done (.ok updated) ∧
      w'.events = w.events ++ [.sessionRevoked u] := by
  obtain ⟨id, dto⟩ := call
  cases Admin.acts_of_step hs with
  | sweep hsw =>
    refine .inl ⟨?_, ?_⟩
    · rcases sweepStep_world hsw with rfl | ⟨key, rfl⟩ <;> rfl
    · rintro _ _ _ ⟨⟩; exact ⟨_, rfl⟩
  | swept hsw =>
    refine .inr ⟨_, _, _, rfl, rfl, ?_⟩
    rcases sweepStep_world hsw with rfl | ⟨key, rfl⟩ <;> rfl
  | _ => exact .inl ⟨rfl, by rintro _ _ _ ⟨⟩⟩

theorem Admin.entryStep_db {c : Choice} {call : Admin.EntryCall} {w w' : World}
    {pc pc' : Admin.EntryPc} (h : Admin.entryStep c call w pc = some (w', pc')) :
    ∃ whitelist accessRequests, w' = { w with
      db.whitelist := whitelist, db.accessRequests := accessRequests } := by
  have hcreated : ∀ {id kakaoId identifier invitedBy note next},
      (Admin.createEntry w id kakaoId identifier invitedBy note).map (Admin.created w next) =
        some (w', pc') → ∃ t, w' = { w with db.whitelist := t } := by
    intro id kakaoId identifier invitedBy note next hc
    obtain ⟨r, hr, he⟩ := Option.map_eq_some_iff.1 hc
    rcases r with e | ⟨w₁, row⟩
    · cases he; exact ⟨w.db.whitelist, rfl⟩
    · cases he
      obtain ⟨t, -, rfl⟩ := Admin.createEntry_ok hr
      exact ⟨t, rfl⟩
  unfold Admin.entryStep at h
  split at h
  -- the three that create an entry
  case h_2 | h_7 | h_11 => obtain ⟨t, rfl⟩ := hcreated h; exact ⟨t, _, rfl⟩
  case h_4 | h_8 | h_9 => split at h <;> cases h <;> exact ⟨_, _, rfl⟩
  case h_12 => cases h
  all_goals cases h; exact ⟨_, _, rfl⟩

theorem Push.upsertToken_world {c : Choice} {userId : String} {dto : Push.RegisterTokenDto}
    {w w' : World} {pc : Push.Pc} (h : Push.upsertToken c userId dto w = some (w', pc)) :
    ∃ pushTokens, w' = { w with db.pushTokens := pushTokens } := by
  unfold Push.upsertToken at h
  split at h
  · split at h
    · cases h; exact ⟨_, rfl⟩
    · split at h
      · split at h <;> cases h
        exact ⟨_, rfl⟩
      · cases h
  · cases h; exact ⟨_, rfl⟩

theorem Push.step_db {cfg : AppConfig} {c : Choice} {call : Push.Call} {w w' : World}
    {pc pc' : Push.Pc} (h : Push.step cfg c call w pc = some (w', pc')) :
    ∃ pushTokens pushed, w' = { w with db.pushTokens := pushTokens, pushed := pushed } := by
  unfold Push.step at h
  split at h
  · obtain ⟨t, rfl⟩ := Push.upsertToken_world h; exact ⟨t, _, rfl⟩
  · simp only at h
    split at h <;> cases h <;> exact ⟨_, _, rfl⟩
  · unfold Push.handleStep at h
    split at h
    case h_5 =>
      simp only [Push.sendToTokens] at h
      split at h
      · cases h; exact ⟨_, _, rfl⟩
      · rename_i hsent
        split at hsent
        · cases hsent; cases h; exact ⟨_, _, rfl⟩
        · split at hsent <;> cases hsent
          cases h
          exact ⟨_, _, rfl⟩
    all_goals cases h <;> exact ⟨_, _, rfl⟩
  · cases h

theorem MediaService.step_db {cfg : AppConfig} {c : Choice} {call : MediaService.Call}
    {w w' : World} {pc pc' : MediaService.Pc}
    (h : MediaService.step cfg c call w pc = some (w', pc')) :
    ∃ media objects, w' = { w with db.media := media, objects := objects } := by
  cases MediaService.acts_of_step h <;> exact ⟨_, _, rfl⟩

theorem ProfileService.step_db {cfg : AppConfig} {call : ProfileService.Call} {w w' : World}
    {pc pc' : ProfileService.Pc} (h : ProfileService.step cfg call w pc = some (w', pc')) :
    ∃ profiles, w' = { w with db.profiles := profiles } := by
  unfold ProfileService.step at h
  split at h
  · cases h; exact ⟨_, rfl⟩
  · cases h; exact ⟨_, rfl⟩
  · split at h
    · unfold ProfileService.createStep at h
      split at h
      · cases h; exact ⟨_, rfl⟩
      · split at h
        · cases h; exact ⟨_, rfl⟩
        · simp only at h
          split at h
          · cases h; exact ⟨_, rfl⟩
          · split at h <;> cases h <;> exact ⟨_, rfl⟩
      · cases h
    · unfold ProfileService.updateStep at h
      split at h
      · cases h; exact ⟨_, rfl⟩
      · split at h
        · cases h; exact ⟨_, rfl⟩
        · split at h <;> cases h <;> exact ⟨_, rfl⟩
      · cases h

/-! ## Messages -/

namespace Messages

theorem CreateActs.db {json : Json} {c : Choice} {p : CreateMessageParams} {w w' : World}
    {pc pc' : CreatePc} (h : CreateActs json c p w pc w' pc') :
    (∃ messages rooms, w'.db = { w.db with messages, rooms }) ∧ w'.pushed = w.pushed := by
  cases h.effect <;> exact ⟨⟨_, _, rfl⟩, rfl⟩

theorem readStep_events {roomId userId : WhereString} {n : JsNumber} {w w' : World}
    {pc pc' : ReadPc} (h : readStep roomId userId n w pc = some (w', pc')) :
    w'.events = w.events ∨ ∃ r u l ids, w'.events = w.events ++ [.messageRead r u l ids] := by
  cases pc <;> simp only [readStep] at h
  case update =>
    split at h
    · cases h; exact .inl rfl
    · split at h
      · cases h; exact .inl rfl
      · split at h <;> cases h <;> exact .inl rfl
  case members l => cases h; exact .inr ⟨_, _, _, _, rfl⟩
  case done r => cases h

/-- `softDelete` unsends, and announces that. -/
theorem deleteStep_events {cfg : AppConfig} {roomId messageId requesterId : String}
    {w w' : World} {pc pc' : DeletePc}
    (h : deleteStep cfg roomId messageId requesterId w pc = some (w', pc')) :
    (w'.events = w.events ∨ ∃ r m ids, w'.events = w.events ++ [.messageDeleted r m ids]) ∧
      ∀ x ∈ w'.db.messages.rows, ∃ y ∈ w.db.messages.rows, x = y ∨ ∃ d, x = unsend d y := by
  have hsame : ∀ x ∈ w.db.messages.rows, ∃ y ∈ w.db.messages.rows, x = y ∨ ∃ d, x = unsend d y :=
    fun x hx => ⟨x, hx, .inl rfl⟩
  cases pc <;> simp only [deleteStep] at h
  case find =>
    simp only [Option.some.injEq, Prod.mk.injEq] at h
    obtain ⟨rfl, -⟩ := h
    exact ⟨.inl rfl, hsame⟩
  case update deletedAt =>
    split at h <;> cases h
    · refine ⟨.inl rfl, fun x hx => ?_⟩
      simp only [Table.mem_updateWhere] at hx
      obtain ⟨y, hy, hxy⟩ := hx
      split at hxy <;> subst hxy
      · exact ⟨y, hy, .inr ⟨deletedAt, rfl⟩⟩
      · exact ⟨y, hy, .inl rfl⟩
    · exact ⟨.inl rfl, hsame⟩
  case members => cases h; exact ⟨.inr ⟨_, _, _, rfl⟩, hsame⟩
  case done r => cases h

theorem step_db {cfg : AppConfig} {json : Json} {c : Choice} {call : Call} {w w' : World}
    {pc pc' : Pc} (h : step cfg json c call w pc = some (w', pc')) :
    (∃ messages rooms roomMembers, w'.db = { w.db with messages, rooms, roomMembers }) ∧
      w'.pushed = w.pushed := by
  unfold step at h
  split at h
  · obtain ⟨⟨w₁, pc₁⟩, hs, he⟩ := Option.map_eq_some_iff.1 h
    cases he
    obtain ⟨⟨messages, rooms, hdb⟩, hp⟩ := (acts_of_createStep hs).db
    exact ⟨⟨messages, rooms, _, hdb⟩, hp⟩
  · obtain ⟨⟨w₁, pc₁⟩, hs, he⟩ := Option.map_eq_some_iff.1 h
    cases he
    obtain ⟨⟨roomMembers, hdb⟩, hp⟩ := readStep_db hs
    exact ⟨⟨_, _, roomMembers, hdb⟩, hp⟩
  · obtain ⟨⟨w₁, pc₁⟩, hs, he⟩ := Option.map_eq_some_iff.1 h
    cases he
    obtain ⟨⟨messages, hdb⟩, hp⟩ := deleteStep_db hs
    exact ⟨⟨messages, _, _, hdb⟩, hp⟩
  · cases h

end Messages

/-! ## Rooms -/

namespace Rooms

theorem TailActs.db {json : Messages.Json} {c : Choice} {r : String} {task : Task}
    {todo : List Task} {result : Option RoomView} {w w' : World} {pc : TailPc} {pc' : Pc}
    (h : TailActs json c r task todo result w pc w' pc') :
    (∃ messages rooms, w'.db = { w.db with messages, rooms }) ∧ w'.pushed = w.pushed := by
  cases h with
  | created _ hc => exact hc.db
  | _ => exact ⟨⟨_, _, rfl⟩, rfl⟩

theorem step_db {json : Messages.Json} {c : Choice} {call : Call} {w w' : World} {pc pc' : Pc}
    (h : step json c call w pc = some (w', pc')) :
    (∃ messages rooms roomMembers, w'.db = { w.db with messages, rooms, roomMembers }) ∧
      w'.pushed = w.pushed := by
  unfold step at h
  split at h
  · obtain ⟨⟨messages, rooms, hdb⟩, hp⟩ := (acts_of_tailStep h).db
    exact ⟨⟨messages, rooms, _, hdb⟩, hp⟩
  · have hacts : Acts c call w pc w' pc' := by
      cases call with
      | createRoom creatorId dto => exact acts_of_createRoom h
      | addMembers r a userIds => exact acts_of_addMembers h
      | updateMemberRole r a t role => exact acts_of_updateMemberRole h
      | removeMember r a t => exact acts_of_removeMember h
    obtain ⟨rooms, roomMembers, rfl⟩ := hacts.db
    exact ⟨⟨_, rooms, roomMembers, rfl⟩, rfl⟩

theorem updateStep_db {json : Messages.Json} {c : Choice} {roomId actorId : String}
    {dto : UpdateRoomDto} {w w' : World} {pc pc' : UpdatePc}
    (h : updateStep json c roomId actorId dto w pc = some (w', pc')) :
    (∃ messages rooms, w'.db = { w.db with messages, rooms }) ∧ w'.pushed = w.pushed := by
  cases acts_of_updateRoom h with
  | after hs => exact (acts_of_tailStep hs).db
  | _ => exact ⟨⟨_, _, rfl⟩, rfl⟩

end Rooms

/-! ## Sockets -/

namespace Realtime

theorem Socket.Stays.trans {s s' s'' : Socket} (h : s.Stays s') (h' : s'.Stays s'') :
    s.Stays s'' where
  userId := h'.userId.trans h.userId
  connected hc := h.connected (h'.connected hc)
  rooms hc r hr := h'.rooms hc r (h.rooms (h'.connected hc) r hr)

theorem stays_onEvent (h : Hub) (e : DomainEvent) (j : String) :
    (h.sockets j).Stays ((onEvent h e).sockets j) := by
  cases e <;> simp only [onEvent, sockets_emitToUsers]
  case sessionRevoked userId =>
    simp only [Hub.disconnectSockets]
    split
    · exact ⟨rfl, fun hc => by simp at hc, fun hc => by simp at hc⟩
    · exact .refl _
  all_goals exact .refl _

theorem stays_deliver (events : List DomainEvent) (h : Hub) (j : String) :
    (h.sockets j).Stays ((deliver events h).sockets j) := by
  unfold deliver
  generalize h.world.events.drop events.length = new
  induction new generalizing h with
  | nil => exact .refl _
  | cons e new ih => exact (stays_onEvent h e j).trans (ih (onEvent h e))

theorem onReadStep_world {id : String} {body : Option ReadPayload} {h h' : Hub} {pc pc' : ReadPc}
    (hs : onReadStep id body h pc = some (h', pc')) :
    ∃ w, h' = { h with world := w } ∧
      (∃ roomMembers, w.db = { h.world.db with roomMembers }) ∧ w.pushed = h.world.pushed := by
  rcases onReadStep_cases hs with rfl | ⟨_, _, _, _, w, _, hmark, rfl⟩
  · exact ⟨_, rfl, ⟨_, rfl⟩, rfl⟩
  · exact ⟨w, rfl, Messages.readStep_db hmark⟩

theorem SendActs.world {json : Messages.Json} {c : Choice} {id : String}
    {body : Option SendPayload} {h h' : Hub} {pc pc' : SendPc}
    (hacts : SendActs json c id body h pc h' pc') :
    ∃ w, h' = { h with world := w } ∧
      (∃ messages rooms, w.db = { h.world.db with messages, rooms }) ∧
      w.pushed = h.world.pushed := by
  cases hacts with
  | create hcreate => exact ⟨_, rfl, (Messages.acts_of_createStep hcreate).db⟩
  | _ => exact ⟨_, rfl, ⟨_, _, rfl⟩, rfl⟩

theorem DeleteActs.world {cfg : AppConfig} {id : String} {body : Option DeletePayload}
    {h h' : Hub} {pc pc' : DeletePc} (hacts : DeleteActs cfg id body h pc h' pc') :
    ∃ w, h' = { h with world := w } ∧ (∃ messages, w.db = { h.world.db with messages }) ∧
      w.pushed = h.world.pushed := by
  cases hacts with
  | delete _ hdelete => exact ⟨_, rfl, Messages.deleteStep_db hdelete⟩
  | _ => exact ⟨_, rfl, ⟨_, rfl⟩, rfl⟩

theorem disconnectStep_world {id : String} {h h' : Hub} {pc pc' : DisconnectPc}
    (hs : disconnectStep id h pc = some (h', pc')) :
    (∀ j, (h.sockets j).Stays (h'.sockets j)) ∧
      (∃ lastSeenAt, h'.world.db = { h.world.db with lastSeenAt }) ∧
      h'.world.pushed = h.world.pushed := by
  cases pc <;> simp only [disconnectStep] at hs
  case left =>
    cases hs
    refine ⟨fun j => (stays_disconnect h id j).trans ?_, ⟨_, rfl⟩, rfl⟩
    simp only [Hub.sockets_update]
    split
    · rename_i hj; rw [hj]; exact ⟨rfl, fun hc => hc, fun _ r hr => hr⟩
    · exact .refl _
  case presence userId pc =>
    obtain ⟨⟨w, pc₁⟩, hp, he⟩ := Option.map_eq_some_iff.1 hs
    cases he
    obtain ⟨redis, lastSeenAt, rfl⟩ := Presence.removeStep_world hp
    exact ⟨fun j => .refl _, ⟨lastSeenAt, rfl⟩, rfl⟩
  case myRooms userId => split at hs <;> cases hs <;> exact ⟨fun j => .refl _, ⟨_, rfl⟩, rfl⟩
  case coMembers userId roomIds =>
    cases hs
    refine ⟨fun j => ?_, ?_⟩
    · rw [sockets_emitToUsers]; exact .refl _
    · unfold emitToUsers; split <;> exact ⟨⟨_, rfl⟩, rfl⟩
  case done => cases hs

theorem eventStep_world {cfg : AppConfig} {json : Messages.Json} {c : Choice} {call : EventCall}
    {h h' : Hub} {pc pc' : EventPc} (hs : eventStep cfg json c call h pc = some (h', pc')) :
    (∀ j, (h.sockets j).Stays (h'.sockets j)) ∧
      (∃ messages rooms lastSeenAt,
        h'.world.db = { h.world.db with messages, rooms, lastSeenAt }) ∧
      h'.world.pushed = h.world.pushed := by
  cases acts_of_event hs with
  | send hsend =>
    obtain ⟨w, rfl, ⟨messages, rooms, hdb⟩, hp⟩ := hsend.world
    exact ⟨fun j => .refl _, ⟨messages, rooms, _, hdb⟩, hp⟩
  | delete hdelete =>
    obtain ⟨w, rfl, ⟨messages, hdb⟩, hp⟩ := hdelete.world
    exact ⟨fun j => .refl _, ⟨messages, _, _, hdb⟩, hp⟩
  | @join id roomId pc _ _ hjoin =>
    cases pc with
    | received => cases hjoin; exact ⟨fun j => .refl _, ⟨_, _, _, rfl⟩, rfl⟩
    | member userId => cases hjoin; exact ⟨fun j => .refl _, ⟨_, _, _, rfl⟩, rfl⟩
    | join roomId => cases hjoin; exact ⟨fun j => stays_join h id j _, ⟨_, _, _, rfl⟩, rfl⟩
    | done ack => cases hjoin
  | leave hleave =>
    obtain ⟨hstay, ⟨lastSeenAt, hdb⟩, hp⟩ := disconnectStep_world hleave
    exact ⟨hstay, ⟨_, _, lastSeenAt, hdb⟩, hp⟩

/-- An event of a socket leaves rooms and memberships to the services. -/
theorem kept_of_eventStep {cfg : AppConfig} {json : Messages.Json} {c : Choice} {call : EventCall}
    {h h' : Hub} {pc pc' : EventPc} (hs : eventStep cfg json c call h pc = some (h', pc')) :
    Rooms.Kept h.world h'.world := by
  cases acts_of_event hs with
  | send hsend =>
    cases hsend with
    | create hcreate => exact Rooms.kept_of_createActs (Messages.acts_of_createStep hcreate)
    | _ => exact .refl _
  | delete hdelete =>
    obtain ⟨w, rfl, ⟨messages, hdb⟩, -⟩ := hdelete.world
    exact ⟨by rw [hdb], by rw [Rooms.roomStubs, Rooms.roomStubs, hdb]⟩
  | @join id roomId pc _ _ hjoin => cases pc <;> cases hjoin <;> exact .refl _
  | leave hleave =>
    obtain ⟨-, ⟨lastSeenAt, hdb⟩, -⟩ := disconnectStep_world hleave
    exact ⟨by rw [hdb], by rw [Rooms.roomStubs, Rooms.roomStubs, hdb]⟩

end Realtime

end Intaktok
