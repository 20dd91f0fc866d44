import Intaktok.Realtime.RoomDelivery
import Intaktok.Realtime.Handshakes
import Intaktok.Rooms.Audience
import Intaktok.Lib.Checkpoints
/-
# Who hears of what

The gateway sends to personal rooms, and to those of users that have been read from the table of
members: in the action itself (`markRead`, `softDelete`, the presence of a co-member), or some
actions before (`emitCreated`, `emitLifecycle`). Either way whoever hears of a room has been in it
in the course of the run, and who hears of a user's presence is in a room he has been in
(`heard_inside`).
-/

namespace Intaktok.Realtime

open Interleave Tables
open Messages (CreateMessageParams CreatePc CreateActs getActiveMemberIds)

/-! ## Events and emissions -/

/-- The room an event is about, if it names one. -/
def ServerEvent.about : ServerEvent → Option String
  | .messageNew message => some message.roomId
  | .messageRead roomId _ _ => roomId
  | .messageDeleted roomId _ => some roomId
  | .roomCreated room | .roomUpdated room => some room.id
  | .error _ _ | .presence _ _ => none

/-- An event that goes to the members of a room. -/
def ServerEvent.ofRoom : ServerEvent → Bool
  | .error _ _ | .presence _ _ => false
  | _ => true

/-- The user is in the room; in some room, if none is named. -/
def Attends (db : Db) (roomId : Option String) (v : String) : Prop :=
  ∃ r, (∀ x, roomId = some x → r = x) ∧ v ∈ getActiveMemberIds db r

theorem attends_some {db : Db} {r v : String} (h : v ∈ getActiveMemberIds db r) :
    Attends db (some r) v := ⟨r, by rintro _ ⟨⟩; rfl, h⟩

def broadcast : DomainEvent → Option (List String × ServerEvent)
  | .messageCreated message ids _ _ => some (ids, .messageNew message)
  | .messageRead roomId userId lastReadSeq ids => some (ids, .messageRead roomId userId lastReadSeq)
  | .messageDeleted roomId messageId ids => some (ids, .messageDeleted roomId messageId)
  | .roomCreated room _ ids => some (ids, .roomCreated room)
  | .roomUpdated room _ ids => some (ids, .roomUpdated room)
  | .sessionRevoked _ => none

/-- What has been emitted on the way is of the kind. -/
def Emits (h h' : Hub) (φ : Emission → Prop) : Prop :=
  ∃ new, h'.emitted = h.emitted ++ new ∧ ∀ e ∈ new, φ e

def Publishes (w w' : World) (ψ : DomainEvent → Prop) : Prop :=
  ∃ new, w'.events = w.events ++ new ∧ ∀ d ∈ new, ψ d

section Emits
variable {h h' h'' : Hub} {w w' : World} {φ : Emission → Prop} {ψ : DomainEvent → Prop}

theorem emits_of_eq (he : h'.emitted = h.emitted) : Emits h h' φ := ⟨[], by simp [he], by simp⟩

theorem emits_emit {rooms : List String} {event : ServerEvent} (he : φ ⟨rooms, event⟩) :
    Emits h (h.emit rooms event) φ := ⟨[⟨rooms, event⟩], rfl, by simpa using he⟩

theorem Emits.trans (h₁ : Emits h h' φ) (h₂ : Emits h' h'' φ) : Emits h h'' φ := by
  obtain ⟨new₁, he₁, hφ₁⟩ := h₁
  obtain ⟨new₂, he₂, hφ₂⟩ := h₂
  exact ⟨new₁ ++ new₂, by rw [he₂, he₁, List.append_assoc],
    fun e he => (List.mem_append.1 he).elim (hφ₁ e) (hφ₂ e)⟩

theorem emits_emitToUsers {ids : List String} {event : ServerEvent}
    (he : φ ⟨ids.map userRoom, event⟩) : Emits h (emitToUsers h ids event) φ := by
  unfold emitToUsers
  split
  · exact emits_of_eq rfl
  · exact emits_emit he

theorem Emits.new (hem : Emits h h' φ) {e : Emission}
    (he : e ∈ h'.emitted.drop h.emitted.length) : φ e := by
  obtain ⟨new, hnew, hφ⟩ := hem
  rw [hnew, List.drop_left] at he
  exact hφ e he

theorem publishes_of_eq (he : w'.events = w.events) : Publishes w w' ψ :=
  ⟨[], by simp [he], by simp⟩

theorem publishes_one {d : DomainEvent} (he : w'.events = w.events ++ [d]) (hd : ψ d) :
    Publishes w w' ψ := ⟨[d], he, by simpa using hd⟩

theorem emits_onEvent {d : DomainEvent}
    (hd : ∀ ids event, broadcast d = some (ids, event) → φ ⟨ids.map userRoom, event⟩) :
    Emits h (onEvent h d) φ := by
  cases d with
  | sessionRevoked u => exact emits_of_eq rfl
  | _ => exact emits_emitToUsers (hd _ _ rfl)

/-- The gateway sends what has been published. -/
theorem emits_deliver (hp : Publishes w h.world ψ)
    (hψ : ∀ d, ψ d → ∀ ids event, broadcast d = some (ids, event) → φ ⟨ids.map userRoom, event⟩) :
    Emits h (deliver w.events h) φ := by
  obtain ⟨new, hnew, hall⟩ := hp
  rw [deliver_of_events hnew]
  clear hnew
  induction new generalizing h with
  | nil => exact emits_of_eq rfl
  | cons d new ih =>
    exact (emits_onEvent (hψ d (hall d List.mem_cons_self))).trans
      (ih fun d hd => hall d (List.mem_cons_of_mem _ hd))

end Emits

/-! ## Co-members -/

/-- Whose presence is about to be told, and the rooms it is told in. -/
def telling? : ServerPc → Option (String × List String)
  | .inl (.inl (.connect (.coMembers u roomIds)))
  | .inl (.inr (.disconnect (.coMembers u roomIds))) => some (u, roomIds)
  | _ => none

/-! ## Who is on a list -/

/-- A list the process has made of the members of the room has the user on it. -/
inductive Lists (json : Messages.Json) (r v : String) : ServerCall → ServerPc → Prop
  | creation {k l p dto got ids} : creation json k l = some (p, .fetch dto got) → p.roomId = r →
      got.memberUserIds = some ids → v ∈ ids → Lists json r v k l
  | rooms {call pc} : Rooms.Pc.Bound r v call pc →
      Lists json r v (.inr ⟨.rooms, call⟩) (.inr ⟨.rooms, pc⟩)
  | roomUpdates {call pc} : pc.Promises r v →
      Lists json r v (.inr ⟨.roomUpdates, call⟩) (.inr ⟨.roomUpdates, .after pc⟩)

section Step
variable {cfg : AppConfig} {decode : String → Option Jwt} {json : Messages.Json} {c : Choice}
  {h h' : Hub} {k : ServerCall} {l l' : ServerPc} {r v : String}

theorem promises_of_updateStep {call : Rooms.UpdateCall} {w w' : World} {pc : Rooms.UpdatePc}
    {q' : Rooms.Pc} (hs : (Rooms.updateMachine json).step c call w pc = some (w', .after q'))
    (hp : q'.Promises r v) :
    (∃ q, pc = .after q ∧ q.Promises r v) ∨ v ∈ getActiveMemberIds w.db r := by
  obtain ⟨r₁, a, dto⟩ := call
  rcases Rooms.rest_of_updateStep (q := q') hs rfl with ⟨e, rfl⟩ | ⟨room, rfl⟩ |
    ⟨r', task, todo, tp, result, rfl, ht⟩
  · exact hp.elim
  · exact absurd hp Rooms.not_promises_afterUpdate
  · exact (Rooms.promises_of_tailStep ht hp).imp_left fun hp => ⟨_, rfl, hp⟩

/-- A user comes on a list of the room while he is in it. -/
theorem lists_of_step (hs : (server cfg decode json).step c k h l = some (h', l'))
    (hl : Lists json r v k l') :
    Lists json r v k l ∨ v ∈ getActiveMemberIds h.world.db r ∨
      v ∈ getActiveMemberIds h'.world.db r := by
  cases hl with
  | creation hk hr hids hv =>
    rcases creation_step hs with hb | ⟨p, pc, w', pc', hk₀, hacts, hk'⟩
    · obtain ⟨p', hp, -⟩ := hb _ _ hk
      exact absurd hp.symm createStart_not_fetch
    · rw [hk'] at hk
      cases hk
      rcases fetch_of_acts hacts rfl with ⟨m, -, -, rfl⟩ | ⟨got, rfl, hf⟩
      · cases hids
      · rcases members_of_fetchNext hf hids with hold | ⟨-, -, rfl⟩
        · exact .inl (.creation hk₀ hr hold hv)
        · exact .inr (.inl (hr ▸ hv))
  | rooms hb =>
    obtain ⟨h₁, hacts, rfl⟩ := server_step hs
    rw [world_deliver]
    cases hacts with
    | service hservice => exact (Rooms.bound_of_step hservice hb).imp_left .rooms
  | roomUpdates hp =>
    obtain ⟨h₁, hacts, rfl⟩ := server_step hs
    cases hacts with
    | service hservice =>
      rcases promises_of_updateStep hservice hp with ⟨q, rfl, hq⟩ | hv
      · exact .inl (.roomUpdates hq)
      · exact .inr (.inl hv)

/-- A user whose presence is told in a room has been in it. -/
theorem telling_of_step {u : String} {roomIds : List String}
    (hs : (server cfg decode json).step c k h l = some (h', l'))
    (ht : telling? l' = some (u, roomIds)) (hr : r ∈ roomIds) :
    u ∈ getActiveMemberIds h.world.db r := by
  obtain ⟨h₁, hacts, rfl⟩ := server_step hs
  cases hacts with
  | socket hsocket =>
    cases acts_of_socket hsocket with
    | connect hconnect =>
      cases acts_of_connect hconnect with
      | shares => cases ht; exact mem_getActiveMemberIds_of_roomsOf hr
      | counted => split at ht <;> cases ht
      | _ => cases ht
    | read => cases ht
  | event hevent =>
    cases acts_of_event hevent with
    | leave hleave =>
      cases acts_of_leave hleave with
      | shares => cases ht; exact mem_getActiveMemberIds_of_roomsOf hr
      | left hpc => rcases hpc with rfl | ⟨_, rfl⟩ <;> cases ht
      | counts _ hpc => rcases hpc with rfl | rfl | rfl <;> cases ht
      | _ => cases ht
    | _ => cases ht
  | service => cases ht

/-! ## What an action sends, and to whom -/

/-- Why an action may send an event to the user: he is in the room; he is on a list of its members;
or he is in a room with the user whose presence it tells. -/
inductive Addresses (json : Messages.Json) (h : Hub) (k : ServerCall) (l : ServerPc) :
    ServerEvent → String → Prop
  | now {event v} : event.ofRoom = true → Attends h.world.db event.about v →
      Addresses json h k l event v
  | listed {event v r} : event.about = some r → Lists json r v k l → Addresses json h k l event v
  | near {u status v r roomIds} : telling? l = some (u, roomIds) → r ∈ roomIds → v ≠ u →
      v ∈ getActiveMemberIds h.world.db r → Addresses json h k l (.presence u status) v

/-- A socket is told that it is refused; everything else goes to users. -/
inductive Sent (json : Messages.Json) (h : Hub) (k : ServerCall) (l : ServerPc) : Emission → Prop
  | refusal {id hs message} : k = .inl (.inl (.connect id hs)) →
      Sent json h k l ⟨[id], .error .UNAUTHORIZED message⟩
  | users {ids : List String} {event} : (∀ v ∈ ids, Addresses json h k l event v) →
      Sent json h k l ⟨ids.map userRoom, event⟩

def Destined (json : Messages.Json) (h : Hub) (k : ServerCall) (l : ServerPc) (d : DomainEvent) :
    Prop :=
  ∀ ids event, broadcast d = some (ids, event) → ∀ v ∈ ids, Addresses json h k l event v

/-- A presence goes to the co-members. -/
theorem sent_presence {u : String} {status : PresenceStatus} {ids : List String}
    (ht : telling? l = some (u, ids)) :
    Sent json h k l ⟨(coMembersOf h.world.db u ids).map userRoom, .presence u status⟩ :=
  .users fun _ hv =>
    let ⟨hne, _, hr, hin⟩ := mem_coMembersOf hv
    .near ht hr hne hin

/-- A handshake sends its refusal, or the presence of its user. -/
theorem emits_of_connect {id : String} {hs : Handshake} {pc pc' : ConnectPc}
    (hacts : ConnectActs cfg decode id hs h pc h' pc') :
    Emits h h' (Sent json h (.inl (.inl (.connect id hs))) (.inl (.inl (.connect pc)))) := by
  cases hacts with
  | @refused _ h₀ message _ _ he =>
    exact (emits_of_eq he).trans
      (@emits_emit h₀ _ [id] (.error .UNAUTHORIZED message) (.refusal rfl))
  | tells => exact emits_emitToUsers (sent_presence rfl)
  | _ => exact emits_of_eq rfl

theorem emits_of_leave {id : String} {pc pc' : DisconnectPc} (hacts : LeaveActs id h pc h' pc') :
    Emits h h' (Sent json h (.inl (.inr (.disconnect id))) (.inl (.inr (.disconnect pc)))) := by
  cases hacts with
  | tells => exact emits_emitToUsers (sent_presence rfl)
  | _ => exact emits_of_eq rfl

/-- A creation announces its message to the members it has read. -/
theorem publishes_create {p : CreateMessageParams} {w' : World} {pc pc' : CreatePc}
    (ho : OfRoom (creation json k l)) (hk : creation json k l = some (p, pc))
    (hacts : CreateActs json c p h.world pc w' pc') :
    Publishes h.world w' (Destined json h k l) := by
  rcases announces_of_acts hacts with
    hev | ⟨dto, got, got', ids, preview, title, rfl, hf, hids, hev⟩
  · exact publishes_of_eq hev
  refine publishes_one hev ?_
  rintro _ _ ⟨⟩ v hv
  have hroom : (ServerEvent.messageNew dto).about = some p.roomId :=
    congrArg some ((ho p).2 dto got hk)
  rcases members_of_fetchNext hf hids with hold | ⟨-, -, rfl⟩
  · exact .listed hroom (.creation hk rfl hold hv)
  · exact .now rfl (hroom ▸ attends_some hv)

theorem publishes_readStep {roomId userId : Messages.WhereString} {n : Messages.JsNumber}
    {w' : World} {pc pc' : Messages.ReadPc}
    (hs : Messages.readStep roomId userId n h.world pc = some (w', pc')) :
    Publishes h.world w' (Destined json h k l) := by
  cases pc <;> simp only [Messages.readStep] at hs
  case update =>
    split at hs
    · cases hs; exact publishes_of_eq rfl
    · split at hs
      · cases hs; exact publishes_of_eq rfl
      · split at hs <;> cases hs <;> exact publishes_of_eq rfl
  case members m =>
    cases hs
    refine publishes_one rfl ?_
    rintro _ _ ⟨⟩ v hv
    obtain ⟨x, hx, rfl⟩ := List.mem_map.1 hv
    simp only [Table.mem_findMany, Bool.and_eq_true] at hx
    refine .now rfl ⟨x.roomId, fun r hr => ?_, List.mem_map_of_mem (Table.mem_findMany.2
      ⟨hx.1, by simp [hx.2.2]⟩)⟩
    cases roomId with
    | str s =>
      cases hr
      exact beq_iff_eq.1 hx.2.1
    | _ => cases hr
  case done => cases hs

theorem publishes_deleteStep {roomId messageId requesterId : String} {w' : World}
    {pc pc' : Messages.DeletePc}
    (hs : Messages.deleteStep cfg roomId messageId requesterId h.world pc = some (w', pc')) :
    Publishes h.world w' (Destined json h k l) := by
  cases pc <;> simp only [Messages.deleteStep] at hs
  case find => cases hs; exact publishes_of_eq rfl
  case update => split at hs <;> cases hs <;> exact publishes_of_eq rfl
  case members =>
    cases hs
    refine publishes_one rfl ?_
    rintro _ _ ⟨⟩ v hv
    exact .now rfl (attends_some hv)
  case done => cases hs

/-- The tail of a request tells of its room whom it has promised to. -/
theorem publishes_tailStep {task : Rooms.Task} {todo : List Rooms.Task} {result : Option RoomView}
    {tp : Rooms.TailPc} {w' : World} {q' : Rooms.Pc} (ho : OfRoom (creation json k l))
    (hk : creation json k l = tailCreation json (.tail r task todo tp result))
    (hview : (Rooms.Pc.tail r task todo tp result).ViewsOwn)
    (hl : ∀ v, (Rooms.Pc.tail r task todo tp result).Promises r v → Lists json r v k l)
    (hs : Rooms.tailStep json c r task todo result h.world tp = some (w', q')) :
    Publishes h.world w' (Destined json h k l) := by
  cases Rooms.move_of_tailStep hs with
  | created hacts => exact publishes_create ho hk hacts
  | @emitted event x ids vp room hv =>
    have hid : room.id = r := Rooms.viewStep_of (hview r ids vp rfl) hv
    refine publishes_one rfl fun ids' ev hb v hin => ?_
    have hev : ids' = ids ∧ ev.about = some room.id := by
      cases event <;> cases hb <;> exact ⟨rfl, rfl⟩
    obtain ⟨rfl, habout⟩ := hev
    exact .listed (habout.trans (congrArg some hid)) (hl v ⟨rfl, .inr hin⟩)
  | _ => exact publishes_of_eq rfl

/-- The view a process reads for an event is of its room. -/
def ViewsOwn : ServerPc → Prop
  | .inr ⟨.rooms, pc⟩ | .inr ⟨.roomUpdates, .after pc⟩ => pc.ViewsOwn
  | _ => True

theorem publishes_service {s : Service} {call : s.Call} {pc pc' : s.Pc} {w' : World}
    (ho : OfRoom (creation json (.inr ⟨s, call⟩) (.inr ⟨s, pc⟩)))
    (hv : ViewsOwn (.inr ⟨s, pc⟩))
    (hs : (s.machine cfg json).step c call h.world pc = some (w', pc')) :
    Publishes h.world w' (Destined json h (.inr ⟨s, call⟩) (.inr ⟨s, pc⟩)) := by
  cases s with
  | auth => obtain ⟨_, _, _, _, _, rfl⟩ := Auth.step_db hs; exact publishes_of_eq rfl
  | admin =>
    rcases Admin.step_events hs with ⟨he, -⟩ | ⟨_, u, _, -, -, he⟩
    · exact publishes_of_eq he
    · exact publishes_one he (by rintro _ _ ⟨⟩)
  | whitelist => obtain ⟨_, _, rfl⟩ := Admin.entryStep_db hs; exact publishes_of_eq rfl
  | messages =>
    cases Messages.acts_of_step hs with
    | create hcreate => exact publishes_create ho rfl (Messages.acts_of_createStep hcreate)
    | read hread => exact publishes_readStep hread
    | delete hdelete => exact publishes_deleteStep hdelete
  | rooms =>
    rcases Rooms.step_acts hs with ⟨r, task, todo, tp, result, rfl, -⟩ | ⟨hacts, -⟩
    · exact publishes_tailStep ho rfl hv (fun v hp => .rooms (.inl hp)) hs
    · obtain ⟨rooms, roomMembers, rfl⟩ := hacts.db
      exact publishes_of_eq rfl
  | roomUpdates =>
    obtain ⟨r, a, dto⟩ := call
    cases Rooms.acts_of_updateRoom hs with
    | after ht => exact publishes_tailStep ho rfl hv (fun v hp => .roomUpdates hp) ht
    | _ => exact publishes_of_eq rfl
  | push => obtain ⟨_, _, rfl⟩ := Push.step_db hs; exact publishes_of_eq rfl
  | media => obtain ⟨_, _, rfl⟩ := MediaService.step_db hs; exact publishes_of_eq rfl
  | profile => obtain ⟨_, rfl⟩ := ProfileService.step_db hs; exact publishes_of_eq rfl

/-- Whatever an action sends, it has a reason to send it there. -/
theorem emits_of_step (ho : OfRoom (creation json k l)) (hv : ViewsOwn l)
    (hs : (server cfg decode json).step c k h l = some (h', l')) :
    Emits h h' (Sent json h k l) := by
  obtain ⟨h₁, hacts, rfl⟩ := server_step hs
  have onward : Emits h h₁ (Sent json h k l) → Publishes h.world h₁.world (Destined json h k l) →
      Emits h (deliver h.world.events h₁) (Sent json h k l) := fun hem hpub =>
    hem.trans (emits_deliver hpub fun d hd ids event hb => .users (hd ids event hb))
  cases hacts with
  | socket hsocket =>
    cases acts_of_socket hsocket with
    | connect hconnect =>
      exact onward (emits_of_connect (acts_of_connect hconnect))
        (publishes_of_eq (connectStep_world hconnect).2.1)
    | read hread =>
      rcases onReadStep_cases hread with rfl | ⟨_, _, _, _, w, _, hmark, rfl⟩
      · exact onward (emits_of_eq rfl) (publishes_of_eq rfl)
      · exact onward (emits_of_eq rfl) (publishes_readStep hmark)
  | event hevent =>
    cases acts_of_event hevent with
    | send hsend =>
      cases hsend with
      | create hcreate =>
        exact onward (emits_of_eq rfl)
          (publishes_create ho rfl (Messages.acts_of_createStep hcreate))
      | _ => exact onward (emits_of_eq rfl) (publishes_of_eq rfl)
    | delete hdelete =>
      cases hdelete with
      | delete _ hdelete => exact onward (emits_of_eq rfl) (publishes_deleteStep hdelete)
      | _ => exact onward (emits_of_eq rfl) (publishes_of_eq rfl)
    | @join id roomId pc _ _ hjoin =>
      cases pc <;> cases hjoin <;> exact onward (emits_of_eq rfl) (publishes_of_eq rfl)
    | leave hleave =>
      exact onward (emits_of_leave (acts_of_leave hleave))
        (publishes_of_eq (silent_disconnectStep hleave).2)
  | service hservice => exact onward (emits_of_eq rfl) (publishes_service ho hv hservice)

theorem viewsOwn_step (hv : ViewsOwn l)
    (hs : (server cfg decode json).step c k h l = some (h', l')) : ViewsOwn l' := by
  obtain ⟨h₁, hacts, -⟩ := server_step hs
  cases hacts with
  | socket | event => trivial
  | @service s call pc pc' w hservice =>
    cases s with
    | rooms => exact Rooms.viewsOwn_of_step hv hservice
    | roomUpdates =>
      obtain ⟨r, a, dto⟩ := call
      cases pc' with
      | after q' =>
        rcases Rooms.rest_of_updateStep (q := q') hservice rfl with ⟨e, rfl⟩ | ⟨room, rfl⟩ |
          ⟨r', task, todo, tp, result, rfl, ht⟩
        · exact Rooms.viewsOwn_of_none rfl
        · exact Rooms.opening_proceed.viewsOwn
        · exact Rooms.viewsOwn_of_tailStep hv ht
      | _ => trivial
    | _ => trivial

theorem viewsOwn_start : ViewsOwn ((server cfg decode json).start k) := by
  rcases k with k | ⟨s, call⟩
  · trivial
  · cases s with
    | rooms =>
      cases call with
      | createRoom a dto =>
        show (Rooms.createStart a dto).ViewsOwn
        rcases Rooms.createStart_cases a dto with h | ⟨e, h⟩ <;> rw [h] <;>
          exact Rooms.viewsOwn_of_none rfl
      | _ => exact Rooms.viewsOwn_of_none rfl
    | _ => trivial

theorem not_lists_start : ¬ Lists json r v k ((server cfg decode json).start k) := by
  generalize hl : (server cfg decode json).start k = l
  intro hlists
  cases hlists with
  | creation hk =>
    subst hl
    obtain ⟨p', hp, -⟩ := begins_start cfg decode json k _ _ hk
    exact createStart_not_fetch hp.symm
  | @rooms call pc hb =>
    obtain rfl : Rooms.start call = pc := by cases hl; rfl
    cases call with
    | createRoom a dto =>
      rcases hb with hp | ⟨b, hcall, -⟩
      · rcases Rooms.createStart_cases a dto with h | ⟨e, h⟩ <;>
          rw [Rooms.start, h] at hp <;> exact hp
      · cases hcall
    | _ => rcases hb with hp | ⟨b, -, hp⟩ <;> exact hp
  | roomUpdates hp => cases hl

end Step

/-! ## Runs -/

section Runs
variable {ι : Type} [DecidableEq ι] (cfg : AppConfig) (decode : String → Option Jwt)
  (json : Messages.Json) (calls : ι → ServerCall) (hub : Hub)

/-- Why a user may hear of an event, in a run that has come to `P`: he has been in the room, or he
is in one in which the user whose presence it tells has been. -/
inductive MayHear (P : Pool Hub ServerPc ι) : ServerEvent → String → Prop
  | attended {event v} : event.ofRoom = true →
      Met (server cfg decode json) Discipline.free calls
        ((server cfg decode json).initial calls hub)
        (fun R => Attends R.shared.world.db event.about v) P → MayHear P event v
  | near {u status v r} : v ≠ u → v ∈ getActiveMemberIds P.shared.world.db r →
      Met (server cfg decode json) Discipline.free calls
        ((server cfg decode json).initial calls hub)
        (fun R => u ∈ getActiveMemberIds R.shared.world.db r) P → MayHear P (.presence u status) v

variable {cfg decode json calls hub} {P : Pool Hub ServerPc ι} {i : ι} {c : Choice} {h' : Hub}
  {l' : ServerPc}

theorem viewsOwn_run
    (hrun : Run (server cfg decode json) Discipline.free calls
      ((server cfg decode json).initial calls hub) P) (i : ι) : ViewsOwn (P.pcs i) := by
  refine hrun.invariant (fun Q => ViewsOwn (Q.pcs i)) viewsOwn_start ?_ fun e hI => hI
  intro Q j c h' l' _ hI _ hs
  by_cases hij : i = j
  · subst hij
    simpa using viewsOwn_step hI hs
  · simpa [Function.update_of_ne hij] using hI

theorem mayHear_of_addresses
    (hrun : Run (server cfg decode json) Discipline.free calls
      ((server cfg decode json).initial calls hub) P) {event : ServerEvent} {v : String}
    (h : Addresses json P.shared (calls i) (P.pcs i) event v) :
    MayHear cfg decode json calls hub P event v := by
  cases h with
  | now hroom hin => exact .attended hroom (hrun.met hin)
  | @listed _ _ r habout hl =>
    have hroom : event.ofRoom = true := by cases event <;> first | rfl | cases habout
    refine .attended hroom ?_
    obtain ⟨R, h₁, hin, h₂⟩ := hrun.passed (p := Lists json r v)
      (φ := fun _ h _ => v ∈ getActiveMemberIds h.world.db r) (fun _ => not_lists_start)
      lists_of_step i hl
    exact ⟨R, h₁, habout ▸ attends_some hin, h₂⟩
  | @near u _ _ r roomIds ht hr hne hin =>
    refine .near hne hin ?_
    refine hrun.passed
      (p := fun _ l => ∃ roomIds, telling? l = some (u, roomIds) ∧ r ∈ roomIds)
      (φ := fun _ h _ => u ∈ getActiveMemberIds h.world.db r) ?_ ?_ i ⟨roomIds, ht, hr⟩
    · rintro j ⟨_, hstart, -⟩
      simp only [Machine.initial] at hstart
      generalize calls j = k at hstart
      rcases k with (k | k) | k <;> cases k <;> cases hstart
    · rintro c k h l h' l' hs ⟨_, ht, hr⟩
      exact .inr (.inl (telling_of_step hs ht hr))

/-- **Nobody hears of rooms he has not been in.** From a server on which nobody is connected,
whatever is in flight: what an action sends, but for the refusal of its own socket, goes to personal
rooms of users who may hear of it, and the sockets in these are theirs. -/
theorem heard_inside (hc : Cuids hub.world.db) (hnew : Fresh hub) (hone : OneHandshake calls)
    (hrun : Run (server cfg decode json) Discipline.free calls
      ((server cfg decode json).initial calls hub) P)
    (hs : (server cfg decode json).step c (calls i) P.shared (P.pcs i) = some (h', l'))
    {e : Emission} (he : e ∈ h'.emitted.drop P.shared.emitted.length) :
    (∃ id hs message, calls i = .inl (.inl (.connect id hs)) ∧
      e = ⟨[id], .error .UNAUTHORIZED message⟩) ∨
    ∃ ids : List String, e.rooms = ids.map userRoom ∧ ∀ v ∈ ids,
      MayHear cfg decode json calls hub P e.event v ∧
      ∀ s, userRoom v ∈ (P.shared.sockets s).rooms → (P.shared.sockets s).userId = some v := by
  have hS : Sealed P.shared := sealed_run hc hnew hone hrun
  have ho : OfRoom (creation json (calls i) (P.pcs i)) :=
    ofRoom_run (begins_start cfg decode json (calls i)).ofRoom hrun
  cases (emits_of_step ho (viewsOwn_run hrun i) hs).new he with
  | refusal hk => exact .inl ⟨_, _, _, hk, rfl⟩
  | @users ids event hall =>
    exact .inr ⟨ids, rfl, fun v hv => ⟨mayHear_of_addresses hrun (hall v hv), fun s => hS s v⟩⟩

end Runs

/-! ### `b` comes online -/

/-- `a`, who shares a room with `b`, hears of it. -/
theorem heard_inside_ab : ∃ (P : Pool Hub ServerPc Part) (h' : Hub) (l' : ServerPc),
    Run serverAB Discipline.free leaveAndWrite (serverAB.initial leaveAndWrite hubTokens) P ∧
    serverAB.step {} (leaveAndWrite .connectB) P.shared (P.pcs .connectB) = some (h', l') ∧
    (∃ e ∈ h'.emitted.drop P.shared.emitted.length, e = ⟨["user:a"], .presence "b" .online⟩) ∧
    ∃ ids : List String, ["user:a"] = ids.map userRoom ∧ ∀ v ∈ ids,
      MayHear {} (fun u => some (tokenAccess u)) Messages.noJson leaveAndWrite hubTokens P
        (.presence "b" .online) v ∧
      ∀ s, userRoom v ∈ (P.shared.sockets s).rooms → (P.shared.sockets s).userId = some v := by
  have hexec : (serverAB.exec always leaveAndWrite (serverAB.initial leaveAndWrite hubTokens)
      (steps .connectA 10 ++ steps .connectB 9)).any (fun P =>
        (serverAB.step {} (leaveAndWrite .connectB) P.shared (P.pcs .connectB)).any fun r =>
          (r.1.emitted.drop P.shared.emitted.length).contains
            ⟨["user:a"], .presence "b" .online⟩) = true := by decide
  obtain ⟨P, hrun, hP⟩ := Machine.exec_reaches_free hexec
  obtain ⟨⟨h', l'⟩, hs, hhears⟩ := (Option.any_eq_true _ _).1 hP
  have he := List.contains_iff_mem.1 hhears
  refine ⟨P, h', l', hrun, hs, ⟨_, he, rfl⟩, ?_⟩
  rcases heard_inside ⟨by decide, by decide⟩ (fun _ => ⟨rfl, rfl⟩) leaveAndWrite_oneHandshake hrun
    hs he with ⟨_, _, _, -, hrefused⟩ | hheard
  · cases hrefused
  · exact hheard

end Intaktok.Realtime
