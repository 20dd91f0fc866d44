import Intaktok.Realtime.Frames
/-
# The messages the server creates, and who announces them

Messages are created by the route and the event of that name and by the rooms of their own accord.
`creation` reads off where such a process is; an action of the server is one of a creation, or
sends no `message:new` and leaves of the messages what an unsend leaves (`creates_of_step`).
-/

namespace Intaktok.Realtime

open Interleave Tables
open Messages (CreateMessageParams CreatePc CreateActs systemParams unsend)

def tailCreation (json : Messages.Json) : Rooms.Pc → Option (CreateMessageParams × CreatePc)
  | .tail r (.system actorId payload) _ (.system pc) _ =>
    some (systemParams json r actorId payload, pc)
  | _ => none

/-- What a process is creating, and how far it has come. -/
def creation (json : Messages.Json) :
    ServerCall → ServerPc → Option (CreateMessageParams × CreatePc)
  | .inl (.inr (.messageSend _ body)), .inl (.inr (.send (.createMessage userId pc))) =>
    some ((body.getD {}).params userId, pc)
  | .inr ⟨.messages, .createMessage p⟩, .inr ⟨.messages, .create pc⟩ => some (p, pc)
  | .inr ⟨.rooms, _⟩, .inr ⟨.rooms, pc⟩ => tailCreation json pc
  | .inr ⟨.roomUpdates, _⟩, .inr ⟨.roomUpdates, .after pc⟩ => tailCreation json pc
  | _, _ => none

/-- The creation, if there is one, is about to start. -/
def Begins (q : Option (CreateMessageParams × CreatePc)) : Prop :=
  ∀ p pc, q = some (p, pc) →
    ∃ p', pc = Messages.createStart p' ∧ (p.isSystem = true ∨ p' = p)

theorem begins_tail {json : Messages.Json} {pc : Rooms.Pc} (h : pc.Begins) :
    Begins (tailCreation json pc) := by
  intro p q hq
  unfold tailCreation at hq
  split at hq
  · cases hq
    obtain ⟨p', hp'⟩ := h _ rfl
    exact ⟨p', hp', .inl rfl⟩
  · cases hq

theorem systemParams_of_tail {json : Messages.Json} {q : Rooms.Pc} {p : CreateMessageParams}
    {pc : CreatePc} (hq : tailCreation json q = some (p, pc)) :
    ∃ r actorId payload, p = systemParams json r actorId payload := by
  unfold tailCreation at hq
  split at hq <;> cases hq
  exact ⟨_, _, _, rfl⟩

/-- Requests of clients do not ask for system messages of their own. -/
theorem systemParams_of_creation {json : Messages.Json} {k : ServerCall} {l : ServerPc}
    {p : CreateMessageParams} {pc : CreatePc}
    (hclient : ∀ p, k = .inr ⟨.messages, .createMessage p⟩ → p.isSystem = false)
    (hk : creation json k l = some (p, pc)) (hs : p.isSystem = true) :
    ∃ r actorId payload, p = systemParams json r actorId payload := by
  unfold creation at hk
  split at hk
  · cases hk; cases hs
  · cases hk
    rw [hclient _ rfl] at hs
    cases hs
  · exact systemParams_of_tail hk
  · exact systemParams_of_tail hk
  · cases hk

/-- Any other creation is that of an event of a socket, or of the route. -/
theorem client_of_creation {json : Messages.Json} {k : ServerCall} {l : ServerPc}
    {p : CreateMessageParams} {pc : CreatePc} (hk : creation json k l = some (p, pc))
    (hs : p.isSystem = false) :
    (∃ id body userId, k = .inl (.inr (.messageSend id body)) ∧
      l = .inl (.inr (.send (.createMessage userId pc))) ∧ p = (body.getD {}).params userId) ∨
    k = .inr ⟨.messages, .createMessage p⟩ ∧ l = .inr ⟨.messages, .create pc⟩ := by
  have htail : ∀ {q}, ¬ tailCreation json q = some (p, pc) := by
    intro q hq
    obtain ⟨r, actorId, payload, rfl⟩ := systemParams_of_tail hq
    cases hs
  unfold creation at hk
  split at hk
  · cases hk; exact .inl ⟨_, _, _, rfl, rfl, rfl⟩
  · cases hk; exact .inr ⟨rfl, rfl⟩
  · exact absurd hk htail
  · exact absurd hk htail
  · cases hk

/-! ## What is emitted -/

/-- No `message:new` has been sent. -/
def Silent (h h' : Hub) : Prop :=
  ∃ new, h'.emitted = h.emitted ++ new ∧ ∀ e ∈ new, ∀ message, e.event ≠ .messageNew message

theorem silent_of_eq {h h' : Hub} (he : h'.emitted = h.emitted) : Silent h h' :=
  ⟨[], by simp [he], by simp⟩

theorem silent_emit {h : Hub} {rooms : List String} {event : ServerEvent}
    (he : ∀ message, event ≠ .messageNew message) : Silent h (h.emit rooms event) :=
  ⟨[⟨rooms, event⟩], rfl, by simpa using he⟩

theorem silent_emitToUsers {h : Hub} {userIds : List String} {event : ServerEvent}
    (he : ∀ message, event ≠ .messageNew message) : Silent h (emitToUsers h userIds event) := by
  unfold emitToUsers
  split
  · exact silent_of_eq rfl
  · exact silent_emit he

theorem emitted_onEvent (h : Hub) (event : DomainEvent) : ∃ new,
    (onEvent h event).emitted = h.emitted ++ new ∧ ∀ e ∈ new, ∀ message,
      e.event = .messageNew message → ∃ ids preview title,
        event = .messageCreated message ids preview title ∧ e.rooms = ids.map userRoom := by
  have hother : ∀ {userIds : List String} {e : ServerEvent}, (∀ message, e ≠ .messageNew message) →
      ∃ new, (emitToUsers h userIds e).emitted = h.emitted ++ new ∧ ∀ e ∈ new, ∀ message,
        e.event = .messageNew message → ∃ ids preview title,
          event = .messageCreated message ids preview title ∧ e.rooms = ids.map userRoom := by
    intro userIds e he
    obtain ⟨new, hnew, hno⟩ := @silent_emitToUsers h userIds e he
    exact ⟨new, hnew, fun e he message hm => absurd hm (hno e he message)⟩
  cases event with
  | messageCreated message ids preview title =>
    simp only [onEvent, emitToUsers]
    split
    · exact ⟨[], by simp, by simp⟩
    · refine ⟨_, rfl, ?_⟩
      simp only [List.mem_singleton, forall_eq, ServerEvent.messageNew.injEq]
      rintro _ rfl
      exact ⟨ids, preview, title, rfl, rfl⟩
  | sessionRevoked u => exact ⟨[], by simp [onEvent, Hub.disconnectSockets], by simp⟩
  | _ => exact hother fun _ => ServerEvent.noConfusion

/-- The gateway sends `message:new` for a `MESSAGE_CREATED`, to the rooms of its recipients. -/
theorem emitted_deliver {events new : List DomainEvent} {h : Hub}
    (he : h.world.events = events ++ new) : ∃ es,
    (deliver events h).emitted = h.emitted ++ es ∧ ∀ e ∈ es, ∀ message,
      e.event = .messageNew message → ∃ ids preview title,
        .messageCreated message ids preview title ∈ new ∧ e.rooms = ids.map userRoom := by
  rw [deliver_of_events he]
  clear he
  induction new generalizing h with
  | nil => exact ⟨[], by simp, by simp⟩
  | cons event new ih =>
    obtain ⟨es₁, h₁, hs₁⟩ := emitted_onEvent h event
    obtain ⟨es₂, h₂, hs₂⟩ := ih (h := onEvent h event)
    refine ⟨es₁ ++ es₂, ?_, fun e he message hm => ?_⟩
    · rw [List.foldl_cons, h₂, h₁, List.append_assoc]
    rcases List.mem_append.1 he with he | he
    · obtain ⟨ids, preview, title, rfl, hr⟩ := hs₁ e he message hm
      exact ⟨ids, preview, title, List.mem_cons_self, hr⟩
    · obtain ⟨ids, preview, title, hmem, hr⟩ := hs₂ e he message hm
      exact ⟨ids, preview, title, List.mem_cons_of_mem _ hmem, hr⟩

/-- What a service has emitted announces no message. -/
def Unannounced (w w' : World) : Prop :=
  ∃ new, w'.events = w.events ++ new ∧
    ∀ message ids preview title, .messageCreated message ids preview title ∉ new

theorem unannounced_of_eq {w w' : World} (h : w'.events = w.events) : Unannounced w w' :=
  ⟨[], by simp [h], by simp⟩

theorem silent_deliver {h h₁ : Hub} (hs : Silent h h₁) (hu : Unannounced h.world h₁.world) :
    Silent h (deliver h.world.events h₁) := by
  obtain ⟨new, he, hno⟩ := hu
  obtain ⟨es₁, h₁', hs₁⟩ := hs
  obtain ⟨es₂, h₂, hs₂⟩ := emitted_deliver he
  refine ⟨es₁ ++ es₂, by rw [h₂, h₁', List.append_assoc], fun e he' message hm => ?_⟩
  rcases List.mem_append.1 he' with he' | he'
  · exact hs₁ e he' message hm
  · obtain ⟨ids, preview, title, hmem, -⟩ := hs₂ e he' message hm
    exact hno message ids preview title hmem

/-! ## Sockets send no messages -/

theorem silent_reject (h : Hub) (id : String) (message : Option String) :
    Silent h (reject h id message) :=
  @silent_emit h [id] _ fun _ => ServerEvent.noConfusion

theorem silent_connectStep {cfg : AppConfig} {decode : String → Option Jwt} {id : String}
    {hs : Handshake} {h h' : Hub} {pc pc' : ConnectPc}
    (hstep : connectStep cfg decode id hs h pc = some (h', pc')) : Silent h h' := by
  cases pc <;> simp only [connectStep] at hstep
  case verify =>
    split at hstep
    · cases hstep; exact silent_reject ..
    · split at hstep
      · cases hstep; exact silent_reject ..
      · split at hstep <;> cases hstep
        · exact silent_of_eq rfl
        · exact silent_reject ..
  case user sub =>
    split at hstep <;> cases hstep
    · exact silent_of_eq rfl
    · exact silent_reject ..
  case joinUser u => cases hstep; exact silent_of_eq rfl
  case memberships u => split at hstep <;> cases hstep <;> exact silent_of_eq rfl
  case joinRooms u roomIds => cases hstep; exact silent_of_eq rfl
  case presence u pc =>
    obtain ⟨⟨world, pc₁⟩, -, he⟩ := Option.map_eq_some_iff.1 hstep
    simp only at he
    split at he <;> cases he
    · exact silent_of_eq rfl
    · exact silent_reject { h with world } id none
    · exact silent_of_eq rfl
  case myRooms u => split at hstep <;> cases hstep <;> exact silent_of_eq rfl
  case coMembers u roomIds => cases hstep; exact silent_emitToUsers fun _ => ServerEvent.noConfusion
  case accepted u => cases hstep
  case rejected u => cases hstep

theorem silent_disconnectStep {id : String} {h h' : Hub} {pc pc' : DisconnectPc}
    (hs : disconnectStep id h pc = some (h', pc')) :
    Silent h h' ∧ h'.world.events = h.world.events := by
  cases pc <;> simp only [disconnectStep] at hs
  case left => cases hs; exact ⟨silent_of_eq rfl, rfl⟩
  case presence userId pc =>
    obtain ⟨⟨w, pc₁⟩, hp, he⟩ := Option.map_eq_some_iff.1 hs
    cases he
    obtain ⟨redis, lastSeenAt, rfl⟩ := Presence.removeStep_world hp
    exact ⟨silent_of_eq rfl, rfl⟩
  case myRooms userId => split at hs <;> cases hs <;> exact ⟨silent_of_eq rfl, rfl⟩
  case coMembers userId roomIds =>
    cases hs
    refine ⟨silent_emitToUsers fun _ => ServerEvent.noConfusion, ?_⟩
    unfold emitToUsers
    split <;> rfl
  case done => cases hs

/-! ## One action of the server -/

/-- Of the messages an action has left what it found, or what an unsend leaves of that. -/
def Recedes (w w' : World) : Prop :=
  ∀ x ∈ w'.db.messages.rows, ∃ y ∈ w.db.messages.rows, x = y ∨ ∃ d, x = unsend d y

theorem recedes_of_eq {w w' : World} (h : w'.db.messages = w.db.messages) : Recedes w w' :=
  fun x hx => ⟨x, h ▸ hx, .inl rfl⟩

/-- A read position moves, and no message does. -/
theorem unannounced_readStep {roomId userId : Messages.WhereString} {n : Messages.JsNumber}
    {w w' : World} {pc pc' : Messages.ReadPc}
    (h : Messages.readStep roomId userId n w pc = some (w', pc')) :
    Unannounced w w' ∧ Recedes w w' := by
  obtain ⟨⟨_, hdb⟩, -⟩ := Messages.readStep_db h
  refine ⟨?_, recedes_of_eq (by rw [hdb])⟩
  rcases Messages.readStep_events h with he | ⟨_, _, _, _, he⟩
  · exact unannounced_of_eq he
  · exact ⟨_, he, by simp⟩

theorem unannounced_deleteStep {cfg : AppConfig} {roomId messageId requesterId : String}
    {w w' : World} {pc pc' : Messages.DeletePc}
    (h : Messages.deleteStep cfg roomId messageId requesterId w pc = some (w', pc')) :
    Unannounced w w' ∧ Recedes w w' := by
  obtain ⟨hev, hrows⟩ := Messages.deleteStep_events h
  refine ⟨?_, hrows⟩
  rcases hev with he | ⟨_, _, _, he⟩
  · exact unannounced_of_eq he
  · exact ⟨_, he, by simp⟩

/-- What an action of the server is: one of a creation, or one that sends no `message:new` and
inserts no message. -/
inductive Creates (json : Messages.Json) (c : Choice) (h : Hub) (k : ServerCall) (l : ServerPc) :
    Hub → ServerPc → Prop
  | creates {p pc w' pc' l'} : creation json k l = some (p, pc) →
      CreateActs json c p h.world pc w' pc' →
      (creation json k l' = some (p, pc') ∨ Begins (creation json k l')) →
      Creates json c h k l (deliver h.world.events { h with world := w' }) l'
  | other {h' l'} : Silent h h' → Recedes h.world h'.world → Begins (creation json k l') →
      Creates json c h k l h' l'

section Step
variable {cfg : AppConfig} {decode : String → Option Jwt} {json : Messages.Json} {c : Choice}
  {h h' : Hub}

theorem begins_none : Begins none := fun _ _ hq => nomatch hq

/-- A service that announces nothing. -/
theorem Creates.quiet {k : ServerCall} {l l' : ServerPc} {w : World} (hu : Unannounced h.world w)
    (hr : Recedes h.world w) (hb : Begins (creation json k l')) :
    Creates json c h k l (deliver h.world.events { h with world := w }) l' :=
  .other (silent_deliver (@silent_of_eq h { h with world := w } rfl) hu)
    (by rw [world_deliver]; exact hr) hb

theorem creates_tail {k : ServerCall} {l l' : ServerPc} {w : World} {pc pc' : Rooms.Pc}
    (ht : Rooms.TailCreates json c h.world pc w pc')
    (hl : creation json k l = tailCreation json pc)
    (hl' : creation json k l' = tailCreation json pc') :
    Creates json c h k l (deliver h.world.events { h with world := w }) l' := by
  cases ht with
  | @creates r actorId payload todo result q w' q' hacts =>
    refine .creates (hl.trans rfl) hacts ?_
    rw [hl']
    cases q' with
    | done x =>
      cases x with
      | ok res => exact .inr (begins_tail Rooms.begins_proceed)
      | error e => exact .inr begins_none
    | _ => exact .inl rfl
  | other hb hm he =>
    refine .quiet ?_ (recedes_of_eq hm) (hl' ▸ begins_tail hb)
    rcases he with he | ⟨r, ids, room, event, he⟩
    · exact unannounced_of_eq he
    · refine ⟨_, he, ?_⟩
      cases event <;> simp [Rooms.Lifecycle.event]

theorem creates_service {s : Service} {call : s.Call} {pc pc' : s.Pc} {w : World}
    (hs : (s.machine cfg json).step c call h.world pc = some (w, pc')) :
    Creates json c h (.inr ⟨s, call⟩) (.inr ⟨s, pc⟩)
      (deliver h.world.events { h with world := w }) (.inr ⟨s, pc'⟩) := by
  cases s with
  | auth =>
    obtain ⟨_, _, _, _, _, rfl⟩ := Auth.step_db hs
    exact .quiet (unannounced_of_eq rfl) (recedes_of_eq rfl) begins_none
  | admin =>
    obtain ⟨⟨_, _, hdb⟩, -⟩ := Admin.step_db hs
    refine .quiet ?_ (recedes_of_eq (by rw [hdb])) begins_none
    rcases @Admin.step_events c call h.world w pc pc' hs with ⟨he, -⟩ | ⟨_, u, _, -, -, he⟩
    · exact unannounced_of_eq he
    · exact ⟨_, he, by simp⟩
  | whitelist =>
    obtain ⟨_, _, rfl⟩ := Admin.entryStep_db hs
    exact .quiet (unannounced_of_eq rfl) (recedes_of_eq rfl) begins_none
  | messages =>
    cases Messages.acts_of_step hs with
    | create hcreate => exact .creates rfl (Messages.acts_of_createStep hcreate) (.inl rfl)
    | read hread =>
      obtain ⟨hu, hr⟩ := unannounced_readStep hread
      exact .quiet hu hr begins_none
    | delete hdelete =>
      obtain ⟨hu, hr⟩ := unannounced_deleteStep hdelete
      exact .quiet hu hr begins_none
  | rooms => exact creates_tail (Rooms.step_creates hs) rfl rfl
  | roomUpdates =>
    cases call with
    | updateRoom roomId actorId dto =>
      rcases @Rooms.updateStep_creates json c roomId actorId dto h.world w pc pc' hs with
        ⟨q, q', rfl, rfl, ht⟩ | ⟨hb, hm, he⟩
      · exact creates_tail ht rfl rfl
      · refine .quiet (unannounced_of_eq he) (recedes_of_eq hm) ?_
        cases pc' with
        | after q => exact begins_tail (hb q rfl)
        | _ => exact begins_none
  | push =>
    obtain ⟨_, _, rfl⟩ := Push.step_db hs
    exact .quiet (unannounced_of_eq rfl) (recedes_of_eq rfl) begins_none
  | media =>
    obtain ⟨_, _, rfl⟩ := MediaService.step_db hs
    exact .quiet (unannounced_of_eq rfl) (recedes_of_eq rfl) begins_none
  | profile =>
    obtain ⟨_, rfl⟩ := ProfileService.step_db hs
    exact .quiet (unannounced_of_eq rfl) (recedes_of_eq rfl) begins_none

theorem begins_createStart (p : CreateMessageParams) :
    Begins (some (p, Messages.createStart p)) := by
  rintro _ _ ⟨⟩
  exact ⟨p, rfl, .inr rfl⟩

/-- `onSend` is a creation once it has its payload. -/
theorem creates_send {id : String} {body : Option SendPayload} {pc pc' : SendPc}
    (hacts : SendActs json c id body h pc h' pc') :
    Creates json c h (.inl (.inr (.messageSend id body))) (.inl (.inr (.send pc)))
      (deliver h.world.events h') (.inl (.inr (.send pc'))) := by
  cases hacts with
  | refused _ | thrown => exact .quiet (unannounced_of_eq rfl) (recedes_of_eq rfl) begins_none
  | received hb =>
    subst hb
    exact .quiet (unannounced_of_eq rfl) (recedes_of_eq rfl) (begins_createStart _)
  | @create _ _ _ pc₁ hcreate =>
    refine .creates rfl (Messages.acts_of_createStep hcreate) ?_
    cases pc₁ with
    | done x => exact .inr (by cases x <;> exact begins_none)
    | _ => exact .inl rfl

theorem creates_unsend {id : String} {body : Option DeletePayload} {pc pc' : DeletePc}
    (hacts : DeleteActs cfg id body h pc h' pc') :
    Creates json c h (.inl (.inr (.messageDelete id body))) (.inl (.inr (.delete pc)))
      (deliver h.world.events h') (.inl (.inr (.delete pc'))) := by
  cases hacts with
  | delete _ hdelete =>
    obtain ⟨hu, hr⟩ := unannounced_deleteStep hdelete
    exact .quiet hu hr begins_none
  | _ => exact .quiet (unannounced_of_eq rfl) (recedes_of_eq rfl) begins_none

/-- An event of a socket. -/
theorem creates_event {call : EventCall} {pc pc' : EventPc} {h₁ : Hub}
    (hs : eventStep cfg json c call h pc = some (h₁, pc')) :
    Creates json c h (.inl (.inr call)) (.inl (.inr pc)) (deliver h.world.events h₁)
      (.inl (.inr pc')) := by
  cases acts_of_event hs with
  | send hacts => exact creates_send hacts
  | delete hacts => exact creates_unsend hacts
  | @join id roomId pc _ _ hjoin =>
    have hh : h₁.world = h.world ∧ h₁.emitted = h.emitted := by
      cases pc with
      | received => cases hjoin; exact ⟨rfl, rfl⟩
      | member userId => cases hjoin; exact ⟨rfl, rfl⟩
      | join roomId => cases hjoin; exact ⟨rfl, rfl⟩
      | done ack => cases hjoin
    refine .other (silent_deliver (silent_of_eq hh.2) (unannounced_of_eq (by rw [hh.1])))
      (recedes_of_eq ?_) begins_none
    rw [world_deliver, hh.1]
  | leave hleave =>
    obtain ⟨hsilent, hev⟩ := silent_disconnectStep hleave
    obtain ⟨-, ⟨lastSeenAt, hdb⟩, -⟩ := disconnectStep_world hleave
    refine .other (silent_deliver hsilent (unannounced_of_eq hev)) (recedes_of_eq ?_) begins_none
    rw [world_deliver, hdb]

/-- A handshake, or `message:read`. -/
theorem creates_socket {call : Call} {pc pc' : Pc} {h₁ : Hub}
    (hs : step cfg decode call h pc = some (h₁, pc')) :
    Creates json c h (.inl (.inl call)) (.inl (.inl pc)) (deliver h.world.events h₁)
      (.inl (.inl pc')) := by
  cases acts_of_socket hs with
  | connect hconnect =>
    obtain ⟨hdb, hev, -⟩ := connectStep_world hconnect
    refine .other (silent_deliver (silent_connectStep hconnect) (unannounced_of_eq hev))
      (recedes_of_eq ?_) begins_none
    rw [world_deliver, hdb]
  | read hread =>
    rcases onReadStep_cases hread with rfl | ⟨_, _, _, _, w, _, hmark, rfl⟩
    · exact .quiet (unannounced_of_eq rfl) (recedes_of_eq rfl) begins_none
    · obtain ⟨hu, hr⟩ := unannounced_readStep hmark
      exact .quiet hu hr begins_none

/-- Every action of the server is one of a creation, or none. -/
theorem creates_of_step {k : ServerCall} {l l' : ServerPc}
    (hs : (server cfg decode json).step c k h l = some (h', l')) : Creates json c h k l h' l' := by
  obtain ⟨h₁, hacts, rfl⟩ := server_step hs
  cases hacts with
  | socket hsocket => exact creates_socket hsocket
  | event hevent => exact creates_event hevent
  | service hservice => exact creates_service hservice

/-- An action continues the creation its process is at, or leaves it with none but one that is
about to start. -/
theorem creation_step {k : ServerCall} {l l' : ServerPc}
    (hs : (server cfg decode json).step c k h l = some (h', l')) :
    Begins (creation json k l') ∨ ∃ p pc w' pc', creation json k l = some (p, pc) ∧
      CreateActs json c p h.world pc w' pc' ∧ creation json k l' = some (p, pc') := by
  cases creates_of_step hs with
  | other _ _ hb => exact .inl hb
  | creates hk hacts hl' =>
    rcases hl' with hl' | hb
    · exact .inr ⟨_, _, _, _, hk, hacts, hl'⟩
    · exact .inl hb

/-- A creation announces its message when it knows the members. -/
theorem announces_of_acts {p : CreateMessageParams} {w w' : World} {pc pc' : CreatePc}
    (hacts : CreateActs json c p w pc w' pc') : w'.events = w.events ∨
      ∃ dto got got' ids preview title, pc = .fetch dto got ∧
        Messages.fetchNext c p w.db got = some got' ∧ got'.memberUserIds = some ids ∧
        w'.events = w.events ++ [.messageCreated dto ids preview title] := by
  cases hacts.effect with
  | announced hf hids => exact .inr ⟨_, _, _, _, _, _, rfl, hf, hids, rfl⟩
  | _ => exact .inl rfl

/-- `message:new` is sent by a creation that knows the members, to them. -/
theorem announcement {k : ServerCall} {l l' : ServerPc}
    (hs : (server cfg decode json).step c k h l = some (h', l')) {e : Emission}
    (he : e ∈ h'.emitted.drop h.emitted.length) {message : SerializedMessage}
    (hm : e.event = .messageNew message) : ∃ p got got' ids,
      creation json k l = some (p, .fetch message got) ∧
      Messages.fetchNext c p h.world.db got = some got' ∧ got'.memberUserIds = some ids ∧
      e.rooms = ids.map userRoom := by
  cases creates_of_step hs with
  | other hsilent =>
    obtain ⟨new, hnew, hno⟩ := hsilent
    rw [hnew, List.drop_left] at he
    exact absurd hm (hno e he message)
  | @creates p pc w' pc' _ hcreation hacts =>
    rcases announces_of_acts hacts with
      hev | ⟨dto, got, got', ids, preview, title, rfl, hf, hids, hev⟩
    · rw [deliver_same (h := { h with world := w' }) hev] at he
      simp at he
    · obtain ⟨es, hes, hnew⟩ := emitted_deliver (h := { h with world := w' }) hev
      rw [hes, List.drop_left] at he
      obtain ⟨ids', preview', title', hmem, hrooms⟩ := hnew e he message hm
      cases List.mem_singleton.1 hmem
      exact ⟨p, got, got', ids, hcreation, hf, hids, hrooms⟩

end Step

/-- No process starts in the middle of a creation. -/
theorem begins_start (cfg : AppConfig) (decode : String → Option Jwt) (json : Messages.Json)
    (k : ServerCall) : Begins (creation json k ((server cfg decode json).start k)) := by
  rcases k with (call | call) | ⟨s, call⟩
  · exact begins_none
  · cases call <;> exact begins_none
  · cases s with
    | messages =>
      cases call with
      | createMessage p => exact begins_createStart _
      | _ => exact begins_none
    | rooms =>
      cases call with
      | createRoom creatorId dto =>
        show Begins (tailCreation json (Rooms.createStart creatorId dto))
        rcases Rooms.createStart_cases creatorId dto with h | ⟨e, h⟩ <;> rw [h] <;>
          exact begins_none
      | _ => exact begins_none
    | _ => exact begins_none

end Intaktok.Realtime
