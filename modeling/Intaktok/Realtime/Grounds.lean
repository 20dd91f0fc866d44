import Intaktok.Realtime.MessageLog
import Intaktok.Realtime.MediaProvenance
import Intaktok.Realtime.Handshakes
import Intaktok.Rooms.Notices
/-
# What a message rests on

`createMessage` asks whether the sender is a member, whether the payload is one, whose the object
is and where the reply goes (`messages.service.ts:106`), and takes its number and inserts the row
in actions of their own later. Of the membership there is only a finding left by then, for the
sender may have gone; the other answers stay true. So every message of a client is `Grounded`
(`message_grounds`). An event of a socket that is nobody's does not get that far (`nobody_run`).
-/

namespace Intaktok.Realtime

open Interleave Tables
open Messages (CreateMessageParams CreatePc CreateActs Json getActiveMemberIds validatePayload)

/-- The message is there, in the room. -/
def Targeted (db : Db) (roomId messageId : String) : Prop :=
  ∃ x ∈ db.messages.rows, x.id = messageId ∧ x.roomId = roomId

theorem Targeted.kept {db db' : Db} {roomId messageId : String} (hext : Extends db db')
    (h : Targeted db roomId messageId) : Targeted db' roomId messageId := by
  obtain ⟨x, hx, hid, hr⟩ := h
  obtain ⟨y, hy, hxy⟩ := hext.there hx
  refine ⟨y, hy, ?_⟩
  cases hxy <;> exact ⟨hid, hr⟩

theorem targeted_of_assertReplyTarget {db : Db} {roomId messageId : String}
    (h : Messages.assertReplyTarget db roomId messageId = none) :
    Targeted db roomId messageId := by
  obtain ⟨_, hx, hid, hr⟩ := Messages.reply_target h
  obtain ⟨m, hm, rfl⟩ := List.mem_map.1 hx
  exact ⟨m, hm, hid, hr⟩

/-! ## What a creation has found out -/

/-- The reply target has been looked at, or is about to be. -/
def ReplyChecked (db : Db) (p : CreateMessageParams) : CreatePc → Prop
  | .reply t => truthy p.replyToId = some t
  | .seqExists _ | .seqMax _ | .seqSetNx _ _ | .seqIncr _ | .insert _ _ | .resyncMax _
  | .resyncSet _ _ => ∀ t, truthy p.replyToId = some t → Targeted db p.roomId t
  | _ => True

/-- How far a creation of a client has got with its checks. -/
structure Prepared (db : Db) (p : CreateMessageParams) (pc : CreatePc) : Prop where
  payload : unvalidated pc = false → validatePayload p.type p.content p.mediaId = none
  reply : ReplyChecked db p pc

theorem ReplyChecked.kept {db db' : Db} {p : CreateMessageParams} {pc : CreatePc}
    (hext : Extends db db') (h : ReplyChecked db p pc) : ReplyChecked db' p pc := by
  cases pc with
  | seqExists | seqMax | seqSetNx | seqIncr | insert | resyncMax | resyncSet =>
    exact fun t ht => (h t ht).kept hext
  | _ => exact h

theorem Prepared.unvalidated {db : Db} {p : CreateMessageParams} {pc : CreatePc}
    (h : Realtime.unvalidated pc = true) : Prepared db p pc where
  payload hno := by rw [h] at hno; cases hno
  reply := by
    cases pc with
    | lookup | member | done => trivial
    | _ => cases h

theorem prepared_afterLookup {db : Db} {p p' : CreateMessageParams} (hp : p.isSystem = false) :
    Prepared db p' (Messages.afterLookup p) := by
  refine .unvalidated ?_
  rw [Messages.afterLookup, hp]
  rfl

theorem prepared_afterMedia {db : Db} {p : CreateMessageParams}
    (hv : validatePayload p.type p.content p.mediaId = none) :
    Prepared db p (Messages.afterMedia p) := by
  refine ⟨fun _ => hv, ?_⟩
  unfold Messages.afterMedia
  split
  · rename_i ht; exact ht
  · rename_i ht
    intro t ht'
    rw [ht] at ht'
    cases ht'

theorem prepared_of_begins {db : Db} {q : Option (CreateMessageParams × CreatePc)}
    (hb : Begins q) {p : CreateMessageParams} {pc : CreatePc} (hq : q = some (p, pc)) :
    p.isSystem = true ∨ Prepared db p pc := by
  obtain ⟨p', rfl, hs | rfl⟩ := hb p pc hq
  · exact .inl hs
  by_cases hs : p'.isSystem = true
  · exact .inl hs
  refine .inr ?_
  rcases Messages.createStart_cases p' with h | ⟨k, h⟩ <;> rw [h]
  · exact prepared_afterLookup (by simpa using hs)
  · exact .unvalidated rfl

section Step
variable {cfg : AppConfig} {decode : String → Option Jwt} {json : Json} {c : Choice} {h h' : Hub}

theorem extends_of_step {k : ServerCall} {l l' : ServerPc}
    (hs : (server cfg decode json).step c k h l = some (h', l')) :
    Extends h.world.db h'.world.db := (alters_of_step hs).extends

/-- A creation that goes on has passed its checks, one after the other. -/
theorem prepared_of_acts {p : CreateMessageParams} {w w' : World} {pc pc' : CreatePc}
    (hacts : CreateActs json c p w pc w' pc') (hp : p.isSystem = false)
    (hpre : Prepared w.db p pc) : Prepared w.db p pc' := by
  have along : ∀ {pc'}, Realtime.unvalidated pc = false → ReplyChecked w.db p pc' →
      Prepared w.db p pc' := fun hpc hr => ⟨fun _ => hpre.payload hpc, hr⟩
  cases hacts with
  | missed => exact prepared_afterLookup hp
  | member =>
    unfold Messages.afterMember
    split
    · exact .unvalidated rfl
    · rename_i hv _; exact ⟨fun _ => hv, trivial⟩
    · rename_i hv _; exact prepared_afterMedia hv
  | owned => exact prepared_afterMedia (hpre.payload rfl)
  | target ht =>
    refine along rfl fun t ht' => ?_
    obtain rfl : _ = t := Option.some.inj (hpre.reply.symm.trans ht')
    exact targeted_of_assertReplyTarget ht
  | counter | noCounter | seqMax | setNx | incr | resyncMax | seqTaken =>
    exact along rfl hpre.reply
  | resyncSet =>
    split
    · exact along rfl hpre.reply
    · exact .unvalidated rfl
  | inserted | keyTaken | roomUpdate => exact along rfl trivial
  | @fetch dto got got' =>
    rcases Messages.emitCreated_cases json dto got' w with ⟨h, -⟩ | ⟨_, _, _, h⟩ | h <;> rw [h]
    · exact along rfl trivial
    · exact .unvalidated rfl
    · exact .unvalidated rfl
  | _ => exact .unvalidated rfl

/-! ## Membership -/

/-- A client's creation for `u` in the room has got past the member check. -/
def Admitted (json : Json) (roomId u : String) (k : ServerCall) (l : ServerPc) : Prop :=
  ∃ p pc, creation json k l = some (p, pc) ∧ p.isSystem = false ∧ p.roomId = roomId ∧
    p.senderId = u ∧ unvalidated pc = false

/-- The member check of a creation for `u` in the room finds him there. -/
def Enters (json : Json) (roomId u : String) (k : ServerCall) (h : Hub) (l : ServerPc) : Prop :=
  u ∈ getActiveMemberIds h.world.db roomId ∧
    ∃ p, creation json k l = some (p, .member) ∧ p.roomId = roomId ∧ p.senderId = u

theorem not_admitted_of_begins {k : ServerCall} {l : ServerPc} {roomId u : String}
    (hb : Begins (creation json k l)) : ¬ Admitted json roomId u k l := by
  rintro ⟨p, pc, hk, hsys, -, -, hpc⟩
  obtain ⟨p', rfl, hs | rfl⟩ := hb p pc hk
  · rw [hs] at hsys
    cases hsys
  · rw [unvalidated_createStart hsys] at hpc
    cases hpc

/-- The member check is passed by members. -/
theorem admitted_of_step {k : ServerCall} {l l' : ServerPc} {roomId u : String}
    (hs : (server cfg decode json).step c k h l = some (h', l'))
    (ha : Admitted json roomId u k l') :
    Admitted json roomId u k l ∨ Enters json roomId u k h l := by
  rcases creation_step hs with hb | ⟨p, pc₀, w', pc₁, hk, hacts, hk'⟩
  · exact absurd ha (not_admitted_of_begins hb)
  obtain ⟨_, _, hk'', hsys, rfl, rfl, hpc⟩ := ha
  obtain ⟨rfl, rfl⟩ := Prod.mk.inj (Option.some.inj (hk'.symm.trans hk''))
  cases h₀ : unvalidated pc₀ with
  | false => exact .inl ⟨p, pc₀, hk, hsys, rfl, rfl, h₀⟩
  | true =>
    cases hacts with
    | missed =>
      rw [Messages.afterLookup, hsys] at hpc
      cases hpc
    | member hm =>
      exact .inr ⟨member_of_assertActiveMember hm, p, hk, rfl, rfl⟩
    | found | notMember => cases hpc
    | _ => cases h₀

/-- Nobody's creation comes past the member check: the query throws. -/
theorem known_of_step {id : String} {body : Option SendPayload} {l : ServerPc} {pc' : CreatePc}
    (hs : (server cfg decode json).step c (.inl (.inr (.messageSend id body))) h l =
      some (h', .inl (.inr (.send (.createMessage none pc')))))
    (hpc : unvalidated pc' = false) :
    ∃ pc, l = .inl (.inr (.send (.createMessage none pc))) ∧ unvalidated pc = false := by
  obtain ⟨h₁, hacts, -⟩ := server_step hs
  cases hacts with
  | @event _ pc₁ _ _ hevent =>
    cases pc₁ with
    | send pc =>
      obtain ⟨⟨_, pc₂⟩, hsend, he⟩ := Option.map_eq_some_iff.1 hevent
      cases he
      cases pc with
      | received =>
        simp only [onSendStep] at hsend
        obtain ⟨-, hsend⟩ := Prod.mk.inj (Option.some.inj hsend)
        split at hsend
        · cases hsend
        · obtain ⟨-, rfl⟩ := SendPc.createMessage.inj hsend
          rw [unvalidated_createStart rfl] at hpc
          cases hpc
      | createMessage userId pc =>
        simp only [onSendStep] at hsend
        split at hsend
        · cases hsend
        · rename_i hthrows
          obtain ⟨⟨w, pc₃⟩, hcreate, he⟩ := Option.map_eq_some_iff.1 hsend
          obtain ⟨-, he⟩ := Prod.mk.inj he
          unfold sendReturns at he
          split at he <;> cases he
          refine ⟨pc, rfl, ?_⟩
          cases h₀ : unvalidated pc with
          | false => rfl
          | true =>
            cases Messages.acts_of_createStep hcreate with
            | missed =>
              rw [Messages.afterLookup] at hpc
              cases hpc
            | member =>
              simp only [SendPayload.throws, Option.isNone_none, Bool.or_true, if_true] at hthrows
              cases hthrows
            | found | notMember => cases hpc
            | _ => cases h₀
      | done => cases hsend
    | _ => cases hevent

end Step

/-! ## Runs -/

/-- Every creation of a client has checked what it has come past. -/
def preparing (json : Json) : Outline Hub ServerCall ServerPc where
  glob _ := True
  own k h l := ∀ p pc, creation json k l = some (p, pc) →
    p.isSystem = true ∨ Prepared h.world.db p pc
  apart _ _ _ _ := True

theorem preparing_valid {cfg : AppConfig} {decode : String → Option Jwt} {json : Json}
    {D : Discipline Hub ServerCall ServerPc} :
    (preparing json).Valid (server cfg decode json) D Outline.top where
  move {c k h l h' l'} a := by
    have hext := extends_of_step a.step
    refine ⟨trivial, fun p pc hp => ?_⟩
    rcases creation_step a.step with hb | ⟨p', pc₀, w', pc₁, hk, hacts, hk'⟩
    · exact prepared_of_begins hb hp
    obtain ⟨rfl, rfl⟩ := Prod.mk.inj (Option.some.inj (hk'.symm.trans hp))
    cases hsys : p'.isSystem with
    | true => exact .inl rfl
    | false =>
      have hpre := (a.own p' pc₀ hk).resolve_left (by rw [hsys]; exact Bool.false_ne_true)
      have hpre' := prepared_of_acts hacts hsys hpre
      exact .inr ⟨hpre'.payload, hpre'.reply.kept hext⟩
  keep a b := by
    have hext := extends_of_step a.step
    exact ⟨fun p pc hp => (b.own p pc hp).imp_right fun h => ⟨h.payload, h.reply.kept hext⟩,
      trivial⟩
  symm _ := trivial
  env e {h} _ := by
    refine ⟨trivial, fun {k l} ho p pc hp => ?_⟩
    have hdb : ((server cfg decode json).env e h).world.db = h.world.db := db_env cfg e h
    rw [hdb]
    exact ho p pc hp

section Runs
variable {ι : Type} [DecidableEq ι] (cfg : AppConfig) (decode : String → Option Jwt) (json : Json)
  (calls : ι → ServerCall)

/-- `i` is the route's call for `p`, or an event that came in from a socket of its sender. -/
inductive Requests (P R : Pool Hub ServerPc ι) (i : ι) (p : CreateMessageParams) : Prop
  | route : calls i = .inr ⟨.messages, .createMessage p⟩ → Requests P R i p
  | event {id body u} : calls i = .inl (.inr (.messageSend id body)) →
      p = (body.getD {}).params (some u) →
      Acted (server cfg decode json) Discipline.free calls P i (Incoming i id (some u)) R →
      Requests P R i p

/-- The request that is about to store the message `y`, as it is or was before it was unsent. -/
structure Asks (P : Pool Hub ServerPc ι) (y : Message) (R : Pool Hub ServerPc ι) (i : ι) :
    Prop where
  /-- It has found the sender among the members. -/
  found : Acted (server cfg decode json) Discipline.free calls P i
    (fun S => Enters json y.roomId y.senderId (calls i) S.shared (S.pcs i)) R
  insert : ∃ p a seq type now, Requests cfg decode json calls P R i p ∧
    creation json (calls i) (R.pcs i) = some (p, .insert a seq) ∧
    p.type = some type ∧ Remains (p.row type y.id seq now) y

/-- What the message `y` of the state `Q` rests on. -/
structure Grounded (P Q : Pool Hub ServerPc ι) (y : Message) : Prop where
  sender : Brought (server cfg decode json) Discipline.free calls P (Stored · y.id)
    (Asks cfg decode json calls P y) Q
  payload : y.deletedAt = none → validatePayload (some y.type) y.content y.mediaId = none
  media : ∀ m, truthy y.mediaId = some m → Uploaded Q.shared.world.db m y.senderId
  reply : ∀ t, truthy y.replyToId = some t → Targeted Q.shared.world.db y.roomId t

variable {cfg decode json calls} {hub : Hub} {P Q R : Pool Hub ServerPc ι}

theorem preparing_run
    (hrun : Run (server cfg decode json) Discipline.free calls
      ((server cfg decode json).initial calls hub) Q) : (preparing json).Holds calls Q := by
  have h0 : (preparing json).Holds calls ((server cfg decode json).initial calls hub) :=
    ⟨trivial, fun i p pc hp => prepared_of_begins (begins_start cfg decode json (calls i)) hp,
      fun _ _ _ => trivial⟩
  exact preparing_valid.run (fun _ => Outline.top_holds calls _) h0 hrun

/-- **Nobody sends.** Whatever is in flight: an event of a socket that was nobody's as it came in
never gets past the membership query. -/
theorem nobody_run {D : Discipline Hub ServerCall ServerPc}
    (hrun : Run (server cfg decode json) D calls ((server cfg decode json).initial calls hub) Q)
    {i : ι} {id : String} {body : Option SendPayload} {pc : CreatePc}
    (hcall : calls i = .inl (.inr (.messageSend id body)))
    (hpc : Q.pcs i = .inl (.inr (.send (.createMessage none pc)))) : unvalidated pc = true := by
  by_contra hpast
  have hmet := (hrun.acted
    (p := fun k l => k = .inl (.inr (.messageSend id body)) ∧
      ∃ pc, l = .inl (.inr (.send (.createMessage none pc))) ∧ unvalidated pc = false)
    (φ := fun _ _ _ => False) ?_ ?_ i ⟨hcall, pc, hpc, by simpa using hpast⟩).met
  · obtain ⟨_, -, hfalse, -⟩ := hmet
    exact hfalse
  · rintro j ⟨hj, _, hstart, -⟩
    have hreceived : (server cfg decode json).start (calls j) = .inl (.inr (.send .received)) := by
      rw [hj]; rfl
    cases hreceived.symm.trans hstart
  · rintro c k h l h' _ hs ⟨rfl, pc', rfl, hpc'⟩
    exact .inl ⟨rfl, known_of_step hs hpc'⟩

/-- A client's creation that is past the member check has been asked for by its sender. -/
theorem requests_of_creation
    (hrun : Run (server cfg decode json) Discipline.free calls
      ((server cfg decode json).initial calls hub) R) {i : ι} {p : CreateMessageParams}
    {pc : CreatePc} (hk : creation json (calls i) (R.pcs i) = some (p, pc))
    (hsys : p.isSystem = false) (hpast : unvalidated pc = false) :
    Requests cfg decode json calls ((server cfg decode json).initial calls hub) R i p := by
  rcases client_of_creation hk hsys with ⟨id, body, userId, hcall, hl, rfl⟩ | ⟨hcall, -⟩
  · cases userId with
    | none =>
      rw [nobody_run hrun hcall hl] at hpast
      cases hpast
    | some u => exact .event hcall rfl (sender_run hcall hrun hl)
  · exact .route hcall

theorem asks_of_insert
    (hrun : Run (server cfg decode json) Discipline.free calls
      ((server cfg decode json).initial calls hub) R) {i : ι} {p : CreateMessageParams}
    {type : MessageType} {a seq now : Nat} {y : Message}
    (hk : creation json (calls i) (R.pcs i) = some (p, .insert a seq)) (htype : p.type = some type)
    (hsys : p.isSystem = false) (hxy : Remains (p.row type y.id seq now) y) :
    Asks cfg decode json calls ((server cfg decode json).initial calls hub) y R i := by
  have hentered := hrun.acted (p := Admitted json p.roomId p.senderId)
    (φ := Enters json p.roomId p.senderId)
    (fun j => not_admitted_of_begins (begins_start cfg decode json (calls j)))
    admitted_of_step i ⟨p, _, hk, hsys, rfl, rfl, rfl⟩
  have hroom : y.roomId = p.roomId := by generalize y.id = id at hxy; cases hxy <;> rfl
  have hsender : y.senderId = p.senderId := by generalize y.id = id at hxy; cases hxy <;> rfl
  exact ⟨by rw [hroom, hsender]; exact hentered, p, a, seq, type, now,
    requests_of_creation hrun hk hsys rfl, hk, htype, hxy⟩

/-- A message that a run has added was asked for. -/
theorem asked_for
    (hclient : ∀ i p, calls i = .inr ⟨.messages, .createMessage p⟩ → p.isSystem = false)
    (hrun : Run (server cfg decode json) Discipline.free calls
      ((server cfg decode json).initial calls hub) Q) {y : Message}
    (hy : y ∈ Q.shared.world.db.messages.rows) (hno : ∀ x ∈ hub.world.db.messages.rows, x.id ≠ y.id)
    (ht : y.type ≠ .SYSTEM) :
    Brought (server cfg decode json) Discipline.free calls
      ((server cfg decode json).initial calls hub) (Stored · y.id)
      (Asks cfg decode json calls ((server cfg decode json).initial calls hub) y) Q := by
  have hbrought : Brought (server cfg decode json) Discipline.free calls
      ((server cfg decode json).initial calls hub) (Stored · y.id) (fun _ _ => True) Q := by
    refine hrun.brought ?_ (fun _ _ _ _ _ => trivial) ?_ ⟨y, hy, rfl⟩
    · rintro ⟨x, hx, hid⟩
      exact hno x hx hid
    · rintro e h ⟨x, hx, hid⟩
      exact ⟨x, by rwa [show ((server cfg decode json).env e h).world.db = h.world.db
        from db_env cfg e h] at hx, hid⟩
  obtain ⟨R, i, c, h', l', hr, ha, -, hs, hbefore, ⟨x, hx, hid⟩, hsince⟩ := hbrought
  refine ⟨R, i, c, h', l', hr, ha, ?_, hs, hbefore, ⟨x, hx, hid⟩, hsince⟩
  -- the row that has come is that of `y`
  obtain ⟨z, hz, hxz⟩ := (extends_of_run hsince).there hx
  have hzy : z.id = y.id := by cases hxz <;> exact hid
  obtain rfl := messages_eq_of_id hz hy hzy
  cases alters_of_step hs with
  | same hrows => exact absurd ⟨x, hrows ▸ hx, hid⟩ hbefore
  | @inserted p a seq type hk htype hrows =>
    rw [hrows] at hx
    rcases List.mem_append.1 hx with hx | hx
    · exact absurd ⟨x, hx, hid⟩ hbefore
    obtain rfl := List.mem_singleton.1 hx
    have hrow : p.row type z.id seq R.shared.world.now =
        p.row type c.id seq R.shared.world.now := by
      rw [← hid]
      rfl
    refine asks_of_insert hr hk htype ?_ (hrow ▸ hxz)
    cases hsys : p.isSystem with
    | false => rfl
    | true =>
      obtain ⟨r, actorId, payload, rfl⟩ := systemParams_of_creation (hclient i) hk hsys
      refine absurd ?_ ht
      cases hxz <;> exact (Option.some.inj htype).symm
  | unsent _ hrows =>
    rw [hrows] at hx
    obtain ⟨w, hw, rfl⟩ := List.mem_map.1 hx
    refine absurd ⟨w, hw, ?_⟩ hbefore
    split at hid <;> exact hid

/-- **The grounds of a message.** Whatever is in flight: what a run has added to the messages of
clients was stored by a request of its sender, who had been found a member in the course of it; it
is a valid payload, carries an object of its sender, if any, and answers, if it does, a message of
its room. -/
theorem message_grounds
    (hclient : ∀ i p, calls i = .inr ⟨.messages, .createMessage p⟩ → p.isSystem = false)
    (hrun : Run (server cfg decode json) Discipline.free calls
      ((server cfg decode json).initial calls hub) Q) {y : Message}
    (hy : y ∈ Q.shared.world.db.messages.rows) (hno : ∀ x ∈ hub.world.db.messages.rows, x.id ≠ y.id)
    (ht : y.type ≠ .SYSTEM) :
    Grounded cfg decode json calls ((server cfg decode json).initial calls hub) Q y := by
  have hbrought := asked_for hclient hrun hy hno ht
  obtain ⟨R, i, hr, hasks, hrest⟩ := hbrought.happened
  obtain ⟨p, a, seq, type, now, -, hk, htype, hxy⟩ := hasks.insert
  have hsys : ¬ p.isSystem = true := by
    intro hsys
    obtain ⟨r, actorId, payload, rfl⟩ := systemParams_of_creation (hclient i) hk hsys
    refine ht ?_
    generalize y.id = id at hxy
    cases hxy <;> exact (Option.some.inj htype).symm
  have hpre := ((preparing_run hr).own i p _ hk).resolve_left hsys
  have hchecked := ((checked_run (initial_checked cfg decode json calls hub) hr i).1 p _ hk
    ).resolve_left hsys
  have hext := extends_of_run hrest
  refine ⟨hbrought, ?_, ?_, ?_⟩ <;> generalize y.id = id at hxy
  · cases hxy with
    | same => exact fun _ => htype ▸ hpre.payload rfl
    | unsent => exact (nomatch ·)
  · cases hxy with
    | same => exact fun m hm => uploaded_run hrest (hchecked m hm)
    | unsent => exact fun _ hm => (nomatch hm)
  · cases hxy <;> exact fun t ht => (hpre.reply t ht).kept hext

end Runs

/-! ### An answer -/

/-- `b` answers `m1`. -/
def answer : CreateMessageParams :=
  { roomId := "r1", senderId := "b", type := some .TEXT, content := some "yes",
    replyToId := some "m1" }

def sendAnswer : Unit → ServerCall := fun _ => .inr ⟨.messages, .createMessage answer⟩

/-- The answer is there, and rests on `m1` and on the membership of `b`. -/
theorem message_grounds_answer : ∃ Q : Pool Hub ServerPc Unit,
    ∃ y ∈ Q.shared.world.db.messages.rows, y.replyToId = some "m1" ∧
      Grounded {} (fun _ => none) Messages.noJson sendAnswer
        (serverPlain.initial sendAnswer hubM1) Q y := by
  have hexec : (serverPlain.exec always sendAnswer (serverPlain.initial sendAnswer hubM1)
      (moves () 9 { id := "m2" })).any (fun Q => Q.shared.world.db.messages.rows.any fun y =>
        y.id == "m2" && y.replyToId == some "m1" && y.type == .TEXT) = true := by decide
  obtain ⟨Q, hrun, hQ⟩ := Machine.exec_reaches_free hexec
  obtain ⟨y, hy, hp⟩ := List.any_eq_true.1 hQ
  simp only [Bool.and_eq_true, beq_iff_eq] at hp
  obtain ⟨⟨hid, hreply⟩, ht⟩ := hp
  refine ⟨Q, y, hy, hreply, message_grounds ?_ hrun hy ?_ (by rw [ht]; exact nofun)⟩
  · intro _ p h
    cases h
    rfl
  · intro x hx
    rw [List.mem_singleton.1 hx, hid]
    decide

end Intaktok.Realtime
