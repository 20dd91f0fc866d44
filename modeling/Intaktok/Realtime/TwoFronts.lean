import Intaktok.Realtime.RestRoutes
import Intaktok.Messages.OwnMessage
/-
# WebSocket and REST

The gateway hands an event to the service that the REST route of the same request calls, without
the guards and the DTO of the route (`hosts_event`). So it is no weaker than REST exactly where
the route lets the request through or the service changes nothing of its own accord
(`no_weaker_iff`). A user who is not onboarded writes over his socket (`weaker_unonboarded`).
-/

namespace Intaktok.Realtime

open Interleave Tables
open Messages (JsNumber CreateMessageParams CreatePc createStep acts_of_createStep Counted)

/-- The REST route may refuse the request, if nothing else happens. -/
def Refuses (cfg : AppConfig) (json : Messages.Json) (len : String → Nat) (userId : String)
    (req : Request) (w : World) : Prop :=
  ∃ w' pc, Solo (routes cfg json len).still (userId, req) w (routeStart req) w' pc ∧
    pc.refused = true

/-- The event leaves the database unchanged and emits no domain event, if nothing else happens. -/
def Harmless (cfg : AppConfig) (decode : String → Option Jwt) (json : Messages.Json) (id : String)
    (req : Request) (h : Hub) : Prop :=
  ∀ h' pc, Solo (server cfg decode json).still (req.event id) h
      ((server cfg decode json).start (req.event id)) h' pc →
    h'.world.db = h.world.db ∧ h'.world.events = h.world.events

section Fronts
variable {cfg : AppConfig} {decode : String → Option Jwt} {json : Messages.Json}
  {len : String → Nat} {c : Choice} {id userId : String} {req : Request}

/-! ## The route -/

/-- An admitted request comes to the service as it is. -/
def RouteCourse (cfg : AppConfig) (json : Messages.Json) (userId : String) (req : Request)
    (w w' : World) : RoutePc → Prop
  | .validate | .onboarded | .member => w' = w
  | .handle pc => Solo (Messages.machine cfg json).still (req.call userId) w
      (Messages.start (req.call userId)) w' pc
  | .rejected _ => False

theorem routeCourse_step {w w₁ w₂ : World} {pc pc' : RoutePc}
    (ha : admitted len w.db userId req = true) (h : RouteCourse cfg json userId req w w₁ pc)
    (hs : routeStep cfg json len c userId req w₁ pc = some (w₂, pc')) :
    RouteCourse cfg json userId req w w₂ pc' := by
  simp only [admitted, Bool.and_eq_true, Option.isNone_iff_eq_none] at ha
  obtain ⟨⟨⟨⟨-, hauth⟩, honb⟩, hmember⟩, hvalid⟩ := ha
  cases pc with
  | validate =>
    obtain rfl : w₁ = w := h
    simp only [routeStep, hauth, RoutePc.orRejected] at hs
    cases hs
    exact rfl
  | onboarded =>
    obtain rfl : w₁ = w := h
    simp only [routeStep, honb, RoutePc.orRejected] at hs
    cases hs
    exact rfl
  | member =>
    obtain rfl : w₁ = w := h
    simp only [routeStep, hvalid, if_true] at hs
    cases hrole : Rooms.canActivate w₁.db req.roomId userId with
    | error e => rw [hrole] at hmember; cases hmember
    | ok role =>
      rw [hrole] at hs
      cases hs
      exact .refl
  | handle pc =>
    obtain ⟨⟨w₃, pc₃⟩, hservice, he⟩ := Option.map_eq_some_iff.1 hs
    cases he
    exact h.step hservice
  | rejected e => cases h

/-- If the route refuses an admitted request, the service has failed. -/
theorem failed_of_refuses {w : World} (ha : admitted len w.db userId req = true)
    (h : Refuses cfg json len userId req w) : ∃ w' pc,
    Solo (Messages.machine cfg json).still (req.call userId) w
      (Messages.start (req.call userId)) w' pc ∧ pc.failed = true := by
  obtain ⟨w', pc, hrun, href⟩ := h
  have h0 : RouteCourse cfg json userId req w w (routeStart req) := by
    simp only [admitted, Bool.and_eq_true] at ha
    rw [routeStart, if_pos ha.1.1.1.1]
    exact rfl
  have hcourse := hrun.invariant (RouteCourse cfg json userId req w) h0
    (fun hI hs => routeCourse_step ha hI hs) fun e => e.elim
  cases pc with
  | handle pc => exact ⟨w', pc, hcourse, href⟩
  | rejected e => cases hcourse
  | _ => cases href

/-- What is not admitted the route refuses. -/
theorem refuses_of_not_admitted {w : World} (ha : admitted len w.db userId req = false) :
    Refuses cfg json len userId req w := by
  by_cases hrouted : req.routed = true
  · have hvalidate : (routes cfg json len).still.step {} (userId, req) w .validate =
        some (w, .orRejected (authenticate w.db userId) .onboarded) := rfl
    have honboarded : (routes cfg json len).still.step {} (userId, req) w .onboarded =
        some (w, .orRejected (requireOnboarded w.db userId) .member) := rfl
    have h0 : Solo (routes cfg json len).still (userId, req) w (routeStart req) w .validate := by
      rw [routeStart, if_pos hrouted]
      exact .refl
    have h1 := h0.step hvalidate
    cases hauth : authenticate w.db userId with
    | some e => rw [hauth] at h1; exact ⟨w, _, h1, rfl⟩
    | none =>
      rw [hauth] at h1
      have h2 := h1.step honboarded
      cases honb : requireOnboarded w.db userId with
      | some e => rw [honb] at h2; exact ⟨w, _, h2, rfl⟩
      | none =>
        rw [honb] at h2
        have h3 := h2.step (c := {}) rfl
        cases hmember : Rooms.canActivate w.db req.roomId userId with
        | error e => simp only [hmember] at h3; exact ⟨w, _, h3, rfl⟩
        | ok role =>
          have hinvalid : req.valid len = false := by
            simpa [admitted, hrouted, hauth, honb, hmember, Except.isOk, Except.toBool] using ha
          simp only [hmember, hinvalid, Bool.false_eq_true, if_false] at h3
          exact ⟨w, _, h3, rfl⟩
  · refine ⟨w, routeStart req, .refl, ?_⟩
    rw [routeStart, if_neg hrouted]
    rfl

/-! ## The event -/

/-- The values a send is about to look up are those of its fields. -/
def Named (p : CreateMessageParams) : CreatePc → Prop
  | .lookup k => truthy p.clientMessageId = some k
  | .media i => truthy p.mediaId = some i
  | .reply t => truthy p.replyToId = some t
  | _ => True

theorem named_afterMedia {p : CreateMessageParams} : Named p (Messages.afterMedia p) := by
  unfold Messages.afterMedia
  split
  · rename_i ht; exact ht
  · trivial

theorem named_afterLookup {p : CreateMessageParams} : Named p (Messages.afterLookup p) := by
  unfold Messages.afterLookup
  split <;> trivial

theorem named_start {p : CreateMessageParams} : Named p (Messages.createStart p) := by
  unfold Messages.createStart
  split
  · rename_i hk; exact hk
  · exact named_afterLookup

theorem named_step {p : CreateMessageParams} {w w' : World} {pc pc' : CreatePc}
    (h : createStep json c p w pc = some (w', pc')) : Named p pc' := by
  cases acts_of_createStep h with
  | missed => exact named_afterLookup
  | member =>
    unfold Messages.afterMember
    split
    · trivial
    · rename_i hi; exact hi
    · exact named_afterMedia
  | owned => exact named_afterMedia
  | resyncSet => split <;> trivial
  | fetch => unfold Messages.emitCreated; split <;> (try split) <;> trivial
  | _ => trivial

theorem isStr_of_truthy {v : JsValue} {s : String} (hv : v.isText = true)
    (h : truthy v.text = some s) : v.isStr = true := by
  cases v with
  | absent => cases h
  | str s => rfl
  | other b => cases hv

/-- Values of the declared types end no call. -/
theorem throws_none {roomId : String} {dto : SendMessageDto} {db : Db} {pc : CreatePc}
    (ht : (Request.send roomId dto).typed = true)
    (hn : Named ((dto.payload roomId).params (some userId)) pc) :
    (dto.payload roomId).throws (some userId) db pc = none := by
  simp only [Request.typed, Bool.and_eq_true] at ht
  obtain ⟨⟨⟨hkey, hcontent⟩, hmedia⟩, hreply⟩ := ht
  have hroom : (JsValue.str roomId).isStr = true := rfl
  cases pc with
  | lookup k =>
    simp only [SendPayload.throws, SendMessageDto.payload, hroom, isStr_of_truthy hkey hn,
      Bool.and_self, if_true]
  | member =>
    have hother : (dto.content == JsValue.other true) = false := by
      cases hc : dto.content with
      | other b => rw [hc] at hcontent; cases hcontent
      | _ => rfl
    simp [SendPayload.throws, SendMessageDto.payload, hroom, hother]
  | media i => simp [SendPayload.throws, SendMessageDto.payload, isStr_of_truthy hmedia hn]
  | reply t => simp [SendPayload.throws, SendMessageDto.payload, isStr_of_truthy hreply hn]
  | insert a seq =>
    simp [SendPayload.throws, SendMessageDto.payload, hkey, hcontent, hmedia, hreply]
  | _ => rfl

theorem server_event {call : EventCall} {h : Hub} {pc : EventPc} :
    (server cfg decode json).step c (.inl (.inr call)) h (.inl (.inr pc)) =
      (eventStep cfg json c call h pc).map fun r =>
        (deliver h.world.events r.1, .inl (.inr r.2)) := by
  simp only [server, broadcasting, Machine.sum, eventMachine, Option.map_map]
  rfl

theorem server_socket {call : Call} {h : Hub} {pc : Pc} :
    (server cfg decode json).step c (.inl (.inl call)) h (.inl (.inl pc)) =
      (step cfg decode call h pc).map fun r => (deliver h.world.events r.1, .inl (.inl r.2)) := by
  simp only [server, broadcasting, Machine.sum, machine, Option.map_map]
  rfl

def readReturns (roomId userId : Messages.WhereString) (lastReadSeq : JsNumber) :
    Messages.ReadPc → ReadPc
  | .done (.ok ()) => .done .ok
  | .done (.error e) => .done (errAck e)
  | pc => .markRead roomId userId lastReadSeq pc

/-- What the gateway is about to do when the service is about to do `pc`. -/
def front (userId : String) : Request → Messages.Pc → ServerPc
  | .send _ _, .create pc => .inl (.inr (.send (sendReturns (some userId) pc)))
  | .remove _ _, .delete pc => .inl (.inr (.delete (deleteReturns (some userId) pc)))
  | .read roomId n, .read pc => .inl (.inl (.read (readReturns (.str roomId) (.str userId) n pc)))
  | _, _ => .inl (.inr (.disconnect .done))

/-- The service is at work on the request. -/
def AtWork (userId : String) : Request → Messages.Pc → Prop
  | .send roomId dto, .create pc => Named ((dto.payload roomId).params (some userId)) pc
  | .remove _ _, .delete _ | .read _ _, .read _ => True
  | _, _ => False

/-- An action of the gateway is one of the service. -/
theorem front_step (ht : req.typed = true) {h : Hub} {pc : Messages.Pc}
    (hw : AtWork userId req pc) :
    (server cfg decode json).step c (req.event id) h (front userId req pc) =
      (Messages.step cfg json c (req.call userId) h.world pc).map fun r =>
        (deliver h.world.events { h with world := r.1 }, front userId req r.2) := by
  cases req with
  | send roomId dto =>
    cases pc with
    | create pc =>
      simp only [Request.event, front, server_event, Messages.step, Request.call, Option.map_map]
      by_cases hdone : ∃ x, pc = .done x
      · obtain ⟨x, rfl⟩ := hdone
        cases x <;> rfl
      · have hon : sendReturns (some userId) pc = .createMessage (some userId) pc := by
          cases pc with
          | done x => exact absurd ⟨x, rfl⟩ hdone
          | _ => rfl
        simp only [hon, eventStep, onSendStep, Option.getD_some, throws_none ht hw,
          Option.map_map]
        rfl
    | _ => cases hw
  | remove roomId messageId =>
    cases pc with
    | delete pc =>
      simp only [Request.event, front, server_event, Messages.step, Request.call, Option.map_map]
      by_cases hdone : ∃ x, pc = .done x
      · obtain ⟨x, rfl⟩ := hdone
        cases x <;> rfl
      · have hon : deleteReturns (some userId) pc = .softDelete (some userId) pc := by
          cases pc with
          | done x => exact absurd ⟨x, rfl⟩ hdone
          | _ => rfl
        simp only [hon, eventStep, onDeleteStep, Option.getD_some, Option.map_map]
        rfl
    | _ => cases hw
  | read roomId n =>
    cases pc with
    | read pc =>
      simp only [Request.event, front, server_socket, Messages.step, Request.call, Option.map_map]
      by_cases hdone : ∃ x, pc = .done x
      · obtain ⟨x, rfl⟩ := hdone
        cases x <;> rfl
      · have hon : readReturns (.str roomId) (.str userId) n pc =
            .markRead (.str roomId) (.str userId) n pc := by
          cases pc with
          | done x => exact absurd ⟨x, rfl⟩ hdone
          | _ => rfl
        simp only [hon, step, onReadStep, Option.map_map]
        rfl
    | _ => cases hw

theorem atWork_start : AtWork userId req (Messages.start (req.call userId)) := by
  cases req with
  | send roomId dto => exact named_start
  | _ => trivial

theorem atWork_step {w w' : World} {pc pc' : Messages.Pc} (hw : AtWork userId req pc)
    (hs : Messages.step cfg json c (req.call userId) w pc = some (w', pc')) :
    AtWork userId req pc' := by
  cases req with
  | send roomId dto =>
    cases pc with
    | create pc =>
      obtain ⟨⟨w₁, pc₁⟩, hcreate, he⟩ := Option.map_eq_some_iff.1 hs
      cases he
      exact named_step hcreate
    | _ => cases hw
  | remove roomId messageId =>
    cases pc with
    | delete pc =>
      obtain ⟨⟨w₁, pc₁⟩, -, he⟩ := Option.map_eq_some_iff.1 hs
      cases he
      trivial
    | _ => cases hw
  | read roomId n =>
    cases pc with
    | read pc =>
      obtain ⟨⟨w₁, pc₁⟩, -, he⟩ := Option.map_eq_some_iff.1 hs
      cases he
      trivial
    | _ => cases hw

/-- **The gateway hosts the service.** Once it has the event it does what the service does. -/
theorem hosts_event (ht : req.typed = true) :
    Hosts (server cfg decode json) (req.event id) (Messages.machine cfg json) (req.call userId)
      Hub.world (front userId req) (AtWork userId req) where
  start := atWork_start
  keep hw hs := atWork_step hw hs
  does hw hs := by
    rw [front_step ht hw] at hs
    obtain ⟨⟨w, pc⟩, hservice, he⟩ := Option.map_eq_some_iff.1 hs
    cases he
    exact ⟨pc, rfl, by rw [world_deliver]; exact hservice⟩
  can {c h w pc pc'} hw hs := by
    have hs : Messages.step cfg json c (req.call userId) h.world pc = some (w, pc') := hs
    exact ⟨deliver h.world.events { h with world := w }, by rw [front_step ht hw, hs]; rfl,
      world_deliver _ _⟩

theorem sendReturns_of_checking {user : Option String} {pc : CreatePc} (h : Messages.Checking pc) :
    sendReturns user pc = .createMessage user pc := by
  cases h <;> rfl

/-- The gateway hands the event of a socket that is authenticated to the service. -/
theorem received_step {h : Hub} (hu : (h.sockets id).userId = some userId) :
    (server cfg decode json).step c (req.event id) h
      ((server cfg decode json).start (req.event id)) =
      some (h, front userId req (Messages.start (req.call userId))) := by
  cases req with
  | send roomId dto =>
    show (server cfg decode json).step c (.inl (.inr (.messageSend id (some (dto.payload roomId)))))
      h (.inl (.inr (.send .received))) = _
    simp only [server_event, eventStep, onSendStep, hu, Option.map_some, deliver_same, front,
      Messages.start, Request.call,
      sendReturns_of_checking (Messages.checking_createStart _)]
  | remove roomId messageId =>
    show (server cfg decode json).step c (.inl (.inr (.messageDelete id
      (some { roomId := .str roomId, messageId := .str messageId })))) h
      (.inl (.inr (.delete .received))) = _
    simp only [server_event, eventStep, onDeleteStep, hu, Option.map_some, deliver_same]
    rfl
  | read roomId n =>
    show (server cfg decode json).step c (.inl (.inl (.messageRead id
      (some { roomId := .str roomId, lastReadSeq := n })))) h (.inl (.inl (.read .received))) = _
    simp only [server_socket, step, onReadStep, hu, Option.map_some, deliver_same]
    rfl

/-- The event is harmless where the service is quiet. -/
theorem harmless_iff (ht : req.typed = true) {h : Hub} (hu : (h.sockets id).userId = some userId) :
    Harmless cfg decode json id req h ↔ Messages.Quiet cfg json (req.call userId) h.world := by
  have hhosts : Hosts (server cfg decode json) (req.event id) (Messages.machine cfg json)
    (req.call userId) Hub.world (front userId req) (AtWork userId req) := hosts_event ht
  constructor
  · intro hharm w' pc hrun
    obtain ⟨-, h', hrun', rfl⟩ := hhosts.outer hrun
    exact hharm h' _ (hrun'.head (c := {}) (received_step hu))
  · intro hquiet h' x hrun
    rcases hrun.uncons with ⟨rfl, rfl⟩ | ⟨c, h₁, x₁, hs, hrest⟩
    · exact ⟨rfl, rfl⟩
    · rw [received_step hu] at hs
      cases hs
      obtain ⟨pc, -, -, hservice⟩ := hhosts.inner hrest
      exact hquiet _ _ hservice

/-- **No weaker.** The event is harmless whenever the route refuses the request, exactly where the
route admits it or the service finds nothing to write. -/
theorem no_weaker_iff (cfg : AppConfig) (decode : String → Option Jwt) (json : Messages.Json)
    (len : String → Nat) {h : Hub} {id u : String} (hu : (h.sockets id).userId = some u)
    (req : Request) (ht : req.typed = true) (hc : Counted h.world (req.call u)) :
    (Refuses cfg json len u req h.world → Harmless cfg decode json id req h) ↔
      admitted len h.world.db u req = true ∨
        Messages.changes cfg h.world (req.call u) = false := by
  rw [harmless_iff ht hu, Messages.quiet_iff hc]
  constructor
  · intro himp
    cases ha : admitted len h.world.db u req with
    | true => exact .inl rfl
    | false => exact .inr (himp (refuses_of_not_admitted ha))
  · rintro (ha | hno) href
    · obtain ⟨w', pc, hrun, hfail⟩ := failed_of_refuses ha href
      refine Messages.unchanged_of_failed hc (fun p hp => ?_) hrun hfail
      cases req with
      | send roomId dto => cases hp; rfl
      | _ => cases hp
    · exact hno

end Fronts

/-! ### A text of somebody new -/

/-- The socket `s` is authenticated as `a`, a member of `r1`. -/
def hubA (profiles : Table Profile := .empty) : Hub where
  world := { Messages.worldR1 with db.profiles := profiles }
  sockets _ := { userId := some "a", rooms := ["user:a", "r1"] }

def textA : Request := .send "r1" { type := some .TEXT, content := .str "hi" }

theorem hubA_counted (profiles : Table Profile) :
    Counted (hubA profiles).world (textA.call "a") :=
  ⟨(Messages.worldR1_counts .empty).lasting, fun _ h => nomatch h⟩

def profilesA : Table Profile :=
  ⟨[{ userId := "a", nickname := "A", onboardedAt := some 0 }], by decide⟩

def blankA : Request := .send "r1" { type := some .TEXT, content := .str " " }

/-- Whoever is onboarded is admitted, and what the route refuses the event refuses. -/
theorem no_weaker_onboarded :
    Refuses {} Messages.noJson String.length "a" blankA (hubA profilesA).world ∧
    Harmless {} (fun _ => none) Messages.noJson "s" blankA (hubA profilesA) := by
  have hrefuses : Refuses {} Messages.noJson String.length "a" blankA (hubA profilesA).world :=
    ⟨_, _, (((Solo.refl.step (c := {}) rfl).step (c := {}) rfl).step (c := {}) rfl).step (c := {})
      rfl, rfl⟩
  have hcounted : Counted (hubA profilesA).world (blankA.call "a") := hubA_counted profilesA
  exact ⟨hrefuses, (no_weaker_iff {} (fun _ => none) Messages.noJson String.length rfl blankA rfl
    hcounted).2 (.inl (by decide)) hrefuses⟩

/-- **Weaker.** `OnboardedGuard` stands before the route, and nothing before the event. -/
theorem weaker_unonboarded : ¬ ∀ (cfg : AppConfig) (decode : String → Option Jwt)
    (json : Messages.Json) (len : String → Nat) (h : Hub) (id u : String),
    (h.sockets id).userId = some u → ∀ req : Request, req.typed = true →
    Counted h.world (req.call u) → Refuses cfg json len u req h.world →
    Harmless cfg decode json id req h := by
  intro hall
  have hharm := hall {} (fun _ => none) Messages.noJson String.length hubA "s" "a" rfl textA rfl
    (hubA_counted _) (refuses_of_not_admitted (by decide))
  have hsilent := (Messages.quiet_iff (hubA_counted _)).1 ((harmless_iff rfl rfl).1 hharm)
  have hwrites : Messages.changes {} hubA.world (textA.call "a") = true := by decide
  rw [hwrites] at hsilent
  cases hsilent

end Intaktok.Realtime
