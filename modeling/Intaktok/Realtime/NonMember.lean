import Intaktok.Realtime.Events
import Intaktok.Realtime.Sockets
import Intaktok.Messages.OwnMessage
/-
# What a `message:send` tells somebody outside the room

Over REST a `RoomMemberGuard` stands before `createMessage`. Over the socket nothing does, and
`createMessage` looks the key of the message up (`messages.service.ts:97`) before it looks at the
membership (`:105`): a key that is in use is answered with the message that has it. Everything
else somebody outside the room is told before the room is read (`answers_iff`), so that this is
the only way to learn of it (`oblivious_iff`).
-/

namespace Intaktok.Realtime

open Interleave Tables
open Messages (CreatePc findByClientMessageId assertActiveMember createStart createStep)

/-! ## Two states, one answer -/

/-- Two databases that differ in the messages of one room at most. -/
structure DifferIn (r : String) (db₁ db₂ : Db) : Prop where
  rest : db₂ = { db₁ with messages := db₂.messages }
  messages : ∀ m : Message, m.roomId ≠ r → (m ∈ db₁.messages.rows ↔ m ∈ db₂.messages.rows)

/-- The user has never joined the room, or is out of it. -/
def Outside (db : Db) (r u : String) : Prop :=
  ∀ m ∈ db.roomMembers.rows, m.roomId = r → m.userId = u → m.leftAt ≠ none

section
variable (cfg : AppConfig) (json : Messages.Json) (id : String) (body : Option SendPayload)

/-- The handler, run alone, may answer `ack`. -/
def Answers (h : Hub) (ack : Ack) : Prop :=
  ∃ h', Solo (eventMachine cfg json) (.messageSend id body) h (.send .received) h'
    (.send (.done ack))

/-- No action of the handler, run alone, changes anything. -/
def Still (h : Hub) : Prop :=
  ∀ {h₁ h₂ : Hub} {pc₁ pc₂ c}, Solo (eventMachine cfg json) (.messageSend id body) h
    (.send .received) h₁ pc₁ → eventStep cfg json c (.messageSend id body) h₁ pc₁ = some (h₂, pc₂) →
    h₂ = h₁

/-- The handler gives one answer in both states, and changes neither. -/
structure Oblivious (h₁ h₂ : Hub) : Prop where
  answer : ∃ ack, (∀ a, Answers cfg json id body h₁ a ↔ a = ack) ∧
    ∀ a, Answers cfg json id body h₂ a ↔ a = ack
  still : Still cfg json id body h₁ ∧ Still cfg json id body h₂

end

/-! ## The answer -/

def refusal : Ack := .error .FORBIDDEN "해당 채팅방의 멤버가 아닙니다."

/-- The message a lookup of the key finds. -/
def keyed (b : SendPayload) (r : String) (db : Db) : Option Message :=
  (truthy b.clientMessageId.text).bind (findByClientMessageId db r)

/-- What somebody outside the room is told. -/
def answerTo (b : SendPayload) (r : String) (db : Db) : Ack :=
  if b.clientMessageId = .other true then errAck .invalidValue
  else match keyed b r db with
    | some m => .sent m.id m.seq m.createdAt
    | none => refusal

theorem Outside.refused {db : Db} {r u : String} (h : Outside db r u) :
    assertActiveMember db r u = some (Errors.forbidden "해당 채팅방의 멤버가 아닙니다.") := by
  unfold assertActiveMember
  split
  · rename_i m hf
    obtain ⟨hm, hp⟩ := Table.find_some hf
    simp only [Bool.and_eq_true, beq_iff_eq] at hp
    have hleft := h m hm hp.1 hp.2
    rw [if_neg (by simpa using hleft)]
  · rfl

section Answer
variable {cfg : AppConfig} {json : Messages.Json} {id u r : String} {b : SendPayload}
  {h₀ h h' : Hub}

/-- The handler of somebody outside the room on its way to the answer. -/
def Turning (b : SendPayload) (u r : String) (db : Db) : EventPc → Prop
  | .send .received => True
  | .send (.createMessage v pc) => v = some u ∧
      ((∃ k, truthy b.clientMessageId.text = some k ∧ pc = .lookup k) ∨
        pc = .member ∧ answerTo b r db = refusal)
  | .send (.done ack) => ack = answerTo b r db
  | _ => False

theorem turning_start (db : Db) :
    Turning b u r db (.send (.createMessage (some u) (createStart (b.params (some u))))) := by
  refine ⟨rfl, ?_⟩
  have hkey : (b.params (some u)).clientMessageId = b.clientMessageId.text := rfl
  unfold createStart
  rw [hkey]
  cases hk : truthy b.clientMessageId.text with
  | some k => exact .inl ⟨k, rfl, rfl⟩
  | none =>
    refine .inr ⟨rfl, ?_⟩
    have hne : b.clientMessageId ≠ .other true := by rintro h; rw [h] at hk; cases hk
    simp [answerTo, hne, keyed, hk]

/-- An action on the way changes nothing and leads on. -/
theorem turning_step {c : Choice} {pc pc' : EventPc} (hr : b.roomId = .str r)
    (hu : (h.sockets id).userId = some u) (hout : Outside h.world.db r u)
    (ht : Turning b u r h.world.db pc)
    (hs : eventStep cfg json c (.messageSend id (some b)) h pc = some (h', pc')) :
    h' = h ∧ Turning b u r h.world.db pc' := by
  have hroom : (b.params (some u)).roomId = r := by simp [SendPayload.params, hr, JsValue.text]
  cases pc with
  | send pc =>
    obtain ⟨⟨h₁, pc₁⟩, hon, he⟩ := Option.map_eq_some_iff.1 hs
    cases he
    cases pc with
    | received =>
      cases hon
      rw [hu]
      exact ⟨rfl, turning_start _⟩
    | createMessage v pc =>
      obtain ⟨rfl, ⟨k, hk, rfl⟩ | ⟨rfl, hanswer⟩⟩ := ht
      · cases hkey : b.clientMessageId with
        | absent => rw [hkey] at hk; cases hk
        | other t =>
          have hthrows : b.throws (some u) h.world.db (.lookup k) = some .invalidValue := by
            simp [SendPayload.throws, hkey, JsValue.isStr]
          simp only [onSendStep, Option.getD_some, hthrows] at hon
          cases hon
          obtain rfl : t = true := by
            cases t with
            | true => rfl
            | false => rw [hkey] at hk; cases hk
          exact ⟨rfl, by simp [Turning, answerTo, hkey]⟩
        | str s =>
          have hthrows : b.throws (some u) h.world.db (.lookup k) = none := by
            simp [SendPayload.throws, hkey, hr, JsValue.isStr]
          simp only [onSendStep, Option.getD_some, hthrows, createStep, hroom] at hon
          cases hon
          refine ⟨rfl, ?_⟩
          have hfound : keyed b r h.world.db = findByClientMessageId h.world.db r k := by
            rw [keyed, hk]; rfl
          split
          · rename_i m hf
            simp [sendReturns, Turning, answerTo, hkey, hfound, hf, Messages.serialize]
          · rename_i hf
            exact ⟨rfl, .inr ⟨rfl, by simp [answerTo, hkey, hfound, hf]⟩⟩
      · have hthrows : b.throws (some u) h.world.db .member = none := by
          simp [SendPayload.throws, hr, JsValue.isStr, JsValue.text, hout.refused]
        have hsender : (b.params (some u)).senderId = u := rfl
        simp only [onSendStep, Option.getD_some, hthrows, createStep, hroom, hsender,
          hout.refused] at hon
        cases hon
        exact ⟨rfl, hanswer.symm⟩
    | done ack => cases hon
  | delete pc | join pc | disconnect pc => exact ht.elim

/-- The handler of somebody outside the room, run alone, stays on its way. -/
theorem turning_run {pc : EventPc} (hr : b.roomId = .str r) (hu : (h₀.sockets id).userId = some u)
    (hout : Outside h₀.world.db r u)
    (hsolo : Solo (eventMachine cfg json) (.messageSend id (some b)) h₀ (.send .received) h pc) :
    h.world.db = h₀.world.db ∧ (h.sockets id).userId = some u ∧
      Turning b u r h₀.world.db pc := by
  refine hsolo.invariant (fun h pc => h.world.db = h₀.world.db ∧ (h.sockets id).userId = some u ∧
    Turning b u r h₀.world.db pc) ⟨rfl, hu, trivial⟩ ?_ ?_
  · rintro c h₁ pc₁ h₂ pc₂ ⟨hdb, hu₁, ht⟩ hs
    rw [← hdb] at ht hout
    obtain ⟨rfl, ht'⟩ := turning_step hr hu₁ hout ht hs
    exact ⟨hdb, hu₁, hdb ▸ ht'⟩
  · rintro e h₁ pc₁ ⟨hdb, hu₁, ht⟩
    refine ⟨(db_env cfg e h₁).trans hdb, ?_, ht⟩
    rw [← hu₁]
    exact congrArg (fun s : String → Socket => (s id).userId) (sockets_env cfg e h₁)

/-- How far the handler of somebody outside the room is from its answer. -/
def SendPc.away : SendPc → Nat
  | .received => 3
  | .createMessage _ pc => match pc with
    | .lookup _ => 2
    | _ => 1
  | .done _ => 0

def EventPc.away : EventPc → Nat
  | .send pc => pc.away
  | _ => 0

variable (cfg json id) in
/-- The handler has an action that brings it closer to its answer. -/
theorem turning_progress {pc : EventPc} (hr : b.roomId = .str r) (hout : Outside h.world.db r u)
    (ht : Turning b u r h.world.db pc) : (∃ ack, pc = .send (.done ack)) ∨
    ∃ c h' pc', eventStep cfg json c (.messageSend id (some b)) h pc = some (h', pc') ∧
      pc'.away < pc.away := by
  cases pc with
  | send pc =>
    cases pc with
    | done ack => exact .inl ⟨ack, rfl⟩
    | received =>
      refine .inr ⟨{}, h, _, rfl, ?_⟩
      simp only [EventPc.away, SendPc.away]
      split <;> decide
    | createMessage v pc =>
      obtain ⟨rfl, ⟨k, -, rfl⟩ | ⟨rfl, -⟩⟩ := ht
      · cases hthrows : b.throws (some u) h.world.db (.lookup k) with
        | some e =>
          refine .inr ⟨{}, h, .send (.done (errAck e)), ?_, by simp [EventPc.away, SendPc.away]⟩
          simp [eventStep, onSendStep, hthrows]
        | none =>
          refine .inr ⟨{}, h, ?_⟩
          simp only [eventStep, onSendStep, Option.getD_some, hthrows, createStep, Option.map_some,
            Option.some.injEq, Prod.mk.injEq, true_and, exists_eq_left']
          split
          · simp [EventPc.away, SendPc.away, sendReturns]
          · simp [EventPc.away, SendPc.away, sendReturns, Messages.afterLookup, SendPayload.params]
      · refine .inr ⟨{}, h, .send (.done refusal), ?_, by simp [EventPc.away, SendPc.away]⟩
        have hthrows : b.throws (some u) h.world.db .member = none := by
          simp [SendPayload.throws, hr, JsValue.isStr, JsValue.text, hout.refused]
        have hroom : (b.params (some u)).roomId = r := by
          simp [SendPayload.params, hr, JsValue.text]
        have hsender : (b.params (some u)).senderId = u := rfl
        simp [eventStep, onSendStep, hthrows, createStep, hroom, hsender, hout.refused,
          CreatePc.fail, sendReturns, errAck, Errors.forbidden, refusal]
  | delete pc | join pc | disconnect pc => exact ht.elim

variable (cfg json) in
/-- There is an answer. -/
theorem answers_some (hr : b.roomId = .str r) (hu : (h₀.sockets id).userId = some u)
    (hout : Outside h₀.world.db r u) : ∃ ack, Answers cfg json id (some b) h₀ ack := by
  have hstep : ∀ {h pc}, (h.world.db = h₀.world.db ∧ (h.sockets id).userId = some u ∧
      Turning b u r h₀.world.db pc) → (∃ ack, pc = .send (.done ack)) ∨
      ∃ c h' pc', (eventMachine cfg json).step c (.messageSend id (some b)) h pc = some (h', pc') ∧
        (h'.world.db = h₀.world.db ∧ (h'.sockets id).userId = some u ∧
          Turning b u r h₀.world.db pc') ∧ pc'.away < pc.away := by
    rintro h pc ⟨hdb, hu, ht⟩
    rw [← hdb] at ht hout
    refine (turning_progress cfg json id hr hout ht).imp_right ?_
    rintro ⟨c, h', pc', hs, hlt⟩
    obtain ⟨rfl, ht'⟩ := turning_step hr hu hout ht hs
    exact ⟨c, h', pc', hs, ⟨hdb, hu, hdb ▸ ht'⟩, hlt⟩
  obtain ⟨h', _, hsolo, ack, rfl⟩ := Solo.completes (M := eventMachine cfg json) _
    (fun pc => ∃ ack, pc = .send (.done ack)) EventPc.away hstep
    (s := h₀) (l := .send .received) ⟨rfl, hu, trivial⟩
  exact ⟨ack, h', hsolo⟩

variable (cfg json) in
/-- Somebody outside the room gets the one answer `answerTo`. -/
theorem answers_iff (hr : b.roomId = .str r) (hu : (h₀.sockets id).userId = some u)
    (hout : Outside h₀.world.db r u) (a : Ack) :
    Answers cfg json id (some b) h₀ a ↔ a = answerTo b r h₀.world.db := by
  have honly : ∀ {a}, Answers cfg json id (some b) h₀ a → a = answerTo b r h₀.world.db := by
    rintro a ⟨h', hsolo⟩
    exact (turning_run hr hu hout hsolo).2.2
  refine ⟨honly, ?_⟩
  rintro rfl
  obtain ⟨ack, hack⟩ := answers_some cfg json hr hu hout
  rwa [honly hack] at hack

theorem still_outside (hr : b.roomId = .str r) (hu : (h₀.sockets id).userId = some u)
    (hout : Outside h₀.world.db r u) : Still cfg json id (some b) h₀ := by
  intro h₁ h₂ pc₁ pc₂ c hsolo hs
  obtain ⟨hdb, hu₁, ht⟩ := turning_run hr hu hout hsolo
  exact (turning_step hr hu₁ (hdb ▸ hout) (hdb ▸ ht) hs).1

end Answer

/-! ## What the answer tells -/

/-- The key of the body finds the same in both states: nothing, or messages with one id, number
and time. -/
def SameKeyed (b : SendPayload) (r : String) (db₁ db₂ : Db) : Prop :=
  ∀ k, k ≠ "" → b.clientMessageId = .str k →
    (findByClientMessageId db₁ r k).map (fun m => (m.id, m.seq, m.createdAt)) =
      (findByClientMessageId db₂ r k).map (fun m => (m.id, m.seq, m.createdAt))

theorem answerTo_eq_iff {b : SendPayload} {r : String} {db₁ db₂ : Db} :
    answerTo b r db₁ = answerTo b r db₂ ↔ SameKeyed b r db₁ db₂ := by
  unfold SameKeyed answerTo keyed
  cases b.clientMessageId with
  | absent => simp [JsValue.text, truthy]
  | other t => cases t <;> simp [JsValue.text, truthy, Option.filter]
  | str k =>
    by_cases hk : k = ""
    · subst hk
      simp only [JsValue.text, truthy, Option.filter, bne_self_eq_false, Bool.false_eq_true,
        if_false, Option.bind_none, reduceCtorEq, JsValue.str.injEq, true_iff]
      exact fun k hk he => absurd he.symm hk
    · rw [JsValue.text, truthy_some hk]
      simp only [reduceCtorEq, if_false, Option.bind_some, ne_eq, JsValue.str.injEq]
      constructor
      · rintro h _ - rfl
        cases h₁ : findByClientMessageId db₁ r k <;> cases h₂ : findByClientMessageId db₂ r k <;>
          simp_all [refusal]
      · intro h
        have heq := h k hk rfl
        cases h₁ : findByClientMessageId db₁ r k <;> cases h₂ : findByClientMessageId db₂ r k <;>
          simp_all

theorem DifferIn.outside {r u : String} {db₁ db₂ : Db} (h : DifferIn r db₁ db₂)
    (hout : Outside db₁ r u) : Outside db₂ r u := by
  intro m hm
  rw [h.rest] at hm
  exact hout m hm

/-- **What somebody outside a room learns by sending.** In two states that differ in the messages
of the room at most the handler gives one answer, and changes neither, if and only if the key of
the body finds the same message in both. -/
theorem oblivious_iff (cfg : AppConfig) (json : Messages.Json) (id u r : String) (b : SendPayload)
    (h₁ h₂ : Hub) (hd : DifferIn r h₁.world.db h₂.world.db) (hr : b.roomId = .str r)
    (hu₁ : (h₁.sockets id).userId = some u) (hu₂ : (h₂.sockets id).userId = some u)
    (hout : Outside h₁.world.db r u) :
    Oblivious cfg json id (some b) h₁ h₂ ↔ SameKeyed b r h₁.world.db h₂.world.db := by
  have hiff₁ := answers_iff cfg json hr hu₁ hout
  have hiff₂ := answers_iff cfg json hr hu₂ (hd.outside hout)
  rw [← answerTo_eq_iff]
  constructor
  · rintro ⟨⟨ack, hack₁, hack₂⟩, -⟩
    have heq₁ := (hack₁ _).1 ((hiff₁ _).2 rfl)
    have heq₂ := (hack₂ _).1 ((hiff₂ _).2 rfl)
    rw [heq₁, heq₂]
  · intro heq
    refine ⟨⟨answerTo b r h₁.world.db, hiff₁, fun a => ?_⟩, ?_, ?_⟩
    · rw [heq]; exact hiff₂ a
    · exact still_outside hr hu₁ hout
    · exact still_outside hr hu₂ (hd.outside hout)

/-! ### With and without the key -/

/-- `c`, who is not in `r1`, on the socket `s`; the room holds `messages`. -/
def strangerHub (messages : Table Message) : Hub where
  world := Messages.worldR1 messages
  sockets := Function.update (fun _ => {}) "s" { userId := some "c" }

def keyBody (key : String) : SendPayload where
  clientMessageId := .str key
  roomId := .str "r1"
  type := some .TEXT
  content := .str "hi"

/-- The room with `a`'s message under the key `k`, and without. -/
def strangerHubK : Hub := strangerHub ⟨[Messages.keyedR1 "k"], by decide⟩

theorem stranger_differ : DifferIn "r1" strangerHubK.world.db (strangerHub .empty).world.db where
  rest := rfl
  messages m hm := by
    refine ⟨fun h => ?_, fun h => nomatch h⟩
    rw [List.mem_singleton.1 h] at hm
    exact absurd rfl hm

theorem stranger_outside (messages : Table Message) :
    Outside (strangerHub messages).world.db "r1" "c" := by
  intro m hm
  rcases List.mem_pair.1 hm with rfl | rfl
  · exact fun _ h => absurd h (by decide)
  · exact fun _ h => absurd h (by decide)

/-- With a key of his own `c` learns nothing. -/
theorem oblivious_stranger :
    Oblivious {} Messages.noJson "s" (some (keyBody "k2")) strangerHubK (strangerHub .empty) := by
  refine (oblivious_iff {} Messages.noJson "s" "c" "r1" (keyBody "k2") _ _ stranger_differ rfl rfl
    rfl (stranger_outside _)).2 fun k _ hk => ?_
  obtain rfl : "k2" = k := JsValue.str.inj hk
  decide

/-- **Seen from outside.** With the key of `a`'s message `c` gets its id, number and time. -/
theorem seen_from_outside : ¬ ∀ (cfg : AppConfig) (json : Messages.Json) (id u r : String)
    (b : SendPayload) (h₁ h₂ : Hub), DifferIn r h₁.world.db h₂.world.db → b.roomId = .str r →
    (h₁.sockets id).userId = some u → (h₂.sockets id).userId = some u →
    Outside h₁.world.db r u → Oblivious cfg json id (some b) h₁ h₂ := by
  intro h
  obtain ⟨⟨ack, hack₁, hack₂⟩, -⟩ := h {} Messages.noJson "s" "c" "r1" (keyBody "k") strangerHubK
    (strangerHub .empty) stranger_differ rfl rfl rfl (stranger_outside _)
  have heq₁ := (hack₁ _).1 ((answers_iff {} Messages.noJson rfl rfl (stranger_outside _) _).2 rfl)
  have heq₂ := (hack₂ _).1 ((answers_iff {} Messages.noJson rfl rfl (stranger_outside _) _).2 rfl)
  have heq := heq₁.trans heq₂.symm
  revert heq
  decide

end Intaktok.Realtime
