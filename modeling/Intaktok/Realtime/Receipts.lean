import Intaktok.Realtime.Grounds
import Intaktok.Lib.Tickets
/-
# What clients are told of the messages

A client hears of a message by `message:new`, or by the answer to the request that has sent it. The
first comes at most once for a message, whoever is at work on the others (`announced_once`); and
what either says of a message is what is stored (`told_stored`).
-/

namespace Intaktok.Realtime

open Interleave Tables
open Messages (CreateMessageParams CreatePc CreateActs Json serialize)

/-! ## One announcement for a message -/

/-- The message a `message:new` is about. -/
def newMessage (e : Emission) : Option SerializedMessage :=
  match e.event with
  | .messageNew message => some message
  | _ => none

theorem newMessage_eq_some {e : Emission} {message : SerializedMessage} :
    newMessage e = some message ↔ e.event = .messageNew message := by
  unfold newMessage
  split
  · rename_i h; rw [h]; simp
  · rename_i h
    exact ⟨(nomatch ·), fun he => absurd he (h message)⟩

def announced (h : Hub) : List String := (h.emitted.filterMap newMessage).map (·.id)

theorem emitted_env (cfg : AppConfig) (e : Env) (h : Hub) : (env cfg e h).emitted = h.emitted := by
  cases e with
  | tick => rfl
  | heartbeat id => simp only [env]; split <;> rfl

/-- The message a creation has inserted and not announced yet. -/
def awaited : CreatePc → Option String
  | .roomUpdate m => some m.id
  | .fetch dto _ => some dto.id
  | _ => none

def announcing (json : Json) : Tickets Hub ServerCall ServerPc String where
  held k l := (creation json k l).bind (awaited ·.2)
  taken := Stored
  spent := announced

theorem announced_of_silent {h h' : Hub} (hs : Silent h h') : announced h' = announced h := by
  obtain ⟨new, hnew, hno⟩ := hs
  have hnone : new.filterMap newMessage = [] := by
    refine List.filterMap_eq_nil_iff.2 fun e he => ?_
    exact Option.eq_none_iff_forall_ne_some.2 fun m hm => hno e he m (newMessage_eq_some.1 hm)
  rw [announced, hnew, List.filterMap_append, hnone, List.append_nil]
  rfl

/-- The gateway sends one `message:new` for a `MESSAGE_CREATED`, if it has somebody to send to. -/
theorem announced_deliver {h : Hub} {events : List DomainEvent} {message : SerializedMessage}
    {ids : List String} {preview title : String}
    (he : h.world.events = events ++ [.messageCreated message ids preview title]) :
    announced (deliver events h) = announced h ∨
      announced (deliver events h) = announced h ++ [message.id] := by
  rw [deliver_of_events he, List.foldl_cons, List.foldl_nil]
  simp only [onEvent, emitToUsers]
  split
  · exact .inl rfl
  · exact .inr (by simp [announced, Hub.emit, newMessage])

theorem awaited_of_begins {q : Option (CreateMessageParams × CreatePc)} (hb : Begins q) :
    q.bind (awaited ·.2) = none := by
  cases q with
  | none => rfl
  | some q =>
    obtain ⟨p, pc⟩ := q
    obtain ⟨p', rfl, -⟩ := hb p pc rfl
    show awaited (Messages.createStart p') = none
    rcases Messages.createStart_cases p' with h | ⟨_, h⟩ <;> rw [h]
    · unfold Messages.afterLookup
      split <;> rfl
    · rfl

theorem awaited_of_unstored {pc : CreatePc} (h : Messages.unstored pc = true) :
    awaited pc = none := by
  cases pc with
  | roomUpdate | fetch => cases h
  | _ => rfl

section Step
variable {cfg : AppConfig} {decode : String → Option Jwt} {json : Json} {c : Choice} {h h' : Hub}

/-- A creation takes the id of its message as it inserts it and spends it as it announces it. -/
theorem announcing_moves {k : ServerCall} {l l' : ServerPc}
    (hs : (server cfg decode json).step c k h l = some (h', l')) :
    (announcing json).Moves k h l h' l' := by
  cases creates_of_step hs with
  | other hsilent _ hb =>
    exact .holds (.inl (awaited_of_begins hb)) (announced_of_silent hsilent)
  | @creates p pc w' pc' _ hk hacts hl' =>
    have hheld : (announcing json).held k l = awaited pc := by
      show (creation json k l).bind _ = _
      rw [hk]
      rfl
    have hheld' : (announcing json).held k l' = awaited pc' ∨
        (announcing json).held k l' = none := by
      rcases hl' with hl' | hb
      · refine .inl ?_
        show (creation json k l').bind _ = _
        rw [hl']
        rfl
      · exact .inr (awaited_of_begins hb)
    have quiet : w'.events = h.world.events →
        announced (deliver h.world.events { h with world := w' }) = announced h := fun hev => by
      rw [deliver_same hev]
      rfl
    cases hacts.effect with
    | redis _ _ hpc' =>
      refine .holds (.inl ?_) (quiet rfl)
      rcases hheld' with h₁ | h₁
      · rw [h₁, awaited_of_unstored hpc']
      · exact h₁
    | @inserted a seq type t hfresh htype ht =>
      obtain ⟨-, hrows⟩ := Table.insert_ok ht
      rcases hheld' with h₁ | h₁
      · refine .takes (t := c.id) ?_ ?_ h₁ (quiet rfl)
        · rintro ⟨x, hx, hid⟩
          simp only [Messages.freshId, Bool.and_eq_true, Bool.not_eq_true'] at hfresh
          exact List.any_eq_false.1 hfresh.2 x hx (beq_iff_eq.2 hid)
        · refine ⟨p.row type c.id seq h.world.now, ?_, rfl⟩
          rw [world_deliver, hrows]
          exact List.mem_append_right _ (List.mem_singleton.2 rfl)
      · exact .holds (.inl h₁) (quiet rfl)
    | noted | waiting =>
      exact .holds (hheld'.symm.imp_right fun h₁ => h₁.trans hheld.symm) (quiet rfl)
    | noRoom | unreadable => exact .holds (.inl (hheld'.elim id id)) (quiet rfl)
    | @announced dto got got' ids preview title =>
      have hnone : (announcing json).held k l' = none := hheld'.elim id id
      have hsends : announced { h with
        world := h.world.emit (.messageCreated dto ids preview title) } = announced h := rfl
      rcases announced_deliver (h := { h with
        world := h.world.emit (.messageCreated dto ids preview title) }) rfl with hsame | hone
      · exact .holds (.inl hnone) hsame
      · exact .spends hheld hnone hone

theorem stored_of_extends {h h' : Hub} (hext : Extends h.world.db h'.world.db) {messageId : String}
    (hm : Stored h messageId) : Stored h' messageId := by
  obtain ⟨x, hx, hid⟩ := hm
  obtain ⟨y, hy, hxy⟩ := hext.there hx
  refine ⟨y, hy, ?_⟩
  cases hxy <;> exact hid

theorem announcing_kept : (announcing json).Kept (server cfg decode json) where
  moves hs := announcing_moves hs
  taken hs _ := stored_of_extends (alters_of_step hs).extends
  env e h := by
    have hdb : ((server cfg decode json).env e h).world.db = h.world.db := db_env cfg e h
    have hemitted := emitted_env cfg e h
    refine ⟨congrArg (fun es => (es.filterMap newMessage).map (·.id)) hemitted, fun t ht => ?_⟩
    show Stored _ t
    rw [Stored, hdb]
    exact ht

end Step

/-! ## What they are told is stored -/

/-- What is said is a message of the room with the key, as it was at some moment: one of before only
where there is a key, and else as the request has asked for it. -/
def Copied (db : Db) (p : CreateMessageParams) (dto : SerializedMessage) (duplicate : Bool) :
    Prop :=
  ∃ x, serialize x = dto ∧ x.roomId = p.roomId ∧ x.clientMessageId = p.clientMessageId ∧
    (∃ y ∈ db.messages.rows, Remains x y) ∧ (duplicate = true → p.clientMessageId ≠ none) ∧
    (duplicate = false → ∃ type id seq now, p.type = some type ∧ x = p.row type id seq now)

theorem Copied.kept {db db' : Db} {p : CreateMessageParams} {dto : SerializedMessage}
    {duplicate : Bool} (hext : Extends db db') (h : Copied db p dto duplicate) :
    Copied db' p dto duplicate := by
  obtain ⟨x, hdto, hroom, hkey, ⟨y, hy, hxy⟩, hkeyed, hrow⟩ := h
  obtain ⟨z, hz, hyz⟩ := hext.there hy
  exact ⟨x, hdto, hroom, hkey, ⟨z, hz, hxy.trans _ _ _ hyz⟩, hkeyed, hrow⟩

/-- What a creation says, or is about to say. -/
def Traced (db : Db) (p : CreateMessageParams) : CreatePc → Prop
  | .lookup k => p.isSystem = true ∨ p.clientMessageId = some k
  | .roomUpdate m => Copied db p (serialize m) false
  | .fetch dto _ => Copied db p dto false
  | .done (.ok ⟨dto, duplicate⟩) => p.isSystem = true ∨ Copied db p dto duplicate
  | _ => True

theorem Traced.kept {db db' : Db} {p : CreateMessageParams} {pc : CreatePc}
    (hext : Extends db db') (h : Traced db p pc) : Traced db' p pc := by
  unfold Traced at h ⊢
  split
  · exact h
  · exact h.kept hext
  · exact h.kept hext
  · exact h.imp_right (·.kept hext)
  · trivial

theorem traced_of_begins {db : Db} {q : Option (CreateMessageParams × CreatePc)} (hb : Begins q)
    {p : CreateMessageParams} {pc : CreatePc} (hq : q = some (p, pc)) : Traced db p pc := by
  obtain ⟨p', rfl, hp⟩ := hb p pc hq
  unfold Messages.createStart
  split
  · rename_i k hk
    rcases hp with hsys | rfl
    · exact .inl hsys
    · exact .inr (truthy_eq_some.1 hk).1
  · unfold Messages.afterLookup
    split <;> trivial

theorem copied_of_find {db : Db} {p : CreateMessageParams} {k : String} {m : Message}
    (hk : p.clientMessageId = some k)
    (hf : Messages.findByClientMessageId db p.roomId k = some m) :
    Copied db p (serialize m) true := by
  obtain ⟨hm, hp⟩ := Table.find_some hf
  simp only [Bool.and_eq_true, beq_iff_eq] at hp
  exact ⟨m, rfl, hp.1, hp.2.trans hk.symm, ⟨m, hm, .same⟩, fun _ => hk ▸ Option.some_ne_none k,
    (nomatch ·)⟩

/-- A creation says what it has inserted, or what it has found by the key. -/
theorem traced_of_acts {json : Json} {c : Choice} {p : CreateMessageParams} {w w' : World}
    {pc pc' : CreatePc} (hacts : CreateActs json c p w pc w' pc') (h : Traced w.db p pc) :
    Traced w'.db p pc' := by
  cases hacts with
  | found hf => exact h.imp_right (copied_of_find · hf)
  | missed =>
    unfold Messages.afterLookup
    split <;> trivial
  | member =>
    rcases Messages.afterMember_cases p with h | ⟨e, h⟩ | ⟨i, h⟩ <;> rw [h]
    · rcases Messages.afterMedia_cases p with h | ⟨t, h⟩ <;> rw [h] <;> trivial
    · trivial
    · trivial
  | owned => rcases Messages.afterMedia_cases p with h | ⟨t, h⟩ <;> rw [h] <;> trivial
  | @inserted a seq w' m _ hcreate =>
    obtain ⟨type, t, htype, rfl, ht, rfl, -⟩ := Messages.createRow_ok hcreate
    obtain ⟨-, hrows⟩ := Table.insert_ok ht
    refine ⟨_, rfl, rfl, rfl, ⟨_, ?_, .same⟩, (nomatch ·),
      fun _ => ⟨type, c.id, seq, w.now, htype, rfl⟩⟩
    rw [hrows]
    exact List.mem_append_right _ (List.mem_singleton.2 rfl)
  | resyncSet => split <;> trivial
  | winner hm =>
    obtain ⟨k, hk, hf⟩ := Option.bind_eq_some_iff.1 hm
    exact .inr (copied_of_find hk hf)
  | roomUpdate => exact h
  | @fetch dto got got' =>
    rcases Messages.emitCreated_cases json dto got' w with ⟨h₁, h₂⟩ | ⟨_, _, _, h₁⟩ | h₁
    · rw [h₁, h₂]; exact h
    · rw [h₁]; exact .inr h
    · rw [h₁]; trivial
  | _ => trivial

/-! ## Runs -/

/-- What a `message:new` says. -/
def Advertised (h : Hub) (dto : SerializedMessage) : Prop :=
  ∃ p, Copied h.world.db p dto false

/-- A message is said to be what `p` has asked for. -/
def Acknowledged (db : Db) (p : CreateMessageParams) (messageId : String) (seq createdAt : Nat) :
    Prop :=
  ∃ dto duplicate, Copied db p dto duplicate ∧ dto.id = messageId ∧ dto.seq = seq ∧
    dto.createdAt = createdAt

/-- Everything said is a copy of what is stored. -/
def telling (json : Json) : Outline Hub ServerCall ServerPc where
  glob h := ∀ dto ∈ h.emitted.filterMap newMessage, Advertised h dto
  own k h l := ∀ p pc, creation json k l = some (p, pc) → Traced h.world.db p pc
  apart _ _ _ _ := True

section Step
variable {cfg : AppConfig} {decode : String → Option Jwt} {json : Json} {c : Choice} {h h' : Hub}

theorem Acknowledged.kept {db db' : Db} (hext : Extends db db') {p : CreateMessageParams}
    {messageId : String} {seq createdAt : Nat} (ha : Acknowledged db p messageId seq createdAt) :
    Acknowledged db' p messageId seq createdAt := by
  obtain ⟨dto, duplicate, hcopy, hrest⟩ := ha
  exact ⟨dto, duplicate, hcopy.kept hext, hrest⟩

theorem traced_of_step {k : ServerCall} {l l' : ServerPc}
    (hs : (server cfg decode json).step c k h l = some (h', l'))
    (ht : ∀ p pc, creation json k l = some (p, pc) → Traced h.world.db p pc)
    {p : CreateMessageParams} {pc : CreatePc} (hk' : creation json k l' = some (p, pc)) :
    Traced h'.world.db p pc := by
  cases creates_of_step hs with
  | other _ _ hb => exact traced_of_begins hb hk'
  | creates hk hacts hl' =>
    rcases hl' with hl' | hb
    · obtain ⟨rfl, rfl⟩ := Prod.mk.inj (Option.some.inj (hl'.symm.trans hk'))
      rw [world_deliver]
      exact traced_of_acts hacts (ht _ _ hk)
    · exact traced_of_begins hb hk'

/-- A `message:new` is old, or comes from a creation that has its message. -/
theorem newMessage_of_step {k : ServerCall} {l l' : ServerPc}
    (hs : (server cfg decode json).step c k h l = some (h', l')) {e : Emission}
    {dto : SerializedMessage} (he : e ∈ h'.emitted) (hm : newMessage e = some dto) :
    e ∈ h.emitted ∨ ∃ p got, creation json k l = some (p, .fetch dto got) := by
  rw [newMessage_eq_some] at hm
  cases creates_of_step hs with
  | other hsilent =>
    obtain ⟨new, hnew, hno⟩ := hsilent
    rw [hnew] at he
    exact .inl ((List.mem_append.1 he).resolve_right fun he => hno e he dto hm)
  | @creates p pc w' pc' _ hk hacts =>
    rcases announces_of_acts hacts with
      hev | ⟨dto', got, got', ids, preview, title, rfl, -, -, hev⟩
    · rw [deliver_same (h := { h with world := w' }) hev] at he
      exact .inl he
    · obtain ⟨es, hes, hnew⟩ := emitted_deliver (h := { h with world := w' }) hev
      rw [hes] at he
      rcases List.mem_append.1 he with he | he
      · exact .inl he
      · obtain ⟨ids', preview', title', hmem, -⟩ := hnew e he dto hm
        cases List.mem_singleton.1 hmem
        exact .inr ⟨p, got, hk⟩

theorem errAck_ne_sent (e : Failure) (messageId : String) (seq createdAt : Nat) :
    errAck e ≠ .sent messageId seq createdAt := by
  unfold errAck
  split <;> simp

/-- What comes out well before the validation has been found by the key. -/
theorem lookup_of_unvalidated {p : CreateMessageParams} {w w' : World} {pc : CreatePc}
    {res : Messages.CreateMessageResult} (hacts : CreateActs json c p w pc w' (.done (.ok res)))
    (hpc : unvalidated pc = true) : ∃ k, pc = .lookup k := by
  generalize hdone : CreatePc.done (.ok res) = pc' at hacts
  cases hacts with
  | found => exact ⟨_, rfl⟩
  | missed =>
    unfold Messages.afterLookup at hdone
    split at hdone <;> cases hdone
  | member =>
    rcases Messages.afterMember_cases p with h | ⟨e, h⟩ | ⟨i, h⟩ <;> rw [h] at hdone
    · rcases Messages.afterMedia_cases p with h | ⟨t, h⟩ <;> rw [h] at hdone <;> cases hdone
    · cases hdone
    · cases hdone
  | notMember => cases hdone
  | _ => cases hpc

/-- `onSend` acknowledges what its creation says. -/
theorem acknowledged_of_step {sid : String} {body : Option SendPayload} {l : ServerPc}
    {messageId : String} {seq createdAt : Nat}
    (hs : (server cfg decode json).step c (.inl (.inr (.messageSend sid body))) h l =
      some (h', .inl (.inr (.send (.done (.sent messageId seq createdAt))))))
    (ht : ∀ p pc, creation json (.inl (.inr (.messageSend sid body))) l = some (p, pc) →
      Traced h.world.db p pc) :
    ∃ userId pc, l = .inl (.inr (.send (.createMessage userId pc))) ∧
      (unvalidated pc = true → ((body.getD {}).params userId).clientMessageId ≠ none) ∧
      Acknowledged h'.world.db ((body.getD {}).params userId) messageId seq createdAt := by
  obtain ⟨h₁, hacts, rfl⟩ := server_step hs
  rw [world_deliver]
  cases hacts with
  | @event _ pc₁ _ _ hevent =>
    generalize hl' : EventPc.send (.done (.sent messageId seq createdAt)) = l' at hevent
    cases acts_of_event hevent with
    | send hacts =>
      cases hl'
      generalize hpc' : SendPc.done (.sent messageId seq createdAt) = pc' at hacts
      cases hacts with
      | received => cases hpc'
      | refused | thrown => exact absurd (SendPc.done.inj hpc').symm (errAck_ne_sent _ _ _ _)
      | @create userId pc₀ w pc₂ hcreate =>
        have htraced := ht _ _ rfl
        have hacts := Messages.acts_of_createStep hcreate
        cases pc₂ with
        | done r =>
          rcases r with e | ⟨dto, duplicate⟩
          · exact absurd (SendPc.done.inj hpc').symm (errAck_ne_sent _ _ _ _)
          · cases hpc'
            refine ⟨userId, pc₀, rfl, fun hpc => ?_, dto, duplicate,
              (traced_of_acts hacts htraced).resolve_left Bool.false_ne_true, rfl, rfl, rfl⟩
            obtain ⟨k, rfl⟩ := lookup_of_unvalidated hacts hpc
            rw [htraced.resolve_left Bool.false_ne_true]
            exact Option.some_ne_none k
        | _ => cases hpc'

end Step

theorem advertised_env (e : Env) {h : Hub}
    (hg : ∀ dto ∈ h.emitted.filterMap newMessage, Advertised h dto) (cfg : AppConfig) :
    ∀ dto ∈ (env cfg e h).emitted.filterMap newMessage, Advertised (env cfg e h) dto := by
  intro dto hdto
  rw [emitted_env] at hdto
  rw [Advertised, db_env]
  exact hg dto hdto

theorem telling_valid {cfg : AppConfig} {decode : String → Option Jwt} {json : Json}
    {D : Discipline Hub ServerCall ServerPc} :
    (telling json).Valid (server cfg decode json) D Outline.top where
  move {c k h l h' l'} a := by
    have hext := (alters_of_step a.step).extends
    refine ⟨fun dto hdto => ?_, fun p pc => traced_of_step a.step a.own⟩
    obtain ⟨e, he, hm⟩ := List.mem_filterMap.1 hdto
    rcases newMessage_of_step a.step he hm with hold | ⟨p, got, hk⟩
    · obtain ⟨p, hcopy⟩ := a.glob dto (List.mem_filterMap.2 ⟨e, hold, hm⟩)
      exact ⟨p, hcopy.kept hext⟩
    · exact ⟨p, Copied.kept hext (a.own p _ hk)⟩
  keep a b := by
    have hext := (alters_of_step a.step).extends
    exact ⟨fun p pc hk => (b.own p pc hk).kept hext, trivial⟩
  symm _ := trivial
  env e {h} hg := by
    have hdb : ((server cfg decode json).env e h).world.db = h.world.db := db_env cfg e h
    refine ⟨advertised_env e hg cfg, fun {k l} ho => ?_⟩
    show ∀ p pc, _ → Traced ((server cfg decode json).env e h).world.db p pc
    rw [hdb]
    exact ho

section Runs
variable {ι : Type} [DecidableEq ι] {cfg : AppConfig} {decode : String → Option Jwt} {json : Json}
  {calls : ι → ServerCall} {hub : Hub} {P Q R : Pool Hub ServerPc ι}

/-- **At most one announcement for a message.** Whatever is in flight, no message comes to sockets
as a new one by a second `message:new`, and none does that is not stored. -/
theorem announced_once (hempty : hub.emitted = [])
    (hrun : Run (server cfg decode json) Discipline.free calls
      ((server cfg decode json).initial calls hub) Q) :
    (announced Q.shared).Nodup ∧ ∀ messageId ∈ announced Q.shared, Stored Q.shared messageId := by
  have hnone : announced hub = [] := by
    rw [announced, hempty]
    rfl
  refine announcing_kept.spent_once (T := announcing json) hrun (fun i => ?_) ?_ ?_
  · exact awaited_of_begins (begins_start cfg decode json (calls i))
  · show (announced hub).Nodup
    rw [hnone]
    exact List.nodup_nil
  · show ∀ t ∈ announced hub, _
    rw [hnone]
    exact fun _ ht => nomatch ht

theorem telling_run (hempty : hub.emitted = [])
    (hrun : Run (server cfg decode json) Discipline.free calls
      ((server cfg decode json).initial calls hub) Q) : (telling json).Holds calls Q := by
  have h0 : (telling json).Holds calls ((server cfg decode json).initial calls hub) := by
    refine ⟨fun dto hdto => ?_, fun i p pc hp => ?_, fun _ _ _ => trivial⟩
    · replace hdto : dto ∈ hub.emitted.filterMap newMessage := hdto
      rw [hempty] at hdto
      cases hdto
    · exact traced_of_begins (begins_start cfg decode json (calls i)) hp
  exact telling_valid.run (fun _ => Outline.top_holds calls _) h0 hrun

variable (cfg decode json calls hub) in
/-- An acknowledgement of `i` speaks of what has been asked for who the socket was as the event came
in; of what nobody has asked for only by a key. -/
def Confirmed (i : ι) (sid : String) (body : Option SendPayload) (messageId : String)
    (seq createdAt : Nat) (R : Pool Hub ServerPc ι) : Prop :=
  ∃ userId, Acted (server cfg decode json) Discipline.free calls
      ((server cfg decode json).initial calls hub) i (Incoming i sid userId) R ∧
    (userId = none → ((body.getD {}).params userId).clientMessageId ≠ none) ∧
    Acknowledged R.shared.world.db ((body.getD {}).params userId) messageId seq createdAt

theorem acknowledged_run (hempty : hub.emitted = [])
    (hrun : Run (server cfg decode json) Discipline.free calls
      ((server cfg decode json).initial calls hub) Q) {i : ι} {sid : String}
    {body : Option SendPayload} (hcall : calls i = .inl (.inr (.messageSend sid body)))
    {messageId : String} {seq createdAt : Nat}
    (hpc : Q.pcs i = .inl (.inr (.send (.done (.sent messageId seq createdAt))))) :
    Confirmed cfg decode json calls hub i sid body messageId seq createdAt Q := by
  refine hrun.invariant (fun R =>
    R.pcs i = .inl (.inr (.send (.done (.sent messageId seq createdAt)))) →
    Confirmed cfg decode json calls hub i sid body messageId seq createdAt R) ?_ ?_ ?_ hpc
  · intro hpc
    have hstart : (server cfg decode json).start (calls i) = _ := hpc
    rw [hcall] at hstart
    cases hstart
  · intro R j c h' l' hr hI ha hs hpc
    have hmove := Run.refl.move ha hs
    by_cases hij : i = j
    · subst hij
      simp only [Function.update_self] at hpc
      subst hpc
      rw [hcall] at hs
      have htraced := (telling_run hempty hr).own i
      rw [hcall] at htraced
      obtain ⟨userId, pc, hl, hkeyed, hack⟩ := acknowledged_of_step hs htraced
      refine ⟨userId, (sender_run hcall hr hl).trans hmove, ?_, hack⟩
      rintro rfl
      exact hkeyed (nobody_run hr hcall hl)
    · simp only [Function.update_of_ne hij] at hpc
      obtain ⟨userId, hacted, hkeyed, hack⟩ := hI hpc
      exact ⟨userId, hacted.trans hmove, hkeyed, hack.kept (extends_of_step hs)⟩
  · intro R e hI hpc
    obtain ⟨userId, hacted, hkeyed, hack⟩ := hI hpc
    refine ⟨userId, hacted.trans (Run.refl.env e), hkeyed, ?_⟩
    have hdb : ((server cfg decode json).env e R.shared).world.db = R.shared.world.db :=
      db_env cfg e R.shared
    rw [hdb]
    exact hack

/-- The message `y` is what the client has been told: the rest of it is as he has it, but for a
body that has been taken back since. -/
structure Agrees (y : Message) (dto : SerializedMessage) : Prop where
  id : y.id = dto.id
  room : y.roomId = dto.roomId
  sender : y.senderId = dto.senderId
  seq : y.seq = dto.seq
  type : y.type = dto.type
  reply : y.replyToId = dto.replyToId
  key : y.clientMessageId = dto.clientMessageId
  createdAt : y.createdAt = dto.createdAt
  body : y.deletedAt = none → y.content = dto.content ∧ y.mediaId = dto.mediaId

theorem agrees_of_remains {x y : Message} (h : Remains x y) : Agrees y (serialize x) := by
  cases h with
  | same =>
    refine ⟨rfl, rfl, rfl, rfl, rfl, rfl, rfl, rfl, fun hd => ?_⟩
    simp only [serialize, hd]
    exact ⟨rfl, rfl⟩
  | unsent d => exact ⟨rfl, rfl, rfl, rfl, rfl, rfl, rfl, rfl, (nomatch ·)⟩

theorem Copied.agrees {db : Db} {p : CreateMessageParams} {dto : SerializedMessage}
    {duplicate : Bool} (h : Copied db p dto duplicate) :
    ∃ y ∈ db.messages.rows, Agrees y dto ∧ y.roomId = p.roomId ∧
      y.clientMessageId = p.clientMessageId := by
  obtain ⟨x, rfl, hroom, hkey, ⟨y, hy, hxy⟩, -, -⟩ := h
  have ha := agrees_of_remains hxy
  exact ⟨y, hy, ha, ha.room.trans hroom, ha.key.trans hkey⟩

theorem Copied.keyed {db : Db} {p : CreateMessageParams} {dto : SerializedMessage}
    {duplicate : Bool} (h : Copied db p dto duplicate) (hdup : duplicate = true) :
    p.clientMessageId ≠ none := by
  obtain ⟨_, -, -, -, -, hkeyed, -⟩ := h
  exact hkeyed hdup

/-- A new message is said to be what the request has asked for. -/
theorem Copied.asked {db : Db} {p : CreateMessageParams} {dto : SerializedMessage}
    (h : Copied db p dto false) : dto.senderId = p.senderId ∧ some dto.type = p.type ∧
      dto.content = p.content ∧ dto.mediaId = p.mediaId ∧ dto.replyToId = p.replyToId ∧
      dto.deletedAt = none := by
  obtain ⟨_, rfl, -, -, -, -, hrow⟩ := h
  obtain ⟨type, id, seq, now, htype, rfl⟩ := hrow rfl
  exact ⟨rfl, htype.symm, rfl, rfl, rfl, rfl⟩

/-- The message is what `u` asks for with the body, if it has not been taken back since. -/
structure Wanted (body : SendPayload) (u : String) (y : Message) : Prop where
  sender : y.senderId = u
  type : some y.type = body.type
  reply : y.replyToId = body.replyToId.text
  body : y.deletedAt = none → y.content = body.content.text ∧ y.mediaId = body.mediaId.text

variable (cfg decode json calls hub Q)

/-- Clients are told what is stored: the message they have asked for, or the one under their key. -/
structure Truthful : Prop where
  announced : ∀ e ∈ Q.shared.emitted, ∀ dto, e.event = .messageNew dto → dto.deletedAt = none ∧
    ∃ y ∈ Q.shared.world.db.messages.rows, Agrees y dto
  returned : ∀ i p dto duplicate, calls i = .inr ⟨.messages, .createMessage p⟩ →
    Q.pcs i = .inr ⟨.messages, .create (.done (.ok ⟨dto, duplicate⟩))⟩ →
    (∃ y ∈ Q.shared.world.db.messages.rows, Agrees y dto ∧ y.roomId = p.roomId ∧
      y.clientMessageId = p.clientMessageId) ∧
    (duplicate = true → p.clientMessageId ≠ none) ∧
    (duplicate = false → dto.senderId = p.senderId ∧ some dto.type = p.type ∧
      dto.content = p.content ∧ dto.mediaId = p.mediaId ∧ dto.replyToId = p.replyToId)
  acknowledged : ∀ i sid body messageId seq createdAt,
    calls i = .inl (.inr (.messageSend sid (some body))) →
    Q.pcs i = .inl (.inr (.send (.done (.sent messageId seq createdAt)))) →
    ∃ y ∈ Q.shared.world.db.messages.rows, y.id = messageId ∧ y.seq = seq ∧
      y.createdAt = createdAt ∧ y.roomId = body.roomId.text.getD "" ∧
      y.clientMessageId = body.clientMessageId.text ∧
      (body.clientMessageId = .absent → ∃ u, Acted (server cfg decode json) Discipline.free calls
        ((server cfg decode json).initial calls hub) i (Incoming i sid (some u)) Q ∧
        Wanted body u y)

variable {cfg decode json calls hub Q}

/-- **Clients are told the truth.** A `message:new`, the answer of the route and the acknowledgement
of the event speak of a message that is stored, as it is but for its body if it has been unsent
since. -/
theorem told_stored (hempty : hub.emitted = [])
    (hclient : ∀ i p, calls i = .inr ⟨.messages, .createMessage p⟩ → p.isSystem = false)
    (hrun : Run (server cfg decode json) Discipline.free calls
      ((server cfg decode json).initial calls hub) Q) :
    Truthful cfg decode json calls hub Q := by
  have htelling := telling_run hempty hrun
  constructor
  · intro e he dto hm
    obtain ⟨p, hcopy⟩ := htelling.glob dto (List.mem_filterMap.2 ⟨e, he, newMessage_eq_some.2 hm⟩)
    obtain ⟨y, hy, ha, -⟩ := hcopy.agrees
    exact ⟨hcopy.asked.2.2.2.2.2, y, hy, ha⟩
  · intro i p dto duplicate hcall hpc
    have hk : creation json (calls i) (Q.pcs i) = some (p, .done (.ok ⟨dto, duplicate⟩)) := by
      rw [hcall, hpc]
      rfl
    have hsys : ¬ p.isSystem = true := by
      rw [hclient i p hcall]
      exact Bool.false_ne_true
    have hcopy : Copied _ p dto duplicate := (htelling.own i p _ hk).resolve_left hsys
    refine ⟨hcopy.agrees, hcopy.keyed, ?_⟩
    rintro rfl
    obtain ⟨hs, ht, hc, hm, hr, -⟩ := hcopy.asked
    exact ⟨hs, ht, hc, hm, hr⟩
  · intro i sid body messageId seq createdAt hcall hpc
    obtain ⟨userId, hacted, hkeyed, dto, duplicate, hcopy, rfl, rfl, rfl⟩ :=
      acknowledged_run hempty hrun hcall hpc
    obtain ⟨y, hy, ha, hroom, hkey⟩ := hcopy.agrees
    refine ⟨y, hy, ha.id, ha.seq, ha.createdAt, hroom, hkey, fun habsent => ?_⟩
    have hnone : ((some body).getD {} |>.params userId).clientMessageId = none :=
      congrArg JsValue.text habsent
    cases userId with
    | none => exact absurd hnone (hkeyed rfl)
    | some u =>
      obtain rfl : duplicate = false := Bool.eq_false_iff.2 fun hdup => hcopy.keyed hdup hnone
      obtain ⟨hs, ht, hc, hm, hr, -⟩ := hcopy.asked
      exact ⟨u, hacted, ha.sender.trans hs, ha.type ▸ ht, ha.reply.trans hr,
        fun hd => ⟨(ha.body hd).1.trans hc, (ha.body hd).2.trans hm⟩⟩

end Runs

/-! ### A message that is announced -/

def hubQuiet : Hub := { world := Messages.worldR1 }

def saying : Unit → ServerCall := fun _ => .inr ⟨.messages, Messages.say "a"⟩

theorem said : ∃ Q : Pool Hub ServerPc Unit,
    Run serverPlain Discipline.free saying (serverPlain.initial saying hubQuiet) Q ∧
      announced Q.shared = ["m1"] := by
  have hexec : (serverPlain.exec always saying (serverPlain.initial saying hubQuiet)
      (moves () 8 { id := "m1" } ++ moves () 1 { pick := 1 } ++ moves () 1 { pick := 2 })).any
        (fun Q => announced Q.shared == ["m1"]) = true := by decide
  obtain ⟨Q, hrun, hQ⟩ := Machine.exec_reaches_free hexec
  exact ⟨Q, hrun, beq_iff_eq.1 hQ⟩

theorem announced_once_m1 : ∃ Q : Pool Hub ServerPc Unit,
    announced Q.shared = ["m1"] ∧ (announced Q.shared).Nodup ∧ Stored Q.shared "m1" := by
  obtain ⟨Q, hrun, hQ⟩ := said
  obtain ⟨hnodup, hstored⟩ := announced_once rfl hrun
  exact ⟨Q, hQ, hnodup, hstored "m1" (by rw [hQ]; exact List.mem_singleton.2 rfl)⟩

theorem told_stored_m1 : ∃ Q : Pool Hub ServerPc Unit,
    announced Q.shared = ["m1"] ∧
      Truthful {} (fun _ => none) Messages.noJson saying hubQuiet Q := by
  obtain ⟨Q, hrun, hQ⟩ := said
  refine ⟨Q, hQ, told_stored rfl ?_ hrun⟩
  intro _ p h
  cases h
  rfl

end Intaktok.Realtime
