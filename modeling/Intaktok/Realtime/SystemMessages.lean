import Intaktok.Realtime.MediaReferences
import Intaktok.Messages.Numbers
/-
# System messages are the server's own

`messagePreview` (`preview.ts`) parses the content of a `SYSTEM` message as it stands. A client may
name that type, but `validatePayload` turns it away, and `softDelete` refuses such a message; so
whatever is in flight, a system message has been written by `createSystemMessage` and stays as it
was written (`system_sound`).
-/

namespace Intaktok.Realtime

open Interleave Tables
open Messages (CreateMessageParams CreatePc CreateActs Json SystemMessagePayload systemParams unsend
  messagePreview)

/-! ## What an action does to the messages -/

/-- The message a process is unsending, and how far it has come. -/
def deletion : ServerCall → ServerPc → Option (String × Messages.DeletePc)
  | .inl (.inr (.messageDelete _ body)), .inl (.inr (.delete (.softDelete _ pc))) =>
    match (body.getD {}).messageId with
    | .str messageId => some (messageId, pc)
    | _ => none
  | .inr ⟨.messages, .softDelete _ messageId _⟩, .inr ⟨.messages, .delete pc⟩ =>
    some (messageId, pc)
  | _, _ => none

/-- What an action leaves of the messages: all as they were; one more, which its creation inserts;
or one of them unsent. -/
inductive Alters (json : Json) (c : Choice) (w w' : World) (k : ServerCall) (l : ServerPc) : Prop
  | same : w'.db.messages.rows = w.db.messages.rows → Alters json c w w' k l
  | inserted {p a seq type} : creation json k l = some (p, .insert a seq) → p.type = some type →
      w'.db.messages.rows = w.db.messages.rows ++ [p.row type c.id seq w.now] →
      Alters json c w w' k l
  | unsent {messageId d} : deletion k l = some (messageId, .update d) →
      w'.db.messages.rows =
        w.db.messages.rows.map (fun x => if x.id == messageId then unsend d x else x) →
      Alters json c w w' k l

section Step
variable {cfg : AppConfig} {decode : String → Option Jwt} {json : Json} {c : Choice} {h h' : Hub}

theorem alters_of_acts {k : ServerCall} {l : ServerPc} {p : CreateMessageParams} {w w' : World}
    {pc pc' : CreatePc} (hk : creation json k l = some (p, pc))
    (hacts : CreateActs json c p w pc w' pc') : Alters json c w w' k l := by
  cases hacts.effect with
  | inserted _ htype ht _ => exact .inserted hk htype (Table.insert_ok ht).2
  | _ => exact .same rfl

theorem alters_of_delete {roomId messageId requesterId : String} {k : ServerCall} {l : ServerPc}
    {w w' : World} {pc pc' : Messages.DeletePc} (hk : deletion k l = some (messageId, pc))
    (hs : Messages.deleteStep cfg roomId messageId requesterId w pc = some (w', pc')) :
    Alters json c w w' k l := by
  cases pc with
  | find => cases hs; exact .same rfl
  | update d =>
    simp only [Messages.deleteStep] at hs
    split at hs <;> cases hs
    · exact .unsent hk rfl
    · exact .same rfl
  | members => cases hs; exact .same rfl
  | done r => cases hs

theorem alters_tail {k : ServerCall} {l : ServerPc} {w w' : World} {pc pc' : Rooms.Pc}
    (ht : Rooms.TailCreates json c w pc w' pc') (hl : creation json k l = tailCreation json pc) :
    Alters json c w w' k l := by
  cases ht with
  | creates hacts => exact alters_of_acts (hl.trans rfl) hacts
  | other _ hm _ => exact .same (by rw [hm])

theorem alters_service {s : Service} {call : s.Call} {pc pc' : s.Pc} {w w' : World}
    (hs : (s.machine cfg json).step c call w pc = some (w', pc')) :
    Alters json c w w' (.inr ⟨s, call⟩) (.inr ⟨s, pc⟩) := by
  cases s with
  | auth => obtain ⟨_, _, _, _, _, rfl⟩ := Auth.step_db hs; exact .same rfl
  | admin => obtain ⟨⟨_, _, hdb⟩, -⟩ := Admin.step_db hs; exact .same (by rw [hdb])
  | whitelist => obtain ⟨_, _, rfl⟩ := Admin.entryStep_db hs; exact .same rfl
  | messages =>
    cases Messages.acts_of_step hs with
    | create hcreate => exact alters_of_acts rfl (Messages.acts_of_createStep hcreate)
    | read hread =>
      obtain ⟨⟨_, hdb⟩, -⟩ := Messages.readStep_db hread
      exact .same (by rw [hdb])
    | delete hdelete => exact alters_of_delete rfl hdelete
  | rooms => exact alters_tail (Rooms.step_creates hs) rfl
  | roomUpdates =>
    cases call with
    | updateRoom roomId actorId dto =>
      rcases @Rooms.updateStep_creates json c roomId actorId dto w w' pc pc' hs with
        ⟨q, q', rfl, rfl, ht⟩ | ⟨-, hm, -⟩
      · exact alters_tail ht rfl
      · exact .same (by rw [hm])
  | push => obtain ⟨_, _, rfl⟩ := Push.step_db hs; exact .same rfl
  | media => obtain ⟨_, _, rfl⟩ := MediaService.step_db hs; exact .same rfl
  | profile => obtain ⟨_, rfl⟩ := ProfileService.step_db hs; exact .same rfl

theorem alters_event {call : EventCall} {pc pc' : EventPc}
    (hs : eventStep cfg json c call h pc = some (h', pc')) :
    Alters json c h.world h'.world (.inl (.inr call)) (.inl (.inr pc)) := by
  cases acts_of_event hs with
  | send hsend =>
    cases hsend with
    | create hcreate => exact alters_of_acts rfl (Messages.acts_of_createStep hcreate)
    | _ => exact .same rfl
  | delete hacts =>
    cases hacts with
    | delete hm hdelete => exact alters_of_delete (by simp only [deletion, hm]) hdelete
    | _ => exact .same rfl
  | @join id roomId pc _ _ hjoin => cases pc <;> cases hjoin <;> exact .same rfl
  | leave hleave =>
    obtain ⟨-, ⟨lastSeenAt, hdb⟩, -⟩ := disconnectStep_world hleave
    exact .same (by rw [hdb])

/-- Every action of the server. -/
theorem alters_of_step {k : ServerCall} {l l' : ServerPc}
    (hs : (server cfg decode json).step c k h l = some (h', l')) :
    Alters json c h.world h'.world k l := by
  obtain ⟨h₁, hacts, rfl⟩ := server_step hs
  rw [world_deliver]
  cases hacts with
  | socket hsocket =>
    cases acts_of_socket hsocket with
    | connect hconnect => exact .same (by rw [(connectStep_world hconnect).1])
    | read hread =>
      obtain ⟨w, rfl, ⟨members, hdb⟩, -⟩ := onReadStep_world hread
      exact .same (by rw [hdb])
  | event hevent => exact alters_event hevent
  | service hservice => exact alters_service hservice

/-! ## What a process has found out -/

/-- A creation at which `validatePayload` is still to come, or which is over. -/
def unvalidated : CreatePc → Bool
  | .lookup _ | .member | .done _ => true
  | _ => false

/-- Only `createSystemMessage` gets past the validation with the type `SYSTEM`. -/
def Vetted (p : CreateMessageParams) (pc : CreatePc) : Prop :=
  p.isSystem = true ∨ p.type ≠ some .SYSTEM ∨ unvalidated pc = true

theorem unvalidated_createStart {p : CreateMessageParams} (hs : p.isSystem = false) :
    unvalidated (Messages.createStart p) = true := by
  unfold Messages.createStart Messages.afterLookup
  rw [hs]
  split <;> rfl

theorem vetted_createStart (p : CreateMessageParams) : Vetted p (Messages.createStart p) := by
  cases hs : p.isSystem with
  | true => exact .inl hs
  | false => exact .inr (.inr (unvalidated_createStart hs))

theorem vetted_of_acts {p : CreateMessageParams} {w w' : World} {pc pc' : CreatePc}
    (hv : Vetted p pc) (hacts : CreateActs json c p w pc w' pc') : Vetted p pc' := by
  rcases hv with hv | hv | hv
  · exact .inl hv
  · exact .inr (.inl hv)
  cases hacts with
  | found => exact .inr (.inr rfl)
  | missed =>
    by_cases hs : p.isSystem = true
    · exact .inl hs
    · exact .inr (.inr (by simp only [Messages.afterLookup, if_neg hs]; rfl))
  | notMember => exact .inr (.inr rfl)
  | member =>
    by_cases ht : p.type = some .SYSTEM
    · refine .inr (.inr ?_)
      simp only [Messages.afterMember, Messages.validatePayload, ht]
      rfl
    · exact .inr (.inl ht)
  | _ => cases hv

theorem vetted_of_begins {q : Option (CreateMessageParams × CreatePc)} (hb : Begins q)
    {p : CreateMessageParams} {pc : CreatePc} (hq : q = some (p, pc)) : Vetted p pc := by
  obtain ⟨p', rfl, hs | rfl⟩ := hb p pc hq
  · exact .inl hs
  · exact vetted_createStart p'

/-- The message about to be unsent is there, and is no system message. -/
def Aimed (db : Db) (k : ServerCall) (l : ServerPc) : Prop :=
  ∀ messageId d, deletion k l = some (messageId, .update d) →
    ∃ x ∈ db.messages.rows, x.id = messageId ∧ x.type ≠ .SYSTEM

/-- `softDelete` has looked at the message. -/
theorem found_of_update {roomId messageId requesterId : String} {w w' : World}
    {pc : Messages.DeletePc} {d : Nat}
    (hs : Messages.deleteStep cfg roomId messageId requesterId w pc = some (w', .update d)) :
    ∃ x ∈ w'.db.messages.rows, x.id = messageId ∧ x.type ≠ .SYSTEM := by
  cases pc <;> simp only [Messages.deleteStep] at hs
  case find =>
    simp only [Option.some.injEq, Prod.mk.injEq] at hs
    obtain ⟨rfl, hs⟩ := hs
    split at hs
    · cases hs
    · rename_i x hf
      obtain ⟨hx, hid⟩ := Table.find_some hf
      split at hs
      · cases hs
      · split at hs
        · cases hs
        · rename_i htype; exact ⟨x, hx, by simpa using hid, htype⟩
  case update d' => split at hs <;> cases hs
  case members => cases hs
  case done r => cases hs

theorem aimed_of_step {k : ServerCall} {l l' : ServerPc}
    (hs : (server cfg decode json).step c k h l = some (h', l')) : Aimed h'.world.db k l' := by
  intro messageId d hd
  obtain ⟨h₁, hacts, rfl⟩ := server_step hs
  rw [world_deliver]
  cases hacts with
  | socket hsocket => cases hd
  | event hevent =>
    cases acts_of_event hevent with
    | @delete id body pc _ _ hacts =>
      cases hacts with
      | refused => cases hd
      | received => simp only [deletion] at hd; split at hd <;> cases hd
      | @delete _ _ _ _ _ pc₁ hm hdelete =>
        cases pc₁ with
        | update d' =>
          simp only [deleteReturns, deletion, hm, Option.some.injEq, Prod.mk.injEq] at hd
          obtain ⟨rfl, -⟩ := hd
          exact found_of_update hdelete
        | done r => rcases r with e | ⟨⟩ <;> cases hd
        | _ => simp [deleteReturns, deletion, hm] at hd
    | _ => cases hd
  | @service s call pc pc' w hservice =>
    cases s with
    | messages =>
      cases Messages.acts_of_step hservice with
      | delete hdelete =>
        cases hd
        exact found_of_update hdelete
      | _ => cases hd
    | _ => cases hd

/-- A message is never deleted, and stays of its type. -/
theorem Alters.there {w w' : World} {k : ServerCall} {l : ServerPc} (ha : Alters json c w w' k l)
    {x : Message} (hx : x ∈ w.db.messages.rows) :
    ∃ y ∈ w'.db.messages.rows, y.id = x.id ∧ y.type = x.type := by
  cases ha with
  | same hrows => exact ⟨x, hrows ▸ hx, rfl, rfl⟩
  | inserted _ _ hrows => exact ⟨x, hrows ▸ List.mem_append_left _ hx, rfl, rfl⟩
  | unsent _ hrows =>
    rw [hrows]
    refine ⟨_, List.mem_map_of_mem hx, ?_⟩
    split <;> exact ⟨rfl, rfl⟩

theorem Aimed.kept {w w' : World} {k k₂ : ServerCall} {l l₂ : ServerPc}
    (ha : Alters json c w w' k l) (h₂ : Aimed w.db k₂ l₂) : Aimed w'.db k₂ l₂ := by
  intro messageId d hd
  obtain ⟨x, hx, hid, htype⟩ := h₂ messageId d hd
  obtain ⟨y, hy, hyid, hytype⟩ := ha.there hx
  exact ⟨y, hy, hyid.trans hid, fun ht => htype (hytype ▸ ht)⟩

/-- Nobody unsends a system message. -/
theorem Alters.stays {w w' : World} {k : ServerCall} {l : ServerPc} (ha : Alters json c w w' k l)
    (haim : Aimed w.db k l) {x : Message} (hx : x ∈ w.db.messages.rows) (ht : x.type = .SYSTEM) :
    x ∈ w'.db.messages.rows := by
  cases ha with
  | same hrows => exact hrows ▸ hx
  | inserted _ _ hrows => exact hrows ▸ List.mem_append_left _ hx
  | unsent hd hrows =>
    obtain ⟨y, hy, hid, hno⟩ := haim _ _ hd
    rw [hrows, List.mem_map]
    refine ⟨x, hx, if_neg fun he => ?_⟩
    rw [messages_eq_of_id hx hy ((beq_iff_eq.1 he).trans hid.symm)] at ht
    exact hno ht

/-- A system message is there already, or its creation inserts it. -/
theorem Alters.system {w w' : World} {k : ServerCall} {l : ServerPc} (ha : Alters json c w w' k l)
    (haim : Aimed w.db k l) (hv : ∀ p pc, creation json k l = some (p, pc) → Vetted p pc)
    {x : Message} (hx : x ∈ w'.db.messages.rows) (ht : x.type = .SYSTEM) :
    x ∈ w.db.messages.rows ∨ ∃ p a seq, creation json k l = some (p, .insert a seq) ∧
      p.isSystem = true ∧ x = p.row .SYSTEM c.id seq w.now := by
  cases ha with
  | same hrows => exact .inl (hrows ▸ hx)
  | @inserted p a seq type hk htype hrows =>
    rw [hrows, List.mem_append, List.mem_singleton] at hx
    refine hx.imp_right ?_
    rintro rfl
    obtain rfl : type = .SYSTEM := ht
    refine ⟨p, a, seq, hk, ?_, rfl⟩
    rcases hv p _ hk with hsys | hno | hearly
    · exact hsys
    · exact absurd htype hno
    · cases hearly
  | unsent hd hrows =>
    rw [hrows] at hx
    obtain ⟨y, hy, hxy⟩ := List.mem_map.1 hx
    obtain ⟨z, hz, hid, hno⟩ := haim _ _ hd
    split at hxy
    · rename_i hyid
      have hyz : y = z := messages_eq_of_id hy hz ((beq_iff_eq.1 hyid).trans hid.symm)
      subst hxy hyz
      exact absurd ht hno
    · exact .inl (hxy ▸ hy)

end Step

/-! ## Runs -/

/-- No client message gets past its validation as a system message, and none is about to unsend
one. -/
def guarding (json : Json) : Outline Hub ServerCall ServerPc where
  glob _ := True
  own k h l := (∀ p pc, creation json k l = some (p, pc) → Vetted p pc) ∧ Aimed h.world.db k l
  apart _ _ _ _ := True

theorem guarding_valid {cfg : AppConfig} {decode : String → Option Jwt} {json : Json}
    {D : Discipline Hub ServerCall ServerPc} :
    (guarding json).Valid (server cfg decode json) D Outline.top where
  move {c k h l h' l'} a := by
    refine ⟨trivial, fun p pc hp => ?_, aimed_of_step a.step⟩
    rcases creation_step a.step with hb | ⟨p', pc₀, w', pc₁, hk, hacts, hk'⟩
    · exact vetted_of_begins hb hp
    · obtain ⟨rfl, rfl⟩ := Prod.mk.inj (Option.some.inj (hk'.symm.trans hp))
      exact vetted_of_acts (a.own.1 _ _ hk) hacts
  keep {c k h l h' l' k₂ l₂} a b :=
    ⟨⟨b.own.1, b.own.2.kept (alters_of_step a.step)⟩, trivial⟩
  symm _ := trivial
  env e {h} _ := by
    refine ⟨trivial, fun {k l} ho => ⟨ho.1, ?_⟩⟩
    have hdb : ((server cfg decode json).env e h).world.db = h.world.db := db_env cfg e h
    rw [hdb]
    exact ho.2

theorem aimed_start (cfg : AppConfig) (decode : String → Option Jwt) (json : Json) (db : Db)
    (k : ServerCall) : Aimed db k ((server cfg decode json).start k) := by
  intro messageId d hd
  rcases k with (call | call) | ⟨s, call⟩
  · cases hd
  · cases call <;> cases hd
  · cases s with
    | messages => cases call <;> cases hd
    | _ => cases hd

/-- The content of the message is the payload. -/
def Carries (json : Json) (m : Message) (payload : SystemMessagePayload) : Prop :=
  ∃ content, m.content = some content ∧ json.parse content = some payload

theorem preview_of_carries {json : Json} {m : Message}
    (h : m.type = .SYSTEM → ∃ payload, Carries json m payload) :
    messagePreview json m.type m.content ≠ none := by
  cases ht : m.type with
  | SYSTEM =>
    obtain ⟨payload, content, hc, hp⟩ := h ht
    rw [hc]
    by_cases he : content = ""
    · simp [messagePreview, truthy, Option.filter, he]
    · simp [messagePreview, truthy_some he, hp]
  | _ => exact Option.some_ne_none _

theorem view_of_preview {json : Json} {r : Rooms.RoomWithMembers}
    (h : ∀ m, r.last = some m → messagePreview json m.type m.content ≠ none)
    (found : List String) (n : Nat) : Rooms.buildView json r found n ≠ none := by
  unfold Rooms.buildView
  cases hl : r.last with
  | none => exact Option.some_ne_none _
  | some m =>
    obtain ⟨preview, hp⟩ := Option.ne_none_iff_exists'.1 (h m hl)
    cases hd : m.deletedAt <;> simp [hp, hd]

section Runs
variable {ι : Type} [DecidableEq ι] {cfg : AppConfig} {decode : String → Option Jwt} {json : Json}
  {calls : ι → ServerCall} {hub : Hub} {P Q R : Pool Hub ServerPc ι}

theorem guarding_run
    (hrun : Run (server cfg decode json) Discipline.free calls
      ((server cfg decode json).initial calls hub) Q) : (guarding json).Holds calls Q := by
  have h0 : (guarding json).Holds calls ((server cfg decode json).initial calls hub) :=
    ⟨trivial, fun i => ⟨fun p pc hp => vetted_of_begins (begins_start cfg decode json (calls i)) hp,
      aimed_start cfg decode json hub.world.db (calls i)⟩, fun _ _ _ => trivial⟩
  exact guarding_valid.run (fun _ => Outline.top_holds calls _) h0 hrun

/-- The process is about to insert the message, as `createSystemMessage` has asked for it. -/
def WritesSystem (json : Json) (calls : ι → ServerCall) (m : Message)
    (payload : SystemMessagePayload) (R : Pool Hub ServerPc ι) (i : ι) : Prop :=
  ∃ attempt seq, creation json (calls i) (R.pcs i) =
    some (systemParams json m.roomId m.senderId payload, .insert attempt seq)

/-- The system messages on the way from `P` by `R` to `Q`. -/
structure SystemSound (cfg : AppConfig) (decode : String → Option Jwt) (json : Json)
    (calls : ι → ServerCall) (P R Q : Pool Hub ServerPc ι) : Prop where
  written : ∀ m ∈ Q.shared.world.db.messages.rows, m.type = .SYSTEM →
    m ∉ P.shared.world.db.messages.rows → ∃ payload, Carries json m payload ∧
      Brought (server cfg decode json) Discipline.free calls P
        (fun h => m ∈ h.world.db.messages.rows) (WritesSystem json calls m payload) Q
  kept : ∀ m ∈ R.shared.world.db.messages.rows, m.type = .SYSTEM →
    m ∈ Q.shared.world.db.messages.rows
  decoded : ∀ m ∈ Q.shared.world.db.messages.rows, m.type = .SYSTEM →
    ∃ payload, Carries json m payload
  previewed : ∀ m ∈ Q.shared.world.db.messages.rows, messagePreview json m.type m.content ≠ none
  /-- A view of a room whose last message was there at any time. -/
  viewed : ∀ r : Rooms.RoomWithMembers,
    (∀ m, r.last = some m → m ∈ Q.shared.world.db.messages.rows) →
      ∀ found unreadCount, Rooms.buildView json r found unreadCount ≠ none

theorem system_brought
    (hclient : ∀ i p, calls i = .inr ⟨.messages, .createMessage p⟩ → p.isSystem = false)
    (hjson : ∀ payload, json.parse (json.stringify payload) = some payload)
    (hrun : Run (server cfg decode json) Discipline.free calls
      ((server cfg decode json).initial calls hub) Q) {m : Message}
    (hm : m ∈ Q.shared.world.db.messages.rows) (ht : m.type = .SYSTEM)
    (hnew : m ∉ hub.world.db.messages.rows) : ∃ payload, Carries json m payload ∧
      Brought (server cfg decode json) Discipline.free calls
        ((server cfg decode json).initial calls hub) (fun h => m ∈ h.world.db.messages.rows)
        (WritesSystem json calls m payload) Q := by
  have hb : Brought (server cfg decode json) Discipline.free calls
      ((server cfg decode json).initial calls hub) (fun h => m ∈ h.world.db.messages.rows)
      (fun R i => ∃ payload, Carries json m payload ∧ WritesSystem json calls m payload R i) Q := by
    refine hrun.brought hnew ?_ ?_ hm
    · intro R i c h' l' hr _ hs hno hyes
      obtain ⟨hvetted, haimed⟩ := (guarding_run hr).own i
      rcases (alters_of_step hs).system haimed hvetted hyes ht with
        hold | ⟨p, a, seq, hk, hsys, rfl⟩
      · exact absurd hold hno
      obtain ⟨r, actorId, payload, rfl⟩ := systemParams_of_creation (hclient i) hk hsys
      exact ⟨payload, ⟨_, rfl, hjson payload⟩, a, seq, hk⟩
    · intro e h hyes
      have hdb : ((server cfg decode json).env e h).world.db = h.world.db := db_env cfg e h
      exact hdb ▸ hyes
  obtain ⟨R, i, -, ⟨payload, hcar, -⟩, -⟩ := hb.happened
  refine ⟨payload, hcar, hb.imp ?_⟩
  rintro R i - ⟨payload', hcar', hw⟩
  obtain ⟨content, hc, hp⟩ := hcar
  obtain ⟨content', hc', hp'⟩ := hcar'
  obtain rfl : content = content' := Option.some.inj (hc.symm.trans hc')
  obtain rfl : payload = payload' := Option.some.inj (hp.symm.trans hp')
  exact hw

/-- A system message stays as it is. -/
theorem system_kept
    (hR : Run (server cfg decode json) Discipline.free calls
      ((server cfg decode json).initial calls hub) R)
    (hQ : Run (server cfg decode json) Discipline.free calls R Q) {m : Message}
    (hm : m ∈ R.shared.world.db.messages.rows) (ht : m.type = .SYSTEM) :
    m ∈ Q.shared.world.db.messages.rows := by
  refine hQ.invariant (fun Q => m ∈ Q.shared.world.db.messages.rows) hm ?_ ?_
  · intro S i c h' l' hS hin _ hs
    exact (alters_of_step hs).stays ((guarding_run (hR.trans hS)).own i).2 hin ht
  · intro S e hin
    have hdb : ((server cfg decode json).env e S.shared).world.db = S.shared.world.db :=
      db_env cfg e S.shared
    exact hdb ▸ hin

/-- **System messages cannot be forged and always decode.** A system message has been written by
`createSystemMessage` and stays as it was written; so no message keeps a room from being shown. -/
theorem system_sound
    (hclient : ∀ i p, calls i = .inr ⟨.messages, .createMessage p⟩ → p.isSystem = false)
    (hjson : ∀ payload, json.parse (json.stringify payload) = some payload)
    (hold : ∀ m ∈ hub.world.db.messages.rows, m.type = .SYSTEM → ∃ payload, Carries json m payload)
    (hR : Run (server cfg decode json) Discipline.free calls
      ((server cfg decode json).initial calls hub) R)
    (hQ : Run (server cfg decode json) Discipline.free calls R Q) :
    SystemSound cfg decode json calls ((server cfg decode json).initial calls hub) R Q := by
  have hdecoded : ∀ m ∈ Q.shared.world.db.messages.rows, m.type = .SYSTEM →
      ∃ payload, Carries json m payload := by
    intro m hm ht
    by_cases hin : m ∈ hub.world.db.messages.rows
    · exact hold m hin ht
    · obtain ⟨payload, hcar, -⟩ := system_brought hclient hjson (hR.trans hQ) hm ht hin
      exact ⟨payload, hcar⟩
  constructor
  · exact fun m hm ht hnew => system_brought hclient hjson (hR.trans hQ) hm ht hnew
  · exact fun m hm ht => system_kept hR hQ hm ht
  · exact hdecoded
  · exact fun m hm => preview_of_carries (hdecoded m hm)
  · exact fun r hr found n =>
      view_of_preview (fun m hl => preview_of_carries (hdecoded m (hr m hl))) found n

end Runs

/-! ### A group that announces itself -/

/-- A character of a JSON string. -/
def escaped (c : Char) : List Char :=
  if c = '\u0000' then ['\\', 'u', '0', '0', '0', '0']
  else if c = '"' ∨ c = '\\' then ['\\', c] else [c]

def quoted (s : String) : List Char := '"' :: s.toList.flatMap escaped ++ ['"']

/-- The strings in a JSON text; of the one being read, whether a backslash has just been, and what
there is so far, in reverse. -/
def jsonStrings : Option (Bool × List Char) → List Char → List String
  | _, [] => []
  | none, c :: cs => jsonStrings (if c = '"' then some (false, []) else none) cs
  | some (true, s), 'u' :: '0' :: '0' :: '0' :: '0' :: cs =>
    jsonStrings (some (false, '\u0000' :: s)) cs
  | some (true, s), c :: cs => jsonStrings (some (false, c :: s)) cs
  | some (false, s), c :: cs =>
    if c = '"' then String.ofList s.reverse :: jsonStrings none cs
    else if c = '\\' then jsonStrings (some (true, s)) cs
    else jsonStrings (some (false, c :: s)) cs

@[simp] theorem jsonStrings_nil (reading : Option (Bool × List Char)) :
    jsonStrings reading [] = [] := by
  rcases reading with _ | ⟨⟨⟩, _⟩ <;> rfl

theorem jsonStrings_inside (s inside cs : List Char) :
    jsonStrings (some (false, inside)) (s.flatMap escaped ++ '"' :: cs) =
      String.ofList (inside.reverse ++ s) :: jsonStrings none cs := by
  induction s generalizing inside with
  | nil => simp [jsonStrings]
  | cons c s ih =>
    rw [List.flatMap_cons, List.append_assoc, escaped]
    split
    · subst c
      simp [jsonStrings, ih]
    · split
      · rename_i hc
        rcases hc with rfl | rfl <;> simp [jsonStrings, ih]
      · rename_i hc
        rw [not_or] at hc
        simp [jsonStrings, hc.1, hc.2, ih]

@[simp] theorem jsonStrings_quoted (s : String) (cs : List Char) :
    jsonStrings none (quoted s ++ cs) = s :: jsonStrings none cs := by
  simp [quoted, jsonStrings, jsonStrings_inside]

@[simp] theorem jsonStrings_punct {c : Char} (hc : c ≠ '"') (cs : List Char) :
    jsonStrings none (c :: cs) = jsonStrings none cs := by
  simp [jsonStrings, hc]

def jsonArray : List String → List Char
  | [] => []
  | [s] => quoted s
  | s :: ss => quoted s ++ ',' :: jsonArray ss

theorem jsonStrings_array (ss : List String) (cs : List Char) :
    jsonStrings none (jsonArray ss ++ cs) = ss ++ jsonStrings none cs := by
  induction ss with
  | nil => rfl
  | cons s ss ih =>
    cases ss with
    | nil => simp [jsonArray]
    | cons s' ss => simp [jsonArray, ih]

/-- The members of an object. -/
def jsonObject : List (String × List Char) → List Char
  | [] => ['}']
  | [(k, v)] => quoted k ++ ':' :: v ++ ['}']
  | (k, v) :: kvs => quoted k ++ ':' :: v ++ ',' :: jsonObject kvs

def roleText : MemberRole → String
  | .OWNER => "OWNER"
  | .ADMIN => "ADMIN"
  | .MEMBER => "MEMBER"

def payloadMembers : SystemMessagePayload → List (String × List Char)
  | .roomCreated a => [("code", quoted "ROOM_CREATED"), ("actorId", quoted a)]
  | .memberJoined a ts => [("code", quoted "MEMBER_JOINED"), ("actorId", quoted a),
      ("targetIds", '[' :: jsonArray ts ++ [']'])]
  | .memberLeft a => [("code", quoted "MEMBER_LEFT"), ("actorId", quoted a)]
  | .memberKicked a t => [("code", quoted "MEMBER_KICKED"), ("actorId", quoted a),
      ("targetId", quoted t)]
  | .roomRenamed a name => [("code", quoted "ROOM_RENAMED"), ("actorId", quoted a),
      ("name", (name.map quoted).getD "null".toList)]
  | .roomAvatarChanged a => [("code", quoted "ROOM_AVATAR_CHANGED"), ("actorId", quoted a)]
  | .roleChanged a t role => [("code", quoted "ROLE_CHANGED"), ("actorId", quoted a),
      ("targetId", quoted t), ("role", quoted (roleText role))]

def payloadOf : List String → Option SystemMessagePayload
  | ["code", "ROOM_CREATED", "actorId", a] => some (.roomCreated a)
  | "code" :: "MEMBER_JOINED" :: "actorId" :: a :: "targetIds" :: ts => some (.memberJoined a ts)
  | ["code", "MEMBER_LEFT", "actorId", a] => some (.memberLeft a)
  | ["code", "MEMBER_KICKED", "actorId", a, "targetId", t] => some (.memberKicked a t)
  | ["code", "ROOM_RENAMED", "actorId", a, "name"] => some (.roomRenamed a none)
  | ["code", "ROOM_RENAMED", "actorId", a, "name", name] => some (.roomRenamed a (some name))
  | ["code", "ROOM_AVATAR_CHANGED", "actorId", a] => some (.roomAvatarChanged a)
  | ["code", "ROLE_CHANGED", "actorId", a, "targetId", t, "role", "OWNER"] =>
    some (.roleChanged a t .OWNER)
  | ["code", "ROLE_CHANGED", "actorId", a, "targetId", t, "role", "ADMIN"] =>
    some (.roleChanged a t .ADMIN)
  | ["code", "ROLE_CHANGED", "actorId", a, "targetId", t, "role", "MEMBER"] =>
    some (.roleChanged a t .MEMBER)
  | _ => none

@[simp] theorem nul_not_mem_escaped (c : Char) : '\u0000' ∉ escaped c := by
  unfold escaped
  split
  · decide
  · rename_i hc
    split
    · simp [Ne.symm hc]
    · simpa using Ne.symm hc

@[simp] theorem nul_not_mem_quoted (s : String) : '\u0000' ∉ quoted s := by
  simp [quoted]

@[simp] theorem nul_not_mem_jsonArray (ss : List String) : '\u0000' ∉ jsonArray ss := by
  fun_induction jsonArray ss <;> simp_all

theorem nul_not_mem_jsonObject {kvs : List (String × List Char)}
    (h : ∀ kv ∈ kvs, '\u0000' ∉ kv.2) : '\u0000' ∉ jsonObject kvs := by
  fun_induction jsonObject kvs <;> simp_all

theorem nul_not_mem_payloadMembers (payload : SystemMessagePayload) :
    ∀ kv ∈ payloadMembers payload, '\u0000' ∉ kv.2 := by
  cases payload with
  | roomRenamed a name => cases name <;> simp [payloadMembers]
  | _ => simp [payloadMembers]

/-- `JSON.stringify` and `JSON.parse` on payloads whose only control character is U+0000. -/
def plainJson : Json where
  stringify payload := String.ofList ('{' :: jsonObject (payloadMembers payload))
  parse content := payloadOf (jsonStrings none content.toList)
  stringify_storable payload := by
    simp [Messages.storable, nul_not_mem_jsonObject (nul_not_mem_payloadMembers payload)]

/-- The strings of a payload, keys and values in their order. -/
def payloadStrings : SystemMessagePayload → List String
  | .roomCreated a => ["code", "ROOM_CREATED", "actorId", a]
  | .memberJoined a ts => "code" :: "MEMBER_JOINED" :: "actorId" :: a :: "targetIds" :: ts
  | .memberLeft a => ["code", "MEMBER_LEFT", "actorId", a]
  | .memberKicked a t => ["code", "MEMBER_KICKED", "actorId", a, "targetId", t]
  | .roomRenamed a name => "code" :: "ROOM_RENAMED" :: "actorId" :: a :: "name" :: name.toList
  | .roomAvatarChanged a => ["code", "ROOM_AVATAR_CHANGED", "actorId", a]
  | .roleChanged a t role =>
    ["code", "ROLE_CHANGED", "actorId", a, "targetId", t, "role", roleText role]

theorem jsonStrings_payload (payload : SystemMessagePayload) :
    jsonStrings none ('{' :: jsonObject (payloadMembers payload)) = payloadStrings payload := by
  cases payload with
  | memberJoined a ts => simp [payloadMembers, jsonObject, jsonStrings_array, payloadStrings]
  | roomRenamed a name => cases name <;> simp [payloadMembers, jsonObject, payloadStrings]
  | _ => simp [payloadMembers, jsonObject, payloadStrings]

theorem payloadOf_strings (payload : SystemMessagePayload) :
    payloadOf (payloadStrings payload) = some payload := by
  cases payload with
  | roomRenamed a name => cases name <;> rfl
  | roleChanged a t role => cases role <;> rfl
  | _ => rfl

theorem plainJson_parse (payload : SystemMessagePayload) :
    plainJson.parse (plainJson.stringify payload) = some payload := by
  simp only [plainJson, String.toList_ofList]
  rw [jsonStrings_payload, payloadOf_strings]

/-- The group of `a`, and what `b` would have pass for a system message. -/
def forging : Bool → ServerCall
  | false => .inr ⟨.rooms, .createRoom "a" { type := .GROUP, memberUserIds := ["b"] }⟩
  | true => .inr ⟨.messages, .createMessage
      { roomId := "r1", senderId := "b", type := some .SYSTEM, content := some "?" }⟩

def hubUsers : Hub where
  world := { db.users := Messages.usersAB }

def isRejected (e : AppException) : ServerPc → Bool
  | .inr ⟨.messages, .create (.done (.error e'))⟩ => e' == .app e
  | _ => false

/-- The group announces itself, and `b` is turned away. -/
theorem system_sound_forging : ∃ R Q : Pool Hub ServerPc Bool,
    SystemSound {} (fun _ => none) plainJson forging
      ((server {} (fun _ => none) plainJson).initial forging hubUsers) R Q ∧
    (∃ m ∈ R.shared.world.db.messages.rows, m.type = .SYSTEM) ∧
    isRejected (Errors.validation "허용되지 않은 메시지 타입입니다.") (Q.pcs true) = true := by
  have hexec : ((server {} (fun _ => none) plainJson).exec always forging
      ((server {} (fun _ => none) plainJson).initial forging hubUsers)
      (List.replicate 9 (.step false { id := "r1" }))).any (fun R =>
        R.shared.world.db.messages.rows.any (·.type == .SYSTEM) &&
        ((server {} (fun _ => none) plainJson).exec always forging R
          [.step true {}, .step false {}]).any fun Q =>
            isRejected (Errors.validation "허용되지 않은 메시지 타입입니다.") (Q.pcs true)) = true := by
    decide
  obtain ⟨R, hR, h⟩ := Machine.exec_reaches_free hexec
  rw [Bool.and_eq_true] at h
  obtain ⟨Q, hQ, hrej⟩ := Machine.exec_reaches_free h.2
  have hclient : ∀ i p, forging i = .inr ⟨.messages, .createMessage p⟩ → p.isSystem = false := by
    rintro i p hi
    cases i <;> cases hi
    rfl
  refine ⟨R, Q, system_sound hclient plainJson_parse (fun _ hm => (List.not_mem_nil hm).elim) hR hQ,
    ?_, hrej⟩
  obtain ⟨m, hm, ht⟩ := List.any_eq_true.1 h.1
  exact ⟨m, hm, beq_iff_eq.1 ht⟩

end Intaktok.Realtime
