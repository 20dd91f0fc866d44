import Intaktok.Messages.Verdict
import Intaktok.Lib.Hosting
/-
# What a lone request to `MessagesService` changes

`changes` reads off the state a request starts in whether it is going to write to the database. A
request that is not changes nothing and emits nothing, however far it comes (`quiet_iff`), and
neither does one that fails (`unchanged_of_failed`).
-/

namespace Intaktok.Messages

open Interleave Tables

def Verdict.inserts : Verdict → Bool
  | .accepted _ => true
  | _ => false

/-- `markRead` finds a row to advance. -/
def advances (roomId userId : WhereString) (db : Db) : JsNumber → Bool
  | .other => false
  | .int n => !(!roomId.valid || !userId.valid || n < -(bigIntEnd : Int) || bigIntEnd ≤ n) &&
      db.roomMembers.rows.any (reads roomId userId n.toNat)

/-- A message of the requester that is not unsent, and may still be. -/
def unsendable (cfg : AppConfig) (roomId requesterId : String) (now : Nat) (m : Message) : Bool :=
  m.roomId == roomId && m.type != .SYSTEM && m.senderId == requesterId && m.deletedAt.isNone &&
    decide (now ≤ m.createdAt + cfg.messageUnsendWindowSec * 1000)

def unsends (cfg : AppConfig) (roomId messageId requesterId : String) (w : World) : Bool :=
  (w.db.messages.find (·.id == messageId)).any (unsendable cfg roomId requesterId w.now)

def changes (cfg : AppConfig) (w : World) : Call → Bool
  | .createMessage p => (verdict p w.db).inserts
  | .markRead r u n => advances r u w.db n
  | .softDelete r m u => unsends cfg r m u w

/-- The counter a send takes its number from is in order. -/
def Counted (w : World) : Call → Prop
  | .createMessage p => Counts p.roomId w
  | _ => True

def Pc.failed : Pc → Bool
  | .create (.done (.error _)) | .read (.done (.error _)) | .delete (.done (.error _)) => true
  | _ => false

/-- Alone the request changes nothing and emits nothing. -/
def Quiet (cfg : AppConfig) (json : Json) (call : Call) (w : World) : Prop :=
  ∀ w' pc, Solo (machine cfg json).still call w (start call) w' pc →
    w'.db = w.db ∧ w'.events = w.events

section Requests
variable {cfg : AppConfig} {json : Json} {w w' : World} {pc : Pc}

/-! ## `markRead` -/

/-- How far a lone `markRead` that started in `w` has come. -/
def ReadCourse (r u : WhereString) (n : JsNumber) (w w' : World) : Pc → Prop
  | .read .update => w' = w
  | .read (.members _) => advances r u w.db n = true
  | .read (.done (.ok _)) => advances r u w.db n = true ∨ w' = w
  | .read (.done (.error _)) => advances r u w.db n = false ∧ w' = w
  | _ => False

theorem readCourse_step {r u : WhereString} {n : JsNumber} {c : Choice} {w₁ w₂ : World}
    {pc pc' : Pc} (h : ReadCourse r u n w w₁ pc)
    (hs : step cfg json c (.markRead r u n) w₁ pc = some (w₂, pc')) :
    ReadCourse r u n w w₂ pc' := by
  cases pc with
  | read pc =>
    obtain ⟨⟨w₃, pc₃⟩, hread, he⟩ := Option.map_eq_some_iff.1 hs
    cases he
    cases pc with
    | update =>
      obtain rfl : w₁ = w := h
      cases n with
      | other => cases hread; exact ⟨rfl, rfl⟩
      | int n =>
        simp only [readStep] at hread
        split at hread
        · rename_i hout
          cases hread
          exact ⟨by rw [advances, hout]; rfl, rfl⟩
        · rename_i hin
          split at hread <;> cases hread
          · rename_i hany
            simp only [ReadCourse, advances, hin, hany, Bool.not_false, Bool.and_self]
          · exact .inr rfl
    | members n => cases hread; exact .inl h
    | done x => cases hread
  | _ => cases h

theorem quiet_markRead {r u : WhereString} {n : JsNumber} :
    Quiet cfg json (.markRead r u n) w ↔ advances r u w.db n = false := by
  constructor
  · intro hq
    rw [← Bool.not_eq_true]
    intro ha
    cases n with
    | other => cases ha
    | int n =>
      obtain ⟨hin, hany⟩ := Bool.and_eq_true_iff.1 ha
      rw [Bool.not_eq_true'] at hin
      have hupdate : (machine cfg json).still.step {} (.markRead r u (.int n)) w (.read .update) =
          some ({ w with db.roomMembers :=
            setLastReadSeq w.db.roomMembers (reads r u n.toNat) n.toNat },
            .read (.members n.toNat)) := by
        simp only [Machine.still, machine, step, readStep, hin, hany, Bool.false_eq_true, if_true,
          if_false, Option.map_some]
      -- the event of the second action
      have hev := (hq _ _ ((Solo.refl.step hupdate).step (c := {}) rfl)).2
      simp [World.emit] at hev
  · intro ha w' pc hrun
    have hcourse := hrun.invariant (ReadCourse r u n w) rfl readCourse_step fun e => e.elim
    cases pc with
    | read pc =>
      cases pc with
      | update => obtain rfl : w' = w := hcourse; exact ⟨rfl, rfl⟩
      | members l => rw [hcourse] at ha; cases ha
      | done x =>
        cases x with
        | ok _ => obtain rfl := hcourse.resolve_left (by simp [ha]); exact ⟨rfl, rfl⟩
        | error e => obtain ⟨-, rfl⟩ := hcourse; exact ⟨rfl, rfl⟩
    | _ => cases hcourse

/-! ## `softDelete` -/

/-- How far a lone `softDelete` that started in `w` has come. -/
def DeleteCourse (cfg : AppConfig) (r m u : String) (w w' : World) : Pc → Prop
  | .delete .find => w' = w
  | .delete (.update _) => unsends cfg r m u w = true ∧ w' = w
  | .delete .members => unsends cfg r m u w = true
  | .delete (.done (.ok _)) => unsends cfg r m u w = true ∨ w' = w
  | .delete (.done (.error _)) => unsends cfg r m u w = false ∧ w' = w
  | _ => False

theorem deleteCourse_step {r m u : String} {c : Choice} {w₁ w₂ : World} {pc pc' : Pc}
    (h : DeleteCourse cfg r m u w w₁ pc)
    (hs : step cfg json c (.softDelete r m u) w₁ pc = some (w₂, pc')) :
    DeleteCourse cfg r m u w w₂ pc' := by
  cases pc with
  | delete pc =>
    obtain ⟨⟨w₃, pc₃⟩, hdelete, he⟩ := Option.map_eq_some_iff.1 hs
    cases he
    cases pc with
    | find =>
      obtain rfl : w₁ = w := h
      simp only [deleteStep, Option.some.injEq, Prod.mk.injEq] at hdelete
      obtain ⟨rfl, rfl⟩ := hdelete
      cases hf : w₁.db.messages.find (·.id == m) with
      | none => exact ⟨by rw [unsends, hf]; rfl, rfl⟩
      | some x =>
        have hu : unsends cfg r m u w₁ = unsendable cfg r u w₁.now x := by rw [unsends, hf]; rfl
        simp only
        split
        · rename_i hr; exact ⟨by simp [hu, unsendable, hr], rfl⟩
        · rename_i hr
          split
          · rename_i ht; exact ⟨by simp [hu, unsendable, ht], rfl⟩
          · rename_i ht
            split
            · rename_i hs; exact ⟨by simp [hu, unsendable, hs], rfl⟩
            · rename_i hs
              split
              · exact .inr rfl
              · rename_i hd
                split
                · rename_i hold; exact ⟨by simp [hu, unsendable, hold], rfl⟩
                · rename_i hnew
                  refine ⟨?_, rfl⟩
                  simp only [ne_eq, not_not] at hr hs
                  have hd := Option.not_isSome_iff_eq_none.1 hd
                  simpa [hu, unsendable, hr, hs, ht, hd] using hnew
    | update deletedAt =>
      obtain ⟨hu, rfl⟩ := h
      simp only [deleteStep] at hdelete
      split at hdelete <;> cases hdelete
      · exact hu
      · rename_i hno
        obtain ⟨x, hf, -⟩ := (Option.any_eq_true _ _).1 hu
        obtain ⟨hx, hid⟩ := Table.find_some hf
        exact absurd (List.any_eq_true.2 ⟨x, hx, hid⟩) hno
    | members => cases hdelete; exact .inl h
    | done x => cases hdelete
  | _ => cases h

theorem quiet_softDelete {r m u : String} :
    Quiet cfg json (.softDelete r m u) w ↔ unsends cfg r m u w = false := by
  constructor
  · intro hq
    rw [← Bool.not_eq_true]
    intro hu
    obtain ⟨x, hf, hx⟩ := (Option.any_eq_true _ _).1 hu
    simp only [unsendable, Bool.and_eq_true, beq_iff_eq, bne_iff_ne, ne_eq,
      Option.isNone_iff_eq_none, decide_eq_true_eq] at hx
    obtain ⟨⟨⟨⟨hr, ht⟩, hs⟩, hd⟩, hnow⟩ := hx
    have hfind : (machine cfg json).still.step {} (.softDelete r m u) w (.delete .find) =
        some (w, .delete (.update w.now)) := by
      simp only [Machine.still, machine, step, deleteStep, hf, hr, ht, hs, hd, ne_eq,
        not_true_eq_false, if_false, Option.isSome_none, Bool.false_eq_true, Option.map_some,
        if_neg (Nat.not_lt.2 hnow)]
    have hany : w.db.messages.rows.any (·.id == m) = true := by
      obtain ⟨hmem, hid⟩ := Table.find_some hf
      exact List.any_eq_true.2 ⟨x, hmem, hid⟩
    have hupdate : ∃ w₁, (machine cfg json).still.step {} (.softDelete r m u) w
        (.delete (.update w.now)) = some (w₁, .delete .members) ∧ w₁.events = w.events := by
      simp only [Machine.still, machine, step, deleteStep, hany, if_true, Option.map_some]
      exact ⟨_, rfl, rfl⟩
    obtain ⟨w₁, hupdate, he⟩ := hupdate
    -- the event of the third action
    have hev := (hq _ _ (((Solo.refl.step hfind).step hupdate).step (c := {}) rfl)).2
    simp [World.emit, he] at hev
  · intro hu w' pc hrun
    have hcourse := hrun.invariant (DeleteCourse cfg r m u w) rfl deleteCourse_step fun e => e.elim
    cases pc with
    | delete pc =>
      cases pc with
      | find => obtain rfl : w' = w := hcourse; exact ⟨rfl, rfl⟩
      | update d => obtain ⟨-, rfl⟩ := hcourse; exact ⟨rfl, rfl⟩
      | members => rw [hcourse] at hu; cases hu
      | done x =>
        cases x with
        | ok _ => obtain rfl := hcourse.resolve_left (by simp [hu]); exact ⟨rfl, rfl⟩
        | error e => obtain ⟨-, rfl⟩ := hcourse; exact ⟨rfl, rfl⟩
    | _ => cases hcourse

/-! ## `createMessage` -/

theorem createMessage_course {p : CreateMessageParams} (hc : Counts p.roomId w)
    (hrun : Solo (machine cfg json).still (.createMessage p) w (start (.createMessage p)) w' pc) :
    LonePc json p w w' pc :=
  lone_run hc hrun.of_still

theorem quiet_createMessage {p : CreateMessageParams} (hc : Counts p.roomId w) :
    Quiet cfg json (.createMessage p) w ↔ (verdict p w.db).inserts = false := by
  constructor
  · intro hq
    obtain ⟨w', _, hrun, x, rfl⟩ := Solo.completes (M := (machine cfg json).still)
      (LonePc json p w) (fun pc => ∃ x, pc = .create (.done x)) Pc.ahead lonePc_progress
      (lonePc_start hc)
    obtain ⟨_, ⟨⟩, ⟨-, hstate⟩, -⟩ := createMessage_course hc hrun
    rcases hstate with ⟨-, -, hv, -⟩ | ⟨type, m, t, -, hi, ha⟩
    · cases x with
      | ok res => obtain ⟨m, hm, -⟩ := hv; rw [hm]; rfl
      | error e => rw [show verdict p w.db = .refused e from hv]; rfl
    · -- the message is not among those before
      exfalso
      have hdb : w'.db = shown p w.db m t := by
        cases x with
        | ok res => exact ha.2.1
        | error e => exact ha.2.1
      obtain ⟨id, seq, now, hid, rfl⟩ := hi.row
      have hm := (Table.mem_insert hi.table).2 (.inr rfl)
      rw [← (hq _ _ hrun).1, hdb] at hid
      simp only [freshId, shown, Bool.and_eq_true, Bool.not_eq_true', List.any_eq_false] at hid
      exact hid.2 _ hm (by simp [CreateMessageParams.row])
  · intro hv w' pc hrun
    obtain ⟨_, rfl, ⟨-, hstate⟩, -⟩ := createMessage_course hc hrun
    rcases hstate with ⟨hdb, hev, -⟩ | ⟨type, m, t, hacc, -⟩
    · exact ⟨hdb, hev⟩
    · rw [hacc] at hv; cases hv

/-! ## Requests that change nothing -/

theorem quiet_iff {call : Call} (hc : Counted w call) :
    Quiet cfg json call w ↔ changes cfg w call = false := by
  cases call with
  | createMessage p => exact quiet_createMessage hc
  | markRead r u n => exact quiet_markRead
  | softDelete r m u => exact quiet_softDelete

/-- The preview of a message somebody has written is always there. -/
theorem messagePreview_isSome {type : MessageType} (content : Option String)
    (ht : type ≠ .SYSTEM) : (messagePreview json type content).isSome = true := by
  cases type <;> first | rfl | exact absurd rfl ht

/-- A request that fails changes nothing, unless it is the server's own. -/
theorem unchanged_of_failed {call : Call} (hc : Counted w call)
    (hsystem : ∀ p, call = .createMessage p → p.isSystem = false)
    (hrun : Solo (machine cfg json).still call w (start call) w' pc) (hfail : pc.failed = true) :
    changes cfg w call = false := by
  cases call with
  | createMessage p =>
    obtain ⟨pc₁, rfl, ⟨-, hstate⟩, -⟩ := createMessage_course hc hrun
    cases pc₁ with
    | done x =>
      cases x with
      | ok res => cases hfail
      | error e =>
        rcases hstate with ⟨-, -, hv, -⟩ | ⟨type, m, t, hacc, hi, -, -, -, hpreview⟩
        · rw [changes, show verdict p w.db = .refused e from hv]; rfl
        · obtain ⟨hchecks, htype, -⟩ := verdict_accepted.1 hacc
          have hpay := (hchecks.resolve_left (by simp [hsystem p rfl])).2.1
          obtain ⟨id, seq, now, -, rfl⟩ := hi.row
          have hsome : (messagePreview json type p.content).isSome = true := by
            refine messagePreview_isSome p.content ?_
            rintro rfl
            rw [htype] at hpay
            simp [validatePayload, isMediaType] at hpay
          rw [Option.isSome_iff_ne_none] at hsome
          exact absurd hpreview hsome
    | _ => cases hfail
  | markRead r u n =>
    have hcourse := hrun.invariant (ReadCourse r u n w) rfl readCourse_step fun e => e.elim
    cases pc with
    | read pc =>
      cases pc with
      | done x =>
        cases x with
        | ok _ => cases hfail
        | error e => exact hcourse.1
      | _ => cases hfail
    | _ => cases hcourse
  | softDelete r m u =>
    have hcourse := hrun.invariant (DeleteCourse cfg r m u w) rfl deleteCourse_step fun e => e.elim
    cases pc with
    | delete pc =>
      cases pc with
      | done x =>
        cases x with
        | ok _ => cases hfail
        | error e => exact hcourse.1
      | _ => cases hfail
    | _ => cases hcourse

end Requests

end Intaktok.Messages
