import Intaktok.Rooms.Refusals
import Intaktok.Messages.Doubles
/-
# Refused requests, with numbers in doubles

The messages a request creates are numbered as any others. While no number gets past 2^53 the
requests of `chat` do with doubles what they do with whole numbers (`run_of_doubledChat`), and who is
refused has changed nothing (`refused_unchanged`). Past it a send may be refused for its number, with
the counter moved on (`refused_late`).
-/

namespace Intaktok.Rooms

open Interleave Tables Messages

/-- `CreatePc.doubles` in a tail. -/
def Pc.doubles (parser : ReplyParser) : Pc → Pc
  | .tail r task todo (.system q) result => .tail r task todo (.system (q.doubles parser)) result
  | pc => pc

/-- The same for any request. -/
def doubles (parser : ReplyParser) : ChatPc → ChatPc
  | .inl pc => .inl (pc.doubles parser)
  | .inr (.inl pc) => .inr (.inl (pc.doubles parser))
  | .inr (.inr (.after pc)) => .inr (.inr (.after (pc.doubles parser)))
  | pc => pc

def doubledChat (cfg : AppConfig) (json : Json) (parser : ReplyParser) :
    Machine World ChatCall ChatPc Choice Nat :=
  (chat cfg json).through (doubles parser)

/-- No counter is asked past what a double counts to. -/
def counting : Discipline World ChatCall ChatPc where
  alone k w pc := ∀ r q, creates k pc = some (r, q) → SmallCounter r w q
  beside _ _ _ _ _ := True

def smallNumbers : Outline World ChatCall ChatPc where
  glob w := SmallSeqs w.db
  own k _ pc := ∀ r q, creates k pc = some (r, q) → SmallNumber q
  apart _ _ _ _ := True

section Step
variable {cfg : AppConfig} {json : Json} {parser : ReplyParser} {c : Choice} {w w' : World}
  {pc pc' : Pc}

theorem doubles_of_small (h : ∀ r q, pc.creates = some (r, q) → SmallNumber q) :
    pc.doubles parser = pc := by
  cases pc with
  | tail r task todo tp result =>
    cases tp with
    | system q => rw [Pc.doubles, (h r q rfl).doubles]
    | _ => rfl
  | _ => rfl

theorem small_of_begins (h : pc.Begins) (r : String) (q : CreatePc)
    (hq : pc.creates = some (r, q)) : SmallNumber q := by
  obtain ⟨p, rfl⟩ := h q (creation_of_creates hq)
  exact .of_none (number_of_idle (idle_createStart p))

/-- The tail of a request. -/
theorem small_tail (hc : ∀ r q, pc.creates = some (r, q) → SmallCounter r w q)
    (hs : SmallSeqs w.db) (hn : ∀ r q, pc.creates = some (r, q) → SmallNumber q)
    (h : TailCreates json c w pc w' pc') :
    SmallSeqs w'.db ∧ ∀ r q, pc'.creates = some (r, q) → SmallNumber q := by
  cases h with
  | @creates r actorId payload todo result q w' q' hacts =>
    obtain ⟨hs', hn'⟩ := hacts.small (hc r q rfl) hs (hn r q rfl)
    refine ⟨hs', fun r' q₁ hq => ?_⟩
    rcases creates_afterCreate hq with ⟨-, rfl⟩ | ⟨p, rfl⟩
    · exact hn'
    · exact .of_none (number_of_idle (idle_createStart p))
  | other hb hm _ => exact ⟨by rw [SmallSeqs, hm]; exact hs, small_of_begins hb⟩

theorem smallNumbers_valid :
    smallNumbers.Valid (chat cfg json) counting Outline.top where
  move {c k w pc w' pc'} a := by
    cases acts_of_chat a.step with
    | create hc =>
      obtain ⟨hs, hn⟩ := hc.small (a.alone _ _ rfl) a.glob (a.own _ _ rfl)
      exact ⟨hs, fun r q hq => by cases hq; exact hn⟩
    | read hr => exact ⟨a.glob.congr (aside_of_readStep hr).log, fun r q hq => by cases hq⟩
    | delete hd => exact ⟨a.glob.congr (aside_of_deleteStep hd).log, fun r q hq => by cases hq⟩
    | room hr => exact small_tail a.alone a.glob a.own (step_creates hr)
    | @update r a₁ dto pc w' pc' hu =>
      rcases updateStep_creates hu with ⟨q, q', rfl, rfl, ht⟩ | ⟨hb, hm, -⟩
      · exact small_tail a.alone a.glob a.own ht
      · refine ⟨by show SmallSeqs _; rw [SmallSeqs, hm]; exact a.glob, fun r q hq => ?_⟩
        cases pc' with
        | after pc₁ => exact small_of_begins (hb pc₁ rfl) r q hq
        | _ => cases hq
  keep _ b := ⟨b.own, trivial⟩
  symm _ := trivial
  env _ {_} hg := ⟨hg, fun ho => ho⟩

/-- What an action comes to is no number past the doubles. -/
theorem doubles_of_action {k : ChatCall} {pc pc' : ChatPc}
    (a : Action (chat cfg json) counting Outline.top smallNumbers c k w pc w' pc') :
    doubles parser pc' = pc' := by
  have hn := (smallNumbers_valid.move a).2
  cases acts_of_chat a.step with
  | create hc => rw [doubles, Messages.Pc.doubles, (hn _ _ rfl).doubles]
  | read hr | delete hd => rfl
  | room hr => rw [doubles, doubles_of_small hn]
  | @update r a₁ dto pc w' pc' hu =>
    cases pc' with
    | after pc₁ => rw [doubles, doubles_of_small hn]
    | _ => rfl

theorem smallNumbers_initial {ι : Type} {calls : ι → ChatCall} (hs : SmallSeqs w.db) :
    smallNumbers.Holds calls ((chat cfg json).initial calls w) := by
  have hstart : ∀ k r q, creates k ((chat cfg json).start k) = some (r, q) → SmallNumber q := by
    intro k r q hq
    rcases k with (p | _ | _) | (call | ⟨r', a, dto⟩)
    · cases hq
      exact .of_none (number_of_idle (idle_createStart p))
    · cases hq
    · cases hq
    · have hnone : (start call).creates = none := by
        cases call with
        | createRoom creatorId dto =>
          rcases createStart_cases creatorId dto with h | ⟨e, h⟩ <;> rw [start, h] <;> rfl
        | _ => rfl
      exact absurd hq (by rw [show creates _ _ = (start call).creates from rfl, hnone]; simp)
    · cases hq
  exact ⟨hs, fun i => hstart (calls i), fun _ _ _ => trivial⟩

end Step

section Runs
variable {ι : Type} [DecidableEq ι] {cfg : AppConfig} {json : Json} {parser : ReplyParser}
  {calls : ι → ChatCall} {w : World}

theorem run_of_doubledChat {P : Pool World ChatPc ι} (hs : SmallSeqs w.db)
    (hrun : Run (doubledChat cfg json parser) counting calls
      ((doubledChat cfg json parser).initial calls w) P) :
    Run (chat cfg json) counting calls ((chat cfg json).initial calls w) P :=
  hrun.of_through smallNumbers_valid doubles_of_action (smallNumbers_initial hs)

end Runs

/-- **Refused requests change nothing.** A request that runs alone and ends with an `AppException`,
with no number past what a double counts to, has left all tables, Redis and the events as they were,
and the exception is no `CONFLICT`. -/
theorem refused_unchanged (cfg : AppConfig) (json : Json) (parser : ReplyParser) (k : ChatCall)
    (w : World) (hs : SmallSeqs w.db) {P : Pool World ChatPc Unit} {e : AppException}
    (hrun : Run (doubledChat cfg json parser) counting (fun _ => k)
      ((doubledChat cfg json parser).initial (fun _ => k) w) P)
    (he : outcome (P.pcs ()) = some (.error (.app e))) :
    Untouched w P.shared ∧ e.code ≠ .CONFLICT :=
  untouched_of_refused (run_of_doubledChat hs hrun).solo he

/-- The member `b` may not make `a` leave. -/
theorem refused_unchanged_r1 : ∃ P : Pool World ChatPc Unit, ∃ e,
    outcome (P.pcs ()) = some (.error (.app e)) ∧ Untouched worldR1 P.shared ∧
      e.code ≠ .CONFLICT := by
  let call : ChatCall := .inr (.inl (.removeMember "r1" "b" "a"))
  let ok : Pool World ChatPc Unit → Unit → Bool := fun P _ => (creates call (P.pcs ())).isNone
  have hok : ∀ {P i}, ok P i = true → counting.allows (fun _ => call) P i := by
    refine fun {P i} h => ⟨fun r q hq => ?_, fun _ _ => trivial⟩
    rw [show ok P i = (creates call (P.pcs ())).isNone from rfl, hq] at h
    cases h
  have hexec : ((doubledChat {} noJson digitwise).exec ok (fun _ : Unit => call)
      ((doubledChat {} noJson digitwise).initial (fun _ => call) worldR1) (turns () 3)).any (fun P =>
        outcome (P.pcs ()) == some (.error (.app (Errors.forbidden "멤버를 내보낼 권한이 없습니다.")))) =
      true := by decide
  obtain ⟨P, hrun, hP⟩ := Machine.exec_reaches hok hexec
  have he := beq_iff_eq.1 hP
  exact ⟨P, _, he, refused_unchanged {} noJson digitwise call worldR1 (by decide) hrun he⟩

/-- **Refused for its number.** The room has a message with the last number a double counts to. -/
theorem refused_late : ¬ ∀ (cfg : AppConfig) (json : Json) (k : ChatCall) (w : World)
    (P : Pool World ChatPc Unit) (e : AppException),
    Run (doubledChat cfg json digitwise) Discipline.free (fun _ => k)
      ((doubledChat cfg json digitwise).initial (fun _ => k) w) P →
    outcome (P.pcs ()) = some (.error (.app e)) → Untouched w P.shared ∧ e.code ≠ .CONFLICT := by
  intro h
  let conflict := Errors.conflict "메시지 시퀀스 발급에 실패했습니다."
  have hexec : ((doubledChat {} noJson digitwise).exec always (fun _ : Unit => .inl (say "a"))
      ((doubledChat {} noJson digitwise).initial (fun _ => .inl (say "a")) worldLast)
      (List.replicate 18 (turn () { id := "m2" }))).any (fun P =>
        outcome (P.pcs ()) == some (.error (.app conflict))) = true := by decide +kernel
  obtain ⟨P, hrun, hP⟩ := Machine.exec_reaches_free hexec
  exact (h {} noJson _ worldLast P conflict hrun (beq_iff_eq.1 hP)).2 rfl

end Intaktok.Rooms
