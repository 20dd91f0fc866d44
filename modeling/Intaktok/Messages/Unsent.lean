import Intaktok.Messages.Idempotency
/-
# Is an unsent message ever announced afterwards?

`createMessage` serialises the row it has inserted and emits that two awaits later
(`messages.service.ts:131`, `:357`), without another look at the row; `softDelete` finds it as soon
as it is inserted. If no call tells of the unsend of a message before the send has announced it
(`AnnouncedFirst`), nothing of an unsent message is sent out (`unsent_silenced`); a second device
of the sender that is quicker than the send has the text announced after the `MESSAGE_DELETED`
(`unsent_announced`).
-/

namespace Intaktok.Messages

open Interleave Tables

/-- The message a send has inserted and has still to announce. -/
def announcing : Call → Pc → Option String
  | .createMessage _, .create (.roomUpdate m) => some m.id
  | .createMessage _, .create (.fetch dto _) => some dto.id
  | _, _ => none

/-- The message whose unsend a call is about to tell of. -/
def unsending : Call → Pc → Option String
  | .softDelete _ m _, .delete .members => some m
  | _, _ => none

/-- The second event shows what is in a message that the first one says is unsent. -/
def betrays : DomainEvent → DomainEvent → Bool
  | .messageDeleted _ id _, .messageCreated m _ _ _ =>
    m.id == id && (m.content.isSome || m.mediaId.isSome)
  | _, _ => false

def Silenced (events : List DomainEvent) : Prop :=
  events.Pairwise fun e e' => betrays e e' = false

/-- No call tells of the unsend of a message that a send has still to announce. -/
def AnnouncedFirst : Discipline World Call Pc where
  alone _ _ _ := True
  beside call _ pc call₂ pc₂ := ∀ id, unsending call pc = some id → announcing call₂ pc₂ ≠ some id

/-! ## One action -/

def Present (db : Db) (id : String) : Prop := ∃ x ∈ stubs db, x.id = id

/-- What a call has to be about to do for it to emit the event. -/
def Voices (call : Call) (pc : Pc) : DomainEvent → Prop
  | .messageCreated m _ _ _ => announcing call pc = some m.id
  | .messageDeleted _ id _ => unsending call pc = some id
  | _ => True

/-- What an action means for the messages and the events about them. -/
structure Speaks (w : World) (call : Call) (pc : Pc) (w' : World) (pc' : Pc) : Prop where
  present : ∀ id, Present w.db id → Present w'.db id
  sent : ∀ id, announcing call pc' = some id →
    announcing call pc = some id ∨ ¬ Present w.db id ∧ Present w'.db id
  recalled : ∀ id, unsending call pc' = some id → Present w'.db id
  said : ∃ e : Option DomainEvent, w'.events = w.events ++ e.toList ∧ ∀ x ∈ e, Voices call pc x

section Step
variable {cfg : AppConfig} {json : Json} {c : Choice} {w w' : World} {id : String}

theorem present_iff {db : Db} : Present db id ↔ db.messages.rows.any (·.id == id) = true := by
  simp only [Present, stubs, List.mem_map, List.any_eq_true, beq_iff_eq]
  constructor
  · rintro ⟨_, ⟨m, hm, rfl⟩, hid⟩
    exact ⟨m, hm, hid⟩
  · rintro ⟨m, hm, hid⟩
    exact ⟨stub m, ⟨m, hm, rfl⟩, hid⟩

theorem Grows.present {db db' : Db} (h : Grows db db') (hid : Present db id) : Present db' id := by
  obtain ⟨x, hx, hxid⟩ := hid
  exact ⟨x, h.stubs x hx, hxid⟩

/-- A send announces nothing but what it has inserted. -/
theorem announcing_of_unstored {p : CreateMessageParams} {pc : CreatePc}
    (h : unstored pc = true) : announcing (.createMessage p) (.create pc) = none := by
  cases pc with
  | roomUpdate | fetch => cases h
  | _ => rfl

theorem announcing_eq_some {call : Call} {pc : Pc} (h : announcing call pc = some id) :
    ∃ p, call = .createMessage p := by
  unfold announcing at h
  split at h
  · exact ⟨_, rfl⟩
  · exact ⟨_, rfl⟩
  · cases h

/-- Nothing is said. -/
theorem said_none {call : Call} {pc : Pc} (h : w'.events = w.events) :
    ∃ e : Option DomainEvent, w'.events = w.events ++ e.toList ∧ ∀ x ∈ e, Voices call pc x :=
  ⟨none, by simp [h], by simp⟩

theorem speaks_of_acts {p : CreateMessageParams} {pc pc' : CreatePc}
    (h : CreateActs json c p w pc w' pc') :
    Speaks w (.createMessage p) (.create pc) w' (.create pc') := by
  have hpresent : ∀ id, Present w.db id → Present w'.db id := fun _ => h.grows.present
  have hnone : ∀ id, unsending (.createMessage p) (.create pc') = some id → Present w'.db id := by
    rintro id ⟨⟩
  -- nothing is emitted, and the send has no other message to announce than before
  have quiet : w'.events = w.events → (∀ id, announcing (.createMessage p) (.create pc') = some id →
      announcing (.createMessage p) (.create pc) = some id) →
      Speaks w (.createMessage p) (.create pc) w' (.create pc') := fun he hsent =>
    ⟨hpresent, fun id hid => .inl (hsent id hid), hnone, said_none he⟩
  have silent : w'.events = w.events → announcing (.createMessage p) (.create pc') = none →
      Speaks w (.createMessage p) (.create pc) w' (.create pc') := fun he hno =>
    quiet he fun id hid => by rw [hno] at hid; cases hid
  cases h.effect with
  | redis _ _ hpc' => exact silent rfl (announcing_of_unstored hpc')
  | @inserted a seq type t hid htype ht hfk =>
    refine ⟨hpresent, fun id hsent => ?_, hnone, said_none rfl⟩
    obtain rfl : c.id = id := Option.some.inj hsent
    right
    rw [freshId, Bool.and_eq_true, Bool.not_eq_true'] at hid
    refine ⟨fun hold => ?_, present_iff.2 ?_⟩
    · rw [present_iff, hid.2] at hold
      cases hold
    · simp [(Table.insert_ok ht).2, CreateMessageParams.row]
  | noted | waiting => exact quiet rfl fun _ hid => hid
  | noRoom | unreadable => exact silent rfl rfl
  | @announced dto got got' ids preview title =>
    refine ⟨hpresent, ?_, hnone, some (.messageCreated dto ids preview title), rfl, ?_⟩
    · rintro id ⟨⟩
    · rintro x ⟨⟩
      rfl

theorem speaks_of_readStep {r u : WhereString} {n : JsNumber} {pc pc' : ReadPc}
    (h : readStep r u n w pc = some (w', pc')) :
    Speaks w (.markRead r u n) (.read pc) w' (.read pc') := by
  have hgrows := (aside_of_readStep h).grows
  refine ⟨fun _ => hgrows.present, by rintro id ⟨⟩, by rintro id ⟨⟩, ?_⟩
  cases pc with
  | update =>
    apply said_none
    simp only [readStep] at h
    split at h
    · cases h
      rfl
    · split at h
      · cases h
        rfl
      · split at h <;> cases h <;> rfl
  | members l =>
    cases h
    refine ⟨some _, rfl, ?_⟩
    rintro x ⟨⟩
    trivial
  | done x => cases h

theorem speaks_of_deleteStep {r m u : String} {pc pc' : DeletePc}
    (h : deleteStep cfg r m u w pc = some (w', pc')) :
    Speaks w (.softDelete r m u) (.delete pc) w' (.delete pc') := by
  have hgrows := (aside_of_deleteStep h).grows
  refine ⟨fun _ => hgrows.present, by rintro id ⟨⟩, ?_, ?_⟩
  · intro id hid
    cases pc with
    | update deletedAt =>
      simp only [deleteStep] at h
      split at h
      · rename_i hany
        cases h
        obtain rfl : m = id := Option.some.inj hid
        exact hgrows.present (present_iff.2 hany)
      · cases h
        cases hid
    | find =>
      simp only [deleteStep, Option.some.injEq, Prod.mk.injEq] at h
      obtain ⟨-, rfl⟩ := h
      split at hid
      · cases hid
      · repeat' split at hid
        all_goals cases hid
    | members => cases h; cases hid
    | done x => cases h
  · cases pc with
    | find =>
      cases h
      exact said_none rfl
    | update deletedAt =>
      apply said_none
      simp only [deleteStep] at h
      split at h <;> cases h <;> rfl
    | members =>
      cases h
      refine ⟨some _, rfl, ?_⟩
      rintro x ⟨⟩
      rfl
    | done x => cases h

theorem speaks_of_step {call : Call} {pc pc' : Pc}
    (h : step cfg json c call w pc = some (w', pc')) : Speaks w call pc w' pc' := by
  cases acts_of_step h with
  | create hcreate => exact speaks_of_acts (acts_of_createStep hcreate)
  | read hread => exact speaks_of_readStep hread
  | delete hdelete => exact speaks_of_deleteStep hdelete

end Step

/-! ## Announced first -/

/-- Since the first `n` events an unsend of the message has been told of. -/
def Recalled (n : Nat) (w : World) (id : String) : Prop :=
  ∃ r members, .messageDeleted r id members ∈ w.events.drop n

/-- What has been unsent is there, and no longer waits to be announced. -/
def hush (n : Nat) : Outline World Call Pc where
  glob w := n ≤ w.events.length ∧ Silenced (w.events.drop n) ∧
    ∀ id, Recalled n w id → Present w.db id
  own call w pc := (∀ id, announcing call pc = some id → Present w.db id ∧ ¬ Recalled n w id) ∧
    ∀ id, unsending call pc = some id → Present w.db id
  apart _ _ _ _ := True

section Step
variable {cfg : AppConfig} {json : Json} {c : Choice} {w w' : World} {call : Call} {pc pc' : Pc}
  {n : Nat} {id : String}

theorem Speaks.drop (h : Speaks w call pc w' pc') (hn : n ≤ w.events.length) :
    n ≤ w'.events.length ∧ ∃ e : Option DomainEvent,
      w'.events.drop n = w.events.drop n ++ e.toList ∧ ∀ x ∈ e, Voices call pc x := by
  obtain ⟨e, he, hvoices⟩ := h.said
  refine ⟨?_, e, ?_, hvoices⟩
  · rw [he, List.length_append]
    exact Nat.le_add_right_of_le hn
  · rw [he, List.drop_append_of_le_length hn]

/-- A message whose unsend has been told of by now was so before, or the call was about to. -/
theorem Speaks.recalled_cases (h : Speaks w call pc w' pc') (hn : n ≤ w.events.length)
    (hid : Recalled n w' id) : Recalled n w id ∨ unsending call pc = some id := by
  obtain ⟨-, e, he, hvoices⟩ := h.drop hn
  obtain ⟨r, members, hmem⟩ := hid
  rw [he, List.mem_append] at hmem
  rcases hmem with hmem | hmem
  · exact .inl ⟨r, members, hmem⟩
  · exact .inr (hvoices _ (Option.mem_toList.1 hmem))

/-- An announcement that betrays nothing so far is in order. -/
theorem Speaks.silenced (h : Speaks w call pc w' pc') (hn : n ≤ w.events.length)
    (hsilent : Silenced (w.events.drop n))
    (hown : ∀ id, announcing call pc = some id → ¬ Recalled n w id) :
    Silenced (w'.events.drop n) := by
  obtain ⟨-, e, he, hvoices⟩ := h.drop hn
  rw [he, Silenced, List.pairwise_append]
  refine ⟨hsilent, ?_, fun x hx y hy => ?_⟩
  · cases e with
    | none => exact .nil
    | some x => exact List.pairwise_singleton _ x
  · have hy := hvoices y (Option.mem_toList.1 hy)
    cases x with
    | messageDeleted r id members =>
      cases y with
      | messageCreated m members' preview title =>
        have hne : m.id ≠ id := by
          rintro rfl
          exact hown m.id hy ⟨r, members, hx⟩
        simp [betrays, hne]
      | _ => rfl
    | _ => rfl

theorem hush_valid : (hush n).Valid (machine cfg json) AnnouncedFirst .top where
  move {c call w pc w' pc'} a := by
    have hspeaks : Speaks w call pc w' pc' := speaks_of_step a.step
    obtain ⟨hn, hsilent, hthere⟩ := a.glob
    obtain ⟨hsend, hrecall⟩ := a.own
    refine ⟨⟨(hspeaks.drop hn).1, hspeaks.silenced hn hsilent fun id hid => (hsend id hid).2, ?_⟩,
      ?_, hspeaks.recalled⟩
    · intro id hid
      apply hspeaks.present
      rcases hspeaks.recalled_cases hn hid with hold | hmine
      · exact hthere id hold
      · exact hrecall id hmine
    · intro id hid
      rcases hspeaks.sent id hid with hsame | ⟨hnew, hnow⟩
      · obtain ⟨hpresent, hnot⟩ := hsend id hsame
        refine ⟨hspeaks.present id hpresent, fun hrec => ?_⟩
        rcases hspeaks.recalled_cases hn hrec with hold | hmine
        · exact hnot hold
        · -- a send unsends nothing
          obtain ⟨p, rfl⟩ := announcing_eq_some hsame
          cases hmine
      · refine ⟨hnow, fun hrec => hnew ?_⟩
        rcases hspeaks.recalled_cases hn hrec with hold | hmine
        · exact hthere id hold
        · exact hrecall id hmine
  keep {c call w pc w' pc' call₂ pc₂} a b := by
    have hspeaks : Speaks w call pc w' pc' := speaks_of_step a.step
    refine ⟨⟨fun id hid => ?_, fun id hid => hspeaks.present id (b.own.2 id hid)⟩, trivial⟩
    obtain ⟨hpresent, hnot⟩ := b.own.1 id hid
    refine ⟨hspeaks.present id hpresent, fun hrec => ?_⟩
    rcases hspeaks.recalled_cases a.glob.1 hrec with hold | hmine
    · exact hnot hold
    · exact b.beside id hmine hid
  symm _ := trivial
  env _ {_} hg := ⟨hg, id⟩

end Step

/-! ## Runs -/

section Runs
variable {ι : Type} [DecidableEq ι]

theorem announcing_start (call : Call) : announcing call (start call) = none := by
  cases call with
  | createMessage p => exact announcing_of_unstored (unstored_of_checking (checking_createStart p))
  | _ => rfl

theorem unsending_start (call : Call) : unsending call (start call) = none := by
  cases call <;> rfl

/-- **Nothing of an unsent message is sent out.** The sends, retries, reads and unsends of any
number of clients interleave at will, except that no unsend of a message is told of before the
send has announced it: no `MESSAGE_CREATED` that follows the `MESSAGE_DELETED` of its message has
its content or its media. -/
theorem unsent_silenced (cfg : AppConfig) (json : Json) (calls : ι → Call) (w : World)
    (P : Pool World Pc ι)
    (h : Run (machine cfg json) AnnouncedFirst calls ((machine cfg json).initial calls w) P) :
    Silenced (P.shared.events.drop w.events.length) := by
  have hnew : w.events.drop w.events.length = [] := List.drop_length
  have h0 : (hush w.events.length).Holds calls ((machine cfg json).initial calls w) := by
    refine ⟨⟨le_rfl, ?_, ?_⟩, fun i => ⟨fun id hid => ?_, fun id hid => ?_⟩, fun _ _ _ => trivial⟩
    · show Silenced (w.events.drop w.events.length)
      rw [hnew]
      exact .nil
    · rintro id ⟨r, members, hmem⟩
      change _ ∈ w.events.drop w.events.length at hmem
      rw [hnew] at hmem
      cases hmem
    · rw [show announcing (calls i) (((machine cfg json).initial calls w).pcs i) = none from
        announcing_start (calls i)] at hid
      cases hid
    · rw [show unsending (calls i) (((machine cfg json).initial calls w).pcs i) = none from
        unsending_start (calls i)] at hid
      cases hid
  exact (hush_valid.run (fun _ => Outline.top_holds _ _) h0 h).glob.2.1

end Runs

/-! ### A send and an unsend -/

/-- `a` writes, and unsends the message from another device. -/
def writeAndUnsend : Bool → Call
  | false => say "a"
  | true => .softDelete "r1" "m1" "a"

/-- `AnnouncedFirst` for a schedule of two. -/
def announcedFirstOk (calls : Bool → Call) (P : Pool World Pc Bool) (i : Bool) : Bool :=
  (unsending (calls i) (P.pcs i)).all fun id => announcing (calls !i) (P.pcs !i) != some id

theorem announcedFirstOk_allows {calls : Bool → Call} {P : Pool World Pc Bool} {i : Bool}
    (h : announcedFirstOk calls P i = true) : AnnouncedFirst.allows calls P i := by
  refine ⟨trivial, fun j hj id hid => ?_⟩
  have hnot : j = !i := by cases i <;> cases j <;> simp_all
  rw [hnot]
  simpa [announcedFirstOk, hid] using h

def inserted : List (Move Bool Choice Nat) := turns false 5 ++ [turn false { id := "m1" }]

/-- The room gets its time, and the message is announced. -/
def announcement : List (Move Bool Choice Nat) :=
  turn false :: [0, 1, 2].map fun pick => turn false { pick }

instance (events : List DomainEvent) : Decidable (Silenced events) :=
  inferInstanceAs (Decidable (events.Pairwise _))

theorem unsent_silenced_m1 : ∃ P, Run (machine {} noJson) AnnouncedFirst writeAndUnsend
      ((machine {} noJson).initial writeAndUnsend worldR1) P ∧
    (∃ m, announced P.shared = [m] ∧ m.content = some "hi") ∧
    .messageDeleted "r1" "m1" ["a", "b"] ∈ P.shared.events ∧ Silenced P.shared.events := by
  have hexec : ((machine {} noJson).exec (announcedFirstOk writeAndUnsend) writeAndUnsend
      ((machine {} noJson).initial writeAndUnsend worldR1)
      (inserted ++ turns true 2 ++ announcement ++ [turn true])).any (fun P =>
        (announced P.shared).map (·.content) == [some "hi"] &&
          P.shared.events.contains (.messageDeleted "r1" "m1" ["a", "b"])) = true := by
    decide
  obtain ⟨P, hrun, hP⟩ := Machine.exec_reaches (D := AnnouncedFirst) announcedFirstOk_allows hexec
  simp only [Bool.and_eq_true, beq_iff_eq, List.contains_iff_mem] at hP
  obtain ⟨m, hm, hcontent⟩ := List.map_eq_singleton_iff.1 hP.1
  exact ⟨P, hrun, ⟨m, hm, hcontent⟩, hP.2, unsent_silenced {} noJson writeAndUnsend worldR1 P hrun⟩

/-- **Unsent and announced.** The other device is told of the message as it is inserted, and
unsends it before the send goes on. -/
theorem unsent_announced : ¬ ∀ (ι : Type) [DecidableEq ι] (cfg : AppConfig) (json : Json)
    (calls : ι → Call) (w : World) (P : Pool World Pc ι),
    Run (machine cfg json) Discipline.free calls ((machine cfg json).initial calls w) P →
    Silenced (P.shared.events.drop w.events.length) := by
  intro h
  have hexec : ((machine {} noJson).exec always writeAndUnsend
      ((machine {} noJson).initial writeAndUnsend worldR1)
      (inserted ++ turns true 3 ++ announcement)).any (fun P =>
        !decide (Silenced P.shared.events)) = true := by
    decide
  obtain ⟨P, hrun, hP⟩ := Machine.exec_reaches_free hexec
  have hsilent : Silenced P.shared.events := h Bool {} noJson writeAndUnsend worldR1 P hrun
  simp [hsilent] at hP

end Intaktok.Messages
