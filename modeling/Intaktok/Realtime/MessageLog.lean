import Intaktok.Realtime.SystemMessages
import Intaktok.Lib.Checkpoints
import Intaktok.Lib.Growth
/-
# The messages of the platform as a log

Messages come from requests, from sockets and from the rooms themselves, and are unsent from two
of these sides; all of it runs at once. Whatever the order, the table of messages only grows at its
end (`log_extends`), and a message in it stays what it is but for one change, which takes its body
away for good. Only its sender makes that change, and in time (`unsent_by_sender`).
-/

namespace Intaktok.Realtime

open Interleave Tables Growth
open Messages (CreateMessageParams CreatePc CreateActs Json unsend)

/-! ## What becomes of a message -/

/-- A message as it was, or its placeholder. -/
inductive Remains (x : Message) : Message → Prop
  | same : Remains x x
  | unsent (d : Nat) : Remains x (unsend d x)

theorem Remains.trans (x y z : Message) (h : Remains x y) (h' : Remains y z) : Remains x z := by
  cases h with
  | same => exact h'
  | unsent d =>
    cases h' with
    | same => exact .unsent d
    | unsent d' => exact .unsent d'

/-- An unsent message has neither body nor media. -/
def Erased (x : Message) : Prop :=
  x.deletedAt.isSome = true → x.content = none ∧ x.mediaId = none

theorem Erased.remains (x y : Message) (hx : Erased x) (h : Remains x y) : Erased y := by
  cases h with
  | same => exact hx
  | unsent d => exact fun _ => ⟨rfl, rfl⟩

/-- The log has grown at its end, and what was in it is there or has been unsent. -/
def Extends (db db' : Db) : Prop := Grown Remains Erased db.messages.rows db'.messages.rows

theorem Extends.trans {db db' db'' : Db} (h : Extends db db') (h' : Extends db' db'') :
    Extends db db'' := Grown.trans Remains.trans Erased.remains h h'

theorem extends_of_rows {db db' : Db} (h : db'.messages.rows = db.messages.rows) :
    Extends db db' := by
  rw [Extends, h]
  exact .refl (fun _ => .same) _

theorem Extends.erased {db db' : Db} (h : Extends db db')
    (he : ∀ x ∈ db.messages.rows, Erased x) : ∀ x ∈ db'.messages.rows, Erased x := by
  intro y hy
  rcases h.origin hy with ⟨x, hx, hxy⟩ | hy
  · exact (he x hx).remains x y hxy
  · exact hy

theorem Alters.extends {json : Json} {c : Choice} {w w' : World} {k : ServerCall} {l : ServerPc}
    (h : Alters json c w w' k l) : Extends w.db w'.db := by
  cases h with
  | same hrows => exact extends_of_rows hrows
  | inserted _ _ hrows =>
    rw [Extends, hrows]
    refine .append (fun _ => .same) _ fun x hx => ?_
    rw [List.mem_singleton.1 hx]
    exact fun hd => nomatch hd
  | unsent _ hrows =>
    rw [Extends, hrows]
    refine .map fun x _ => ?_
    split
    · exact .unsent _
    · exact .same

/-! ## Who unsends -/

/-- Whom the process unsends for. -/
def unsender : ServerCall → ServerPc → Option String
  | .inl (.inr (.messageDelete _ _)), .inl (.inr (.delete (.softDelete userId _))) => userId
  | .inr ⟨.messages, .softDelete _ _ requesterId⟩, _ => some requesterId
  | _, _ => none

/-- The user may unsend the message with the time `d`. -/
def MayUnsend (cfg : AppConfig) (db : Db) (messageId userId : String) (d : Nat) : Prop :=
  ∃ x ∈ db.messages.rows, x.id = messageId ∧ x.type ≠ .SYSTEM ∧ x.senderId = userId ∧
    d ≤ x.createdAt + cfg.messageUnsendWindowSec * 1000

theorem MayUnsend.kept {cfg : AppConfig} {db db' : Db} {messageId userId : String} {d : Nat}
    (hext : Extends db db') (h : MayUnsend cfg db messageId userId d) :
    MayUnsend cfg db' messageId userId d := by
  obtain ⟨x, hx, hid, ht, hu, hd⟩ := h
  obtain ⟨y, hy, hxy⟩ := hext.there hx
  refine ⟨y, hy, ?_⟩
  cases hxy <;> exact ⟨hid, ht, hu, hd⟩

/-- A process about to unsend a message does so for somebody who may. -/
def Entitled (cfg : AppConfig) (db : Db) (k : ServerCall) (l : ServerPc) : Prop :=
  ∀ messageId d, deletion k l = some (messageId, .update d) →
    ∃ userId, unsender k l = some userId ∧ MayUnsend cfg db messageId userId d

theorem mayUnsend_of_find {cfg : AppConfig} {roomId messageId requesterId : String} {w w' : World}
    {pc : Messages.DeletePc} {d : Nat}
    (hs : Messages.deleteStep cfg roomId messageId requesterId w pc = some (w', .update d)) :
    w' = w ∧ MayUnsend cfg w.db messageId requesterId d := by
  cases pc <;> simp only [Messages.deleteStep] at hs
  case find =>
    simp only [Option.some.injEq, Prod.mk.injEq] at hs
    obtain ⟨rfl, hs⟩ := hs
    refine ⟨rfl, ?_⟩
    split at hs
    · cases hs
    rename_i x hf
    obtain ⟨hx, hid⟩ := Table.find_some hf
    split at hs
    · cases hs
    split at hs
    · cases hs
    rename_i ht
    split at hs
    · cases hs
    rename_i hu
    split at hs
    · cases hs
    split at hs
    · cases hs
    rename_i hwindow
    cases hs
    exact ⟨x, hx, by simpa using hid, ht, not_not.1 hu, not_lt.1 hwindow⟩
  case update d' => split at hs <;> cases hs
  case members => cases hs
  case done r => cases hs

/-- `softDelete` has looked at the message, its sender and the clock in one action. -/
theorem entitled_of_step {cfg : AppConfig} {decode : String → Option Jwt} {json : Json} {c : Choice}
    {k : ServerCall} {h h' : Hub} {l l' : ServerPc}
    (hs : (server cfg decode json).step c k h l = some (h', l')) :
    Entitled cfg h'.world.db k l' := by
  intro messageId d hd
  obtain ⟨h₁, hacts, rfl⟩ := server_step hs
  rw [world_deliver]
  cases hacts with
  | socket hsocket => cases hd
  | event hevent =>
    cases acts_of_event hevent with
    | @delete id body pc _ _ hacts =>
      cases hacts with
      | refused => cases hd
      | received => simp only [deletion] at hd; split at hd <;> cases hd
      | @delete messageId₁ _ userId _ _ pc₁ hm hdelete =>
        cases pc₁ with
        | update d' =>
          simp only [deleteReturns, deletion, hm, Option.some.injEq, Prod.mk.injEq] at hd
          obtain ⟨rfl, hd⟩ := hd
          cases hd
          obtain ⟨rfl, hmay⟩ := mayUnsend_of_find hdelete
          exact ⟨userId, rfl, hmay⟩
        | done r => rcases r with e | ⟨⟩ <;> cases hd
        | _ => simp [deleteReturns, deletion, hm] at hd
    | _ => cases hd
  | @service s call pc pc' w hservice =>
    cases s with
    | messages =>
      cases Messages.acts_of_step hservice with
      | delete hdelete =>
        cases hd
        obtain ⟨rfl, hmay⟩ := mayUnsend_of_find hdelete
        exact ⟨_, rfl, hmay⟩
      | _ => cases hd
    | _ => cases hd

def Stored (h : Hub) (messageId : String) : Prop := ∃ x ∈ h.world.db.messages.rows, x.id = messageId

/-- The message is a placeholder. -/
def Unsent (messageId : String) (db : Db) : Prop :=
  ∃ x ∈ db.messages.rows, x.id = messageId ∧ x.deletedAt.isSome = true

/-- Messages are unsent within the window, but for those that were at first. -/
def WithinWindow (cfg : AppConfig) (old : Db) (db : Db) : Prop :=
  ∀ x ∈ db.messages.rows, ∀ d, x.deletedAt = some d → Unsent x.id old ∨
    d ≤ x.createdAt + cfg.messageUnsendWindowSec * 1000

theorem Alters.withinWindow {cfg : AppConfig} {json : Json} {c : Choice} {old : Db} {w w' : World}
    {k : ServerCall} {l : ServerPc} (h : Alters json c w w' k l) (he : Entitled cfg w.db k l)
    (ht : WithinWindow cfg old w.db) : WithinWindow cfg old w'.db := by
  intro x hx d hd
  cases h with
  | same hrows => exact ht x (hrows ▸ hx) d hd
  | inserted _ _ hrows =>
    rw [hrows] at hx
    rcases List.mem_append.1 hx with hx | hx
    · exact ht x hx d hd
    · rw [List.mem_singleton.1 hx] at hd
      cases hd
  | unsent hk hrows =>
    rw [hrows] at hx
    obtain ⟨y, hy, hxy⟩ := List.mem_map.1 hx
    split at hxy
    · rename_i hid
      subst hxy
      cases hd
      obtain ⟨-, -, z, hz, hzid, -, -, hle⟩ := he _ _ hk
      obtain rfl := messages_eq_of_id hz hy (hzid.trans (beq_iff_eq.1 hid).symm)
      exact .inr hle
    · exact ht x (hxy ▸ hy) d hd

/-- Processes unsend what they may, and so messages are unsent in time. -/
def entitling (cfg : AppConfig) (old : Db) : Outline Hub ServerCall ServerPc where
  glob h := WithinWindow cfg old h.world.db
  own k h l := Entitled cfg h.world.db k l
  apart _ _ _ _ := True

theorem entitling_valid {cfg : AppConfig} {decode : String → Option Jwt} {json : Json} {old : Db}
    {D : Discipline Hub ServerCall ServerPc} :
    (entitling cfg old).Valid (server cfg decode json) D Outline.top where
  move a := ⟨(alters_of_step a.step).withinWindow a.own a.glob, entitled_of_step a.step⟩
  keep a b := by
    refine ⟨fun messageId d hd => ?_, trivial⟩
    obtain ⟨u, hu, hmay⟩ := b.own messageId d hd
    exact ⟨u, hu, hmay.kept (alters_of_step a.step).extends⟩
  symm _ := trivial
  env e {h} hg := by
    have hdb : ((server cfg decode json).env e h).world.db = h.world.db := db_env cfg e h
    refine ⟨show WithinWindow cfg old _ from ?_, fun {k l} ho => show Entitled cfg _ k l from ?_⟩
    · rw [hdb]; exact hg
    · rw [hdb]; exact ho

theorem entitled_start (cfg : AppConfig) (decode : String → Option Jwt) (json : Json) (db : Db)
    (k : ServerCall) : Entitled cfg db k ((server cfg decode json).start k) := by
  intro messageId d hd
  rcases k with (call | call) | ⟨s, call⟩
  · cases hd
  · cases call <;> cases hd
  · cases s with
    | messages => cases call <;> cases hd
    | _ => cases hd

/-- The action of a process by which the sender of the message unsends it. -/
def Unsends (k : ServerCall) (l : ServerPc) (x : Message) : Prop :=
  ∃ d, deletion k l = some (x.id, .update d) ∧ unsender k l = some x.senderId

section Runs
variable {ι : Type} [DecidableEq ι] {cfg : AppConfig} {decode : String → Option Jwt} {json : Json}
  {D : Discipline Hub ServerCall ServerPc} {calls : ι → ServerCall} {hub : Hub}
  {P Q R : Pool Hub ServerPc ι}

theorem extends_of_run (hrun : Run (server cfg decode json) D calls P Q) :
    Extends P.shared.world.db Q.shared.world.db := by
  refine hrun.relates (r := fun h h' => Extends h.world.db h'.world.db)
    (fun h => extends_of_rows rfl) Extends.trans (fun hs => (alters_of_step hs).extends) ?_
  intro e h
  exact extends_of_rows (by rw [show ((server cfg decode json).env e h).world.db = h.world.db
    from db_env cfg e h])

/-- **The log.** In every run messages are only added, and none comes back that has been unsent. -/
theorem log_extends (hrun : Run (server cfg decode json) D calls P Q) :
    Extends P.shared.world.db Q.shared.world.db ∧
      ((∀ x ∈ P.shared.world.db.messages.rows, Erased x) →
        ∀ x ∈ Q.shared.world.db.messages.rows, Erased x) :=
  ⟨extends_of_run hrun, (extends_of_run hrun).erased⟩

theorem entitling_run
    (hrun : Run (server cfg decode json) Discipline.free calls
      ((server cfg decode json).initial calls hub) Q) :
    (entitling cfg hub.world.db).Holds calls Q := by
  have h0 : (entitling cfg hub.world.db).Holds calls
      ((server cfg decode json).initial calls hub) :=
    ⟨fun x hx d hd => .inl ⟨x, hx, rfl, by simp [hd]⟩,
      fun i => entitled_start cfg decode json hub.world.db (calls i), fun _ _ _ => trivial⟩
  exact entitling_valid.run (fun _ => Outline.top_holds calls _) h0 hrun

/-- **Only the sender unsends, and in time.** A message that has been unsent in the course of a run
is no system message, its window was open, and it was a request of its sender that has done it. -/
theorem unsent_by_sender
    (hrun : Run (server cfg decode json) Discipline.free calls
      ((server cfg decode json).initial calls hub) Q) {x : Message} {d : Nat}
    (hx : x ∈ Q.shared.world.db.messages.rows) (hd : x.deletedAt = some d)
    (hno : ¬ Unsent x.id hub.world.db) :
    x.type ≠ .SYSTEM ∧ d ≤ x.createdAt + cfg.messageUnsendWindowSec * 1000 ∧
      Brought (server cfg decode json) Discipline.free calls
        ((server cfg decode json).initial calls hub) (fun h => Unsent x.id h.world.db)
        (fun R i => Unsends (calls i) (R.pcs i) x) Q := by
  have hwindow := ((entitling_run hrun).glob x hx d hd).resolve_left hno
  have hb : Brought (server cfg decode json) Discipline.free calls
      ((server cfg decode json).initial calls hub) (fun h => Unsent x.id h.world.db)
      (fun R i => Run (server cfg decode json) Discipline.free calls
        ((server cfg decode json).initial calls hub) R ∧
        ∃ d, deletion (calls i) (R.pcs i) = some (x.id, .update d)) Q := by
    refine hrun.brought hno ?_ ?_ ⟨x, hx, rfl, by simp [hd]⟩
    · intro R i c h' l' hr _ hs hbefore ⟨y, hy, hid, hyd⟩
      refine ⟨hr, ?_⟩
      cases alters_of_step hs with
      | same hrows => exact absurd ⟨y, hrows ▸ hy, hid, hyd⟩ hbefore
      | inserted _ _ hrows =>
        rw [hrows] at hy
        rcases List.mem_append.1 hy with hy | hy
        · exact absurd ⟨y, hy, hid, hyd⟩ hbefore
        · rw [List.mem_singleton.1 hy] at hyd
          cases hyd
      | unsent hk hrows =>
        rw [hrows] at hy
        obtain ⟨z, hz, hzy⟩ := List.mem_map.1 hy
        split at hzy
        · rename_i hzid
          have hyz : y.id = z.id := by rw [← hzy]; rfl
          rw [← hid, hyz, beq_iff_eq.1 hzid]
          exact ⟨_, hk⟩
        · exact absurd ⟨y, hzy ▸ hz, hid, hyd⟩ hbefore
    · intro e h hyes
      have hdb : ((server cfg decode json).env e h).world.db = h.world.db := db_env cfg e h
      exact hdb ▸ hyes
  have hsender : ∀ {R : Pool Hub ServerPc ι} {i : ι}, Run (server cfg decode json) Discipline.free
      calls R Q → Run (server cfg decode json) Discipline.free calls
        ((server cfg decode json).initial calls hub) R →
      (∃ d, deletion (calls i) (R.pcs i) = some (x.id, .update d)) →
      Unsends (calls i) (R.pcs i) x ∧ x.type ≠ .SYSTEM := by
    rintro R i hrest hr ⟨d', hk⟩
    obtain ⟨u, hu, hmay⟩ := (entitling_run hr).own i _ _ hk
    obtain ⟨y, hy, hid, ht, hs, -⟩ := hmay.kept (extends_of_run hrest)
    obtain rfl := messages_eq_of_id hy hx hid
    exact ⟨⟨d', hk, hs ▸ hu⟩, ht⟩
  obtain ⟨R, i, -, ⟨hr, hk⟩, hrest⟩ := hb.happened
  exact ⟨(hsender hrest hr hk).2, hwindow, hb.imp fun hrest ⟨hr, hk⟩ => (hsender hrest hr hk).1⟩

end Runs

/-! ### A message that is unsent -/

abbrev serverPlain : Machine Hub ServerCall ServerPc Choice Env :=
  server {} (fun _ => none) Messages.noJson

/-- So many actions of the process. -/
def moves {ι : Type} (i : ι) (n : Nat) (c : Choice := {}) : List (Move ι Choice Env) :=
  List.replicate n (.step i c)

def hubM1 : Hub where
  world := Messages.worldR1 ⟨[Messages.messageR1 "m1" 1], by decide⟩

/-- `a` has written `m1`, and takes it back. -/
def takeBack : Unit → ServerCall := fun _ => .inr ⟨.messages, .softDelete "r1" "m1" "a"⟩

def isUnsent (db : Db) (messageId : String) : Bool :=
  db.messages.rows.any fun x => x.id == messageId && x.deletedAt.isSome

theorem unsent_of_isUnsent {db : Db} {messageId : String} (h : isUnsent db messageId = true) :
    Unsent messageId db := by
  obtain ⟨x, hx, hp⟩ := List.any_eq_true.1 h
  rw [Bool.and_eq_true, beq_iff_eq] at hp
  exact ⟨x, hx, hp⟩

theorem takenBack : ∃ Q : Pool Hub ServerPc Unit,
    Run serverPlain Discipline.free takeBack (serverPlain.initial takeBack hubM1) Q ∧
      Unsent "m1" Q.shared.world.db := by
  have hexec : (serverPlain.exec always takeBack (serverPlain.initial takeBack hubM1)
      (moves () 3)).any (fun Q => isUnsent Q.shared.world.db "m1") = true := by decide
  obtain ⟨Q, hrun, hQ⟩ := Machine.exec_reaches_free hexec
  exact ⟨Q, hrun, unsent_of_isUnsent hQ⟩

theorem log_extends_m1 : ∃ Q : Pool Hub ServerPc Unit,
    Unsent "m1" Q.shared.world.db ∧ Extends hubM1.world.db Q.shared.world.db ∧
      ∀ x ∈ Q.shared.world.db.messages.rows, Erased x := by
  obtain ⟨Q, hrun, hQ⟩ := takenBack
  obtain ⟨hext, herased⟩ := log_extends hrun
  refine ⟨Q, hQ, hext, herased fun x hx => ?_⟩
  rw [List.mem_singleton.1 hx]
  exact fun hd => nomatch hd

theorem unsent_by_sender_m1 : ∃ Q : Pool Hub ServerPc Unit, ∃ x ∈ Q.shared.world.db.messages.rows,
    x.deletedAt.isSome = true ∧ x.type ≠ .SYSTEM ∧
      Brought serverPlain Discipline.free takeBack (serverPlain.initial takeBack hubM1)
        (fun h => Unsent x.id h.world.db) (fun R i => Unsends (takeBack i) (R.pcs i) x) Q := by
  obtain ⟨Q, hrun, x, hx, hid, hsome⟩ := takenBack
  obtain ⟨d, hd⟩ := Option.isSome_iff_exists.1 hsome
  have hno : ¬ Unsent x.id hubM1.world.db := by
    rintro ⟨y, hy, -, hyd⟩
    rw [List.mem_singleton.1 hy] at hyd
    cases hyd
  obtain ⟨ht, -, hb⟩ := unsent_by_sender hrun hx hd hno
  exact ⟨Q, x, hx, hsome, ht, hb⟩

end Intaktok.Realtime
