import Intaktok.Realtime.Frames
import Intaktok.Lib.Checkpoints
import Intaktok.Rooms.Rights
import Intaktok.Rooms.Ownership
/-
# By what right somebody has a seat

`RoomMemberGuard` reads the actor's role as a request comes in; the service checks it, then the
target's, and writes later, with whatever else is in flight in between. So a right is a finding of
the past (`Checkpoints.lean`): every seat that changes in a run does so by a request whose guard has
found somebody entitled to it, at some moment on the way (`seats_by_right`).
-/

namespace Intaktok.Realtime

open Interleave Tables
open Rooms (seat crew Reseats CreateRoomDto)

/-! ## Nobody but `RoomsService` gives seats -/

theorem seat_of_roomMembers {db db' : Db} (h : db'.roomMembers = db.roomMembers) (r u : String) :
    seat db' r u = seat db r u := by rw [seat, seat, h]

theorem seat_setLastReadSeq (t : Table RoomMember) (p : RoomMember → Bool) (n : Nat)
    (r u : String) :
    (crew (Messages.setLastReadSeq t p n) r u).map (·.role) = (crew t r u).map (·.role) := by
  have hfind := Table.find_updateWhere t p (Rooms.isMember r u)
    (fun m => { m with lastReadSeq := n }) (fun _ _ _ => rfl) fun _ => rfl
  change (Messages.setLastReadSeq t p n).find _ = _ at hfind
  rw [crew, crew, hfind]
  cases t.find (Rooms.isMember r u) with
  | none => rfl
  | some m =>
    rw [Option.map_some]
    split
    · cases hl : m.leftAt <;> simp [Option.filter, hl]
    · rfl

theorem seat_readStep {roomId userId : Messages.WhereString} {n : Messages.JsNumber} {w w' : World}
    {pc pc' : Messages.ReadPc} (h : Messages.readStep roomId userId n w pc = some (w', pc'))
    (r u : String) : seat w'.db r u = seat w.db r u := by
  cases pc <;> simp only [Messages.readStep] at h
  case update =>
    split at h
    · cases h; rfl
    · split at h
      · cases h; rfl
      · split at h <;> cases h
        · exact seat_setLastReadSeq ..
        · rfl
  case members => cases h; rfl
  case done => cases h

section Step
variable {cfg : AppConfig} {decode : String → Option Jwt} {json : Messages.Json} {c : Choice}
  {h h' : Hub}

theorem seat_of_service {s : Service} {call : s.Call} {pc pc' : s.Pc} {w w' : World}
    (hs : (s.machine cfg json).step c call w pc = some (w', pc')) (hno : s ≠ .rooms)
    (r u : String) : seat w'.db r u = seat w.db r u := by
  cases s with
  | rooms => exact absurd rfl hno
  | auth => obtain ⟨_, _, _, _, _, rfl⟩ := Auth.step_db hs; rfl
  | admin =>
    obtain ⟨⟨_, _, hdb⟩, -⟩ := Admin.step_db hs
    exact seat_of_roomMembers (by rw [hdb]) r u
  | whitelist => obtain ⟨_, _, rfl⟩ := Admin.entryStep_db hs; rfl
  | messages =>
    cases Messages.acts_of_step hs with
    | create hcreate =>
      have hkept := Rooms.kept_of_createActs (Messages.acts_of_createStep hcreate)
      exact seat_of_roomMembers hkept.members r u
    | read hread => exact seat_readStep hread r u
    | delete hdelete =>
      obtain ⟨⟨_, hdb⟩, -⟩ := Messages.deleteStep_db hdelete
      exact seat_of_roomMembers (by rw [hdb]) r u
  | roomUpdates =>
    cases call with
    | updateRoom roomId actorId dto =>
      obtain ⟨⟨_, _, hdb⟩, -⟩ := Rooms.updateStep_db hs
      exact seat_of_roomMembers (by rw [hdb]) r u
  | push => obtain ⟨_, _, rfl⟩ := Push.step_db hs; rfl
  | media => obtain ⟨_, _, rfl⟩ := MediaService.step_db hs; rfl
  | profile => obtain ⟨_, rfl⟩ := ProfileService.step_db hs; rfl

/-- An action of the server leaves a seat as it is, or is one of `RoomsService`. -/
theorem reseats_of_serverStep {k : ServerCall} {l l' : ServerPc}
    (hs : (server cfg decode json).step c k h l = some (h', l')) (r u : String) :
    seat h'.world.db r u = seat h.world.db r u ∨ ∃ call pc, k = .inr ⟨.rooms, call⟩ ∧
      l = .inr ⟨.rooms, pc⟩ ∧ Reseats h.world r u call pc (seat h'.world.db r u) := by
  obtain ⟨h₁, hacts, rfl⟩ := server_step hs
  rw [world_deliver]
  cases hacts with
  | socket hsocket =>
    refine .inl ?_
    cases acts_of_socket hsocket with
    | connect hconnect => rw [(connectStep_world hconnect).1]
    | read hread =>
      rcases onReadStep_cases hread with rfl | ⟨_, _, _, _, w, _, hmark, rfl⟩
      · rfl
      · exact seat_readStep hmark r u
  | event hevent => exact .inl (seat_of_roomMembers (kept_of_eventStep hevent).members r u)
  | @service s call pc pc' w hservice =>
    by_cases hrooms : s = .rooms
    · subst hrooms
      exact (Rooms.reseats_of_step hservice).imp_right fun hr => ⟨call, pc, rfl, rfl, hr⟩
    · exact .inl (seat_of_service hservice hrooms r u)

end Step

/-! ## Checkpoints of a request -/

section Checkpoints
variable {ι : Type} [DecidableEq ι] {cfg : AppConfig} {decode : String → Option Jwt}
  {json : Messages.Json} {D : Discipline Hub ServerCall ServerPc} {calls : ι → ServerCall}
  {hub : Hub} {Q : Pool Hub ServerPc ι} {i : ι}

/-- The process has been at its request to `RoomsService`, in a state with `φ`. -/
abbrev Faced (cfg : AppConfig) (decode : String → Option Jwt) (json : Messages.Json)
    (D : Discipline Hub ServerCall ServerPc) (calls : ι → ServerCall) (hub : Hub) (i : ι)
    (φ : World → Rooms.Pc → Prop) (Q : Pool Hub ServerPc ι) : Prop :=
  Met (server cfg decode json) D calls ((server cfg decode json).initial calls hub)
    (fun R => ∃ pc, R.pcs i = .inr ⟨.rooms, pc⟩ ∧ φ R.shared.world pc) Q

/-- A request that has passed a checkpoint has met what this asks for. -/
theorem request_passed {call : Rooms.Call} {p : Rooms.Pc → Prop} {φ : World → Rooms.Pc → Prop}
    (hrun : Run (server cfg decode json) D calls ((server cfg decode json).initial calls hub) Q)
    (hcall : calls i = .inr ⟨.rooms, call⟩) (h0 : ¬ p (Rooms.start call))
    (hstep : ∀ {c w w' pc pc'}, Rooms.step json c call w pc = some (w', pc') → p pc' →
      p pc ∨ φ w pc)
    {pc : Rooms.Pc} (hpc : Q.pcs i = .inr ⟨.rooms, pc⟩) (hp : p pc) :
    Faced cfg decode json D calls hub i φ Q := by
  have hmet := hrun.passed
    (p := fun k l => k = .inr ⟨.rooms, call⟩ ∧ ∃ pc, l = .inr ⟨.rooms, pc⟩ ∧ p pc)
    (φ := fun k h l => k = .inr ⟨.rooms, call⟩ ∧ ∃ pc, l = .inr ⟨.rooms, pc⟩ ∧ φ h.world pc)
    ?_ ?_ i ⟨hcall, pc, hpc, hp⟩
  · obtain ⟨R, h₁, ⟨-, hφ⟩, h₂⟩ := hmet
    exact ⟨R, h₁, hφ, h₂⟩
  · rintro j ⟨hj, pc, hpc, hp⟩
    have hstart : (server cfg decode json).start (calls j) = .inr ⟨.rooms, pc⟩ := hpc
    rw [hj] at hstart
    cases hstart
    exact h0 hp
  · rintro c k h l h' l' hs ⟨rfl, pc', rfl, hp⟩
    obtain ⟨h₁, hacts, -⟩ := server_step hs
    cases hacts with
    | @service _ _ pc₀ _ w hservice =>
      rcases hstep hservice hp with hold | hφ
      · exact .inl ⟨rfl, pc₀, rfl, hold⟩
      · exact .inr (.inl ⟨rfl, pc₀, rfl, hφ⟩)

end Checkpoints

/-! ## Seats -/

section Rights
variable {ι : Type} [DecidableEq ι] (cfg : AppConfig) (decode : String → Option Jwt)
  (json : Messages.Json) (D : Discipline Hub ServerCall ServerPc) (calls : ι → ServerCall)
  (hub : Hub)

/-- `assertActiveUsers` has found `u` in the request of `i`. -/
def FoundActive (u : String) (R : Pool Hub ServerPc ι) (i : ι) : Prop :=
  Faced cfg decode json D calls hub i
    (fun w pc => pc = .activeUsers ∧ Rooms.ActiveUser w.db u) R

/-- By what right the request of `i` gives `u` the seat in the room. Whom it makes a member it has
found active. -/
inductive ByRight (r u : String) (R : Pool Hub ServerPc ι) (i : ι) : Option MemberRole → Prop
  /-- The room is new. -/
  | foundsDirect {a dto} : calls i = .inr ⟨.rooms, .createRoom a dto⟩ →
      (∀ x ∈ R.shared.world.db.rooms.rows, x.id ≠ r) → u = a ∨ u = dto.otherId →
      FoundActive cfg decode json D calls hub u R i → ByRight r u R i (some .MEMBER)
  | foundsGroup {a dto} : calls i = .inr ⟨.rooms, .createRoom a dto⟩ →
      (∀ x ∈ R.shared.world.db.rooms.rows, x.id ≠ r) → u ∈ dto.memberIds a →
      FoundActive cfg decode json D calls hub u R i →
      ByRight r u R i (some (if u = a then .OWNER else .MEMBER))
  /-- The direct room of the pair is reopened, by one of the pair. -/
  | returns {a dto role} : calls i = .inr ⟨.rooms, .createRoom a dto⟩ → u = a ∨ u = dto.otherId →
      Faced cfg decode json D calls hub i (fun w _ => ∃ x ∈ w.db.rooms.rows, x.id = r ∧
        x.directKey = some (Rooms.directKey a dto.otherId)) R →
      FoundActive cfg decode json D calls hub u R i → ByRight r u R i (some role)
  | joins {a userIds} : calls i = .inr ⟨.rooms, .addMembers r a userIds⟩ → u ∈ userIds →
      Faced cfg decode json D calls hub i (Rooms.GuardFinds r a Rooms.InCharge) R →
      FoundActive cfg decode json D calls hub u R i → ByRight r u R i (some .MEMBER)
  | ranks {a role} : calls i = .inr ⟨.rooms, .updateMemberRole r a u role⟩ → u ≠ a →
      Faced cfg decode json D calls hub i (Rooms.GuardFinds r a (· = .OWNER)) R →
      ByRight r u R i (some role)
  /-- The owner makes another the owner. -/
  | yields {t} : calls i = .inr ⟨.rooms, .updateMemberRole r u t .OWNER⟩ →
      Faced cfg decode json D calls hub i (Rooms.GuardFinds r u (· = .OWNER)) R →
      ByRight r u R i (some .ADMIN)
  /-- The owner has left, and has found `u` among the others. -/
  | inherits {a} : calls i = .inr ⟨.rooms, .removeMember r a a⟩ →
      Faced cfg decode json D calls hub i (Rooms.TargetFinds r a fun _ role => role = .OWNER) R →
      Faced cfg decode json D calls hub i (fun w _ => ∃ role, seat w.db r u = some role) R →
      ByRight r u R i (some .OWNER)
  | leaves : calls i = .inr ⟨.rooms, .removeMember r u u⟩ → ByRight r u R i none
  /-- The actor has been found in a higher role than `u`. -/
  | kicked {a role target} : calls i = .inr ⟨.rooms, .removeMember r a u⟩ →
      Rooms.Outranks role target →
      Met (server cfg decode json) D calls ((server cfg decode json).initial calls hub)
        (fun S => seat S.shared.world.db r u = some target ∧
          Faced cfg decode json D calls hub i (Rooms.GuardFinds r a (· = role)) S) R →
      ByRight r u R i none

variable {cfg decode json D calls hub} {P Q R : Pool Hub ServerPc ι} {i : ι}

theorem Faced.imp {φ ψ : World → Rooms.Pc → Prop} (himp : ∀ w pc, φ w pc → ψ w pc)
    (h : Faced cfg decode json D calls hub i φ Q) : Faced cfg decode json D calls hub i ψ Q := by
  obtain ⟨S, h₁, ⟨pc, hpc, hφ⟩, h₂⟩ := h
  exact ⟨S, h₁, ⟨pc, hpc, himp _ pc hφ⟩, h₂⟩

/-- What the target has been found to be, and by whom. -/
theorem kicked_of_departing
    (hrun : Run (server cfg decode json) D calls ((server cfg decode json).initial calls hub) R)
    {r a u : String} {type : RoomType} {role : MemberRole}
    (hcall : calls i = .inr ⟨.rooms, .removeMember r a u⟩)
    (hpc : R.pcs i = .inr ⟨.rooms, .leave type role⟩) :
    ByRight cfg decode json D calls hub r u R i none := by
  obtain ⟨S, h₁, ⟨_, hS, actorRole, _, rfl, role', hseat, rfl, hmay⟩, h₂⟩ :=
    request_passed (p := Rooms.Departing role) hrun hcall id Rooms.departing_of_step hpc rfl
  rcases hmay with rfl | houtranks
  · exact .leaves hcall
  have hguard : Faced cfg decode json D calls hub i (Rooms.GuardFinds r a (· = actorRole)) S :=
    request_passed (p := Rooms.RemoveCleared actorRole) h₁ hcall id
      Rooms.removeCleared_of_step hS rfl
  exact .kicked hcall houtranks ⟨S, h₁, ⟨hseat, hguard⟩, h₂⟩

/-- Whom a request is about to make a member it has found active. -/
theorem foundActive_of_invited
    (hrun : Run (server cfg decode json) D calls ((server cfg decode json).initial calls hub) R)
    {u : String} {call : Rooms.Call} {pc : Rooms.Pc} (hcall : calls i = .inr ⟨.rooms, call⟩)
    (hpc : R.pcs i = .inr ⟨.rooms, pc⟩) (hu : u ∈ call.invited pc) :
    FoundActive cfg decode json D calls hub u R i := by
  refine request_passed (p := fun pc => u ∈ call.invited pc) hrun hcall ?_
    (fun hs hu => Rooms.invited_of_step hs hu) hpc hu
  intro hstart
  cases call with
  | createRoom a dto =>
    rcases Rooms.createStart_cases a dto with hs | ⟨_, hs⟩ <;> rw [Rooms.start, hs] at hstart <;>
      cases hstart
  | _ => cases hstart

/-- Who gives another seat has the right to. -/
theorem byRight_of_reseats
    (hrun : Run (server cfg decode json) D calls ((server cfg decode json).initial calls hub) R)
    {r u : String} {call : Rooms.Call} {pc : Rooms.Pc} {v : Option MemberRole}
    (hcall : calls i = .inr ⟨.rooms, call⟩) (hpc : R.pcs i = .inr ⟨.rooms, pc⟩)
    (h : Reseats R.shared.world r u call pc v) :
    ByRight cfg decode json D calls hub r u R i v := by
  cases h with
  | foundsDirect hnew hu =>
    exact .foundsDirect hcall hnew hu (foundActive_of_invited hrun hcall hpc (List.mem_pair.2 hu))
  | foundsGroup hnew hu =>
    exact .foundsGroup hcall hnew hu (foundActive_of_invited hrun hcall hpc hu)
  | @returns a dto m hu hm =>
    refine .returns hcall hu ?_ (foundActive_of_invited hrun hcall hpc (List.mem_pair.2 hu))
    refine request_passed (p := (· = .reactivate r)) hrun hcall ?_ Rooms.reactivate_of_step hpc rfl
    intro h
    rcases Rooms.createStart_cases a dto with hs | ⟨_, hs⟩ <;> rw [Rooms.start, hs] at h <;> cases h
  | @joins a userIds head existing todo added =>
    obtain ⟨_, -, ⟨_, -, hu⟩, -⟩ : Faced cfg decode json D calls hub i (fun _ _ => u ∈ userIds) R :=
      request_passed (p := Rooms.Awaits u) hrun hcall id Rooms.awaits_of_step hpc
        List.mem_cons_self
    exact .joins hcall hu
      (request_passed (p := Rooms.AddCleared) hrun hcall id Rooms.addCleared_of_step hpc trivial)
      (foundActive_of_invited hrun hcall hpc hu)
  | @ranks a role =>
    obtain ⟨_, -, ⟨_, -, _, _, -, _, -, hne⟩, -⟩ := request_passed (p := (· = .setRole)) hrun
      hcall (fun h => by cases h) Rooms.setRole_of_step hpc rfl
    exact .ranks hcall hne
      (request_passed (p := Rooms.RoleCleared) hrun hcall id Rooms.roleCleared_of_step hpc trivial)
  | yields =>
    exact .yields hcall
      (request_passed (p := Rooms.RoleCleared) hrun hcall id Rooms.roleCleared_of_step hpc trivial)
  | leaves => exact kicked_of_departing hrun hcall hpc
  | @inherits a t =>
    have hvacant := request_passed (p := Rooms.Vacating) hrun hcall id Rooms.vacating_of_step hpc
      trivial
    have hmember := request_passed (p := (· = .promote u)) hrun hcall
      (fun h => by cases h) Rooms.promote_of_step hpc rfl
    obtain rfl : t = a := by
      obtain ⟨_, -, ⟨_, -, _, _, -, _, -, -, hself⟩, -⟩ := hvacant
      exact hself
    have howner := hvacant.imp fun w pc h => by
      obtain ⟨role, type, hpc, role', hs, ho, -⟩ := h
      exact (⟨role, type, hpc, role', hs, ho⟩ : Rooms.TargetFinds r t (fun _ ρ => ρ = .OWNER) w pc)
    exact .inherits hcall howner (hmember.imp fun _ _ h => h.2)

/-- **Seats by right.** Whatever is in flight: a seat that has changed in a run, so that `u` has
come into the room or out of it or to another role, has been given by a request entitled to it. -/
theorem seats_by_right
    (hrun : Run (server cfg decode json) D calls ((server cfg decode json).initial calls hub) Q)
    {r u : String} {v : Option MemberRole} (hbefore : seat hub.world.db r u ≠ v)
    (hv : seat Q.shared.world.db r u = v) :
    Brought (server cfg decode json) D calls ((server cfg decode json).initial calls hub)
      (fun h => seat h.world.db r u = v)
      (fun R i => ByRight cfg decode json D calls hub r u R i v) Q := by
  refine hrun.brought hbefore ?_ ?_ hv
  · intro R i c h' l' hr _ hs hno hyes
    rcases reseats_of_serverStep hs r u with hsame | ⟨call, pc, hcall, hpc, hreseats⟩
    · exact absurd (hsame.symm.trans hyes) hno
    · exact byRight_of_reseats hr hcall hpc (hyes ▸ hreseats)
  · intro e h hyes
    have hdb : ((server cfg decode json).env e h).world.db = h.world.db := db_env cfg e h
    rwa [hdb] at hyes

end Rights

/-! ### A member is put out -/

def hubGroup : Hub := { world := Rooms.groupR1 }

/-- `a`, who owns the group, puts `b` out. -/
def putOut : Unit → ServerCall := fun _ => .inr ⟨.rooms, .removeMember "r1" "a" "b"⟩

/-- `b` is out, and `a` had the right. -/
theorem seats_by_right_r1 : ∃ Q : Pool Hub ServerPc Unit, seat Q.shared.world.db "r1" "b" = none ∧
    Brought (server {} (fun _ => none) Messages.noJson) Discipline.free putOut
      ((server {} (fun _ => none) Messages.noJson).initial putOut hubGroup)
      (fun h => seat h.world.db "r1" "b" = none)
      (fun R i => ByRight {} (fun _ => none) Messages.noJson Discipline.free putOut hubGroup
        "r1" "b" R i none) Q := by
  have hexec : ((server {} (fun _ => none) Messages.noJson).exec always putOut
      ((server {} (fun _ => none) Messages.noJson).initial putOut hubGroup)
      (List.replicate 4 (.step () {}))).any
        (fun Q => seat Q.shared.world.db "r1" "b" == none) = true := by decide
  obtain ⟨Q, hrun, hQ⟩ := Machine.exec_reaches_free hexec
  have hv := beq_iff_eq.1 hQ
  exact ⟨Q, hv, seats_by_right hrun (by decide) hv⟩

end Intaktok.Realtime
