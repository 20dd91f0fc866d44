import Mathlib.Data.List.Perm.Subperm
import Intaktok.Messages.Verdict
import Intaktok.Rooms.Requests
import Intaktok.Rooms.UpdateRoom
/-
# What a message and a request to a room may spend

How many actions are left at most. The retries of `persistWithSeq` (`messages.service.ts:134`) are
bounded by `SEQ_RETRY`; the loop of `addMembers` (`rooms.service.ts:300`) by the users the request
names.
-/

namespace Intaktok

open Tables Interleave

/-! ## Messages -/

namespace Messages

theorem ahead_createStart (p : CreateMessageParams) : (createStart p).ahead ≤ 50 := by
  rcases createStart_cases p with h | ⟨k, h⟩ <;> rw [h]
  · exact ahead_afterLookup.1.le
  · exact le_rfl

@[simp] def ReadPc.rank : ReadPc → ℕ
  | .update => 2
  | .members _ => 1
  | .done _ => 0

theorem rank_readStep {r u : WhereString} {n : JsNumber} {w w' : World} {pc pc' : ReadPc}
    (h : readStep r u n w pc = some (w', pc')) : pc'.rank + 1 ≤ pc.rank := by
  cases pc <;> simp only [readStep] at h
  case update =>
    split at h
    · cases h; simp
    · split at h
      · cases h; simp
      · split at h <;> cases h <;> simp
  case members l => cases h; simp
  case done r => cases h

@[simp] def DeletePc.rank : DeletePc → ℕ
  | .find => 3
  | .update _ => 2
  | .members => 1
  | .done _ => 0

theorem rank_deleteStep {cfg : AppConfig} {roomId messageId requesterId : String} {w w' : World}
    {pc pc' : DeletePc} (h : deleteStep cfg roomId messageId requesterId w pc = some (w', pc')) :
    pc'.rank + 1 ≤ pc.rank := by
  cases pc <;> simp only [deleteStep] at h
  case find =>
    cases h
    split
    · simp
    · split
      · simp
      · split
        · simp
        · split
          · simp
          · split
            · simp
            · split <;> simp
  case update deletedAt => split at h <;> cases h <;> simp
  case members => cases h; simp
  case done r => cases h

@[simp] def Pc.rank : Pc → ℕ
  | .create pc => pc.ahead
  | .read pc => pc.rank
  | .delete pc => pc.rank

theorem rank_step {cfg : AppConfig} {json : Json} {c : Choice} {call : Call} {w w' : World}
    {pc pc' : Pc} (h : step cfg json c call w pc = some (w', pc')) : pc'.rank + 1 ≤ pc.rank := by
  unfold step at h
  split at h
  · obtain ⟨⟨w₁, pc₁⟩, hs, he⟩ := Option.map_eq_some_iff.1 h
    cases he
    exact ahead_createStep hs
  · obtain ⟨⟨w₁, pc₁⟩, hs, he⟩ := Option.map_eq_some_iff.1 h
    cases he
    exact rank_readStep hs
  · obtain ⟨⟨w₁, pc₁⟩, hs, he⟩ := Option.map_eq_some_iff.1 h
    cases he
    exact rank_deleteStep hs
  · cases h

end Messages

/-! ## Rooms -/

namespace Rooms

@[simp] def ViewPc.rank : ViewPc → ℕ
  | .room => 3
  | .avatars _ _ => 2
  | .unread _ _ _ => 1
  | .done _ => 0

theorem rank_afterAvatars (json : Messages.Json) (requesterId : String) (r : RoomWithMembers)
    (found : List String) : (afterAvatars json requesterId r found).rank ≤ 1 := by
  unfold afterAvatars
  split <;> simp [built]

theorem rank_viewStep {json : Messages.Json} {roomId requesterId : String} {w : World}
    {pc pc' : ViewPc} (h : viewStep json roomId requesterId w pc = some pc') :
    pc'.rank + 1 ≤ pc.rank := by
  cases pc <;> simp only [viewStep] at h
  case room =>
    cases h
    split
    · simp
    · rename_i r _
      split
      · exact Nat.succ_le_succ ((rank_afterAvatars json requesterId r []).trans (by decide))
      · simp
  case avatars r ids => cases h; exact Nat.succ_le_succ (rank_afterAvatars json requesterId r _)
  case unread r found l => cases h; simp [built]
  case done r => cases h

def TailPc.rank : TailPc → ℕ
  | .system pc => pc.ahead
  | .recipients => 4
  | .lifecycle _ pc => pc.rank
  | .view pc => pc.rank

/-- A system message has no key: it begins with its number. -/
@[simp] def Task.rank : Task → ℕ
  | .system _ _ => 40
  | .lifecycle _ (.fixed _) => 3
  | .lifecycle _ _ => 4
  | .view _ => 3

@[simp] def Task.ranks : List Task → ℕ
  | [] => 0
  | task :: todo => task.rank + Task.ranks todo

theorem rank_start (json : Messages.Json) (roomId : String) (task : Task) :
    (task.start json roomId).rank = task.rank := by
  cases task with
  | system actorId payload => rfl
  | lifecycle event recipients => cases recipients <;> rfl
  | view requesterId => rfl

/-- `load` is how many users there are to add. -/
def Pc.rank (load : ℕ) : Pc → ℕ
  | .guard => load + 52
  | .room _ => load + 51
  | .activeUsers => load + 50
  | .head => load + 49
  | .existing _ => load + 48
  | .write _ _ todo _ => todo.length + 47
  | .target _ _ => 49
  | .setRole => 48
  | .leave _ _ => 48
  | .candidates => 46
  | .promote _ => 45
  | .avatar _ => 48
  | .insertGroup => 47
  | .directRoom => 8
  | .insertDirect => 7
  | .winner _ => 5
  | .reactivate _ => 4
  | .tail _ _ todo pc _ => pc.rank + Task.ranks todo
  | .done _ => 0

theorem rank_proceed (load : ℕ) (json : Messages.Json) (roomId : String)
    (result : Option RoomView) (todo : List Task) :
    (proceed json roomId result todo).rank load = Task.ranks todo := by
  cases todo with
  | nil => rfl
  | cons task todo =>
    exact congrArg (· + Task.ranks todo) (rank_start json roomId task)

theorem rank_afterCreate (load : ℕ) (json : Messages.Json) (r : String) (task : Task)
    (todo : List Task) (result : Option RoomView) (pc : Messages.CreatePc) :
    (afterCreate json r task todo result pc).rank load ≤ pc.ahead + Task.ranks todo := by
  unfold afterCreate
  split
  · rw [rank_proceed]
    exact Nat.le_add_left ..
  · exact Nat.zero_le _
  · exact le_rfl

theorem rank_tailStep (load : ℕ) {json : Messages.Json} {c : Choice} {r : String} {task : Task}
    {todo : List Task} {result : Option RoomView} {w w' : World} {pc : TailPc} {pc' : Pc}
    (h : tailStep json c r task todo result w pc = some (w', pc')) :
    pc'.rank load + 1 ≤ pc.rank + Task.ranks todo := by
  cases pc with
  | system pc =>
    simp only [tailStep] at h
    split at h
    · rename_i actorId payload
      obtain ⟨⟨w₁, pc₁⟩, hs, he⟩ := Option.map_eq_some_iff.1 h
      have hnext : pc' = afterCreate json r (.system actorId payload) todo result pc₁ := by
        cases he
        rfl
      have hr := Messages.ahead_createStep hs
      have hn := rank_afterCreate load json r (.system actorId payload) todo result pc₁
      rw [hnext]
      simp only [TailPc.rank]
      omega
    · cases h
  | recipients =>
    simp only [tailStep] at h
    split at h <;> cases h
    simp only [Pc.rank, TailPc.rank, ViewPc.rank]
    omega
  | lifecycle ids vp =>
    simp only [tailStep] at h
    split at h
    · obtain ⟨vp', hs, he⟩ := Option.map_eq_some_iff.1 h
      have hr := rank_viewStep hs
      split at he <;> cases he
      · rw [rank_proceed]; simp only [TailPc.rank]; omega
      · simp only [Pc.rank, TailPc.rank]; omega
      · simp only [Pc.rank, TailPc.rank]; omega
    · cases h
  | view vp =>
    simp only [tailStep] at h
    split at h
    · obtain ⟨vp', hs, he⟩ := Option.map_eq_some_iff.1 h
      have hr := rank_viewStep hs
      split at he <;> cases he
      · rw [rank_proceed]; simp only [TailPc.rank]; omega
      · simp only [Pc.rank, TailPc.rank]; omega
      · simp only [Pc.rank, TailPc.rank]; omega
    · cases h

theorem rank_orFail {α : Type} {load n : ℕ} {x : Except AppException α} {next : α → Pc}
    (h : ∀ a, (next a).rank load ≤ n) : (orFail x next).rank load ≤ n := by
  unfold orFail
  split
  · exact h _
  · exact Nat.zero_le _

theorem rank_createRoom {json : Messages.Json} {c : Choice} {creatorId : String}
    {dto : CreateRoomDto} {w w' : World} {pc pc' : Pc}
    (h : createStep json c creatorId dto w pc = some (w', pc')) :
    pc'.rank 0 + 1 ≤ pc.rank 0 := by
  cases pc <;> simp only [createStep] at h
  case activeUsers =>
    cases h
    refine Nat.succ_le_succ ?_
    split
    · exact rank_orFail fun _ => by simp [Pc.rank]
    · refine rank_orFail fun _ => ?_
      split <;> simp [Pc.rank]
  case directRoom => cases h; split <;> simp [Pc.rank]
  case insertDirect =>
    split at h
    · split at h <;> cases h
      · rw [rank_proceed]; simp [Pc.rank]
      · simp [Pc.rank]
      · simp [Pc.rank]
    · cases h
  case winner e => cases h; split <;> simp [Pc.rank]
  case reactivate roomId => cases h; rw [rank_proceed]; simp [Pc.rank]
  case avatar mediaId =>
    cases h
    exact Nat.succ_le_succ (rank_orFail fun _ => by simp [Pc.rank])
  case insertGroup =>
    split at h
    · split at h <;> cases h
      · rw [rank_proceed]; simp [Pc.rank]
      · simp [Pc.rank]
    · cases h
  all_goals cases h

theorem rank_nextWrite (load : ℕ) (json : Messages.Json) (r a : String) (head : ℕ)
    (existing : List RoomMember) (todo added : List String) :
    (nextWrite json r a head existing todo added).rank load ≤ todo.length + 47 := by
  have hlen := (todo.dropWhile_sublist fun userId =>
    existing.any fun m => m.userId == userId && m.leftAt.isNone).length_le
  unfold nextWrite
  split
  · rw [rank_proceed]
    split <;> simp
  · exact Nat.add_le_add_right hlen 47

theorem rank_addMembers {json : Messages.Json} {r a : String} {userIds : List String}
    {w w' : World} {pc pc' : Pc} (h : addStep json r a userIds w pc = some (w', pc')) :
    pc'.rank userIds.length + 1 ≤ pc.rank userIds.length := by
  cases pc <;> simp only [addStep] at h
  case guard =>
    cases h
    exact Nat.succ_le_succ (rank_orFail fun _ => le_rfl)
  case room role =>
    cases h
    refine Nat.succ_le_succ (rank_orFail fun _ => rank_orFail fun _ => le_rfl)
  case activeUsers => cases h; exact Nat.succ_le_succ (rank_orFail fun _ => le_rfl)
  case head => cases h; exact le_rfl
  case existing head =>
    cases h
    have hlen := (List.Nodup.subperm (nodup_eraseDups userIds)
      fun _ hu => List.mem_eraseDups.1 hu).length_le
    exact (Nat.succ_le_succ (rank_nextWrite ..)).trans (by simp only [Pc.rank]; omega)
  case write head existing todo added =>
    split at h
    · cases h
    · rename_i userId todo
      split at h <;> cases h
      · exact Nat.succ_le_succ (rank_nextWrite ..)
      · simp [Pc.rank]
  all_goals cases h

theorem rank_updateMemberRole {json : Messages.Json} {r a t : String} {role : MemberRole}
    {w w' : World} {pc pc' : Pc} (h : roleStep json r a t role w pc = some (w', pc')) :
    pc'.rank 0 + 1 ≤ pc.rank 0 := by
  cases pc <;> simp only [roleStep] at h
  case guard => cases h; exact Nat.succ_le_succ (rank_orFail fun _ => le_rfl)
  case room actorRole =>
    cases h
    exact Nat.succ_le_succ (rank_orFail fun _ => rank_orFail fun _ => by simp [Pc.rank])
  case target actorRole type =>
    cases h
    split
    · split
      · simp [Pc.fail, Pc.rank]
      · split <;> simp [Pc.fail, Pc.rank]
    · simp [Pc.fail, Pc.rank]
  case setRole =>
    split at h <;> cases h
    · rw [rank_proceed]; simp [Pc.rank]
    · simp [Pc.rank]
  all_goals cases h

theorem rank_afterRemoval (load : ℕ) (json : Messages.Json) (r a t : String) (type : RoomType) :
    (afterRemoval json r a t type).rank load ≤ 44 := by
  unfold afterRemoval
  rw [rank_proceed]
  split <;> simp

theorem rank_removeMember {json : Messages.Json} {c : Choice} {r a t : String}
    {w w' : World} {pc pc' : Pc} (h : removeStep json c r a t w pc = some (w', pc')) :
    pc'.rank 0 + 1 ≤ pc.rank 0 := by
  have hafter : ∀ type, (afterRemoval json r a t type).rank 0 + 1 ≤ 45 :=
    fun type => Nat.succ_le_succ (rank_afterRemoval 0 json r a t type)
  cases pc <;> simp only [removeStep] at h
  case guard => cases h; exact Nat.succ_le_succ (rank_orFail fun _ => le_rfl)
  case room actorRole => cases h; split <;> simp [Pc.fail, Pc.rank]
  case target actorRole type =>
    cases h
    refine Nat.succ_le_succ ?_
    split
    · split
      · simp [Pc.fail, Pc.rank]
      · exact rank_orFail fun _ => by simp [Pc.rank]
    · simp [Pc.fail, Pc.rank]
  case leave type role =>
    split at h <;> cases h
    · split
      · simp [Pc.rank]
      · exact (hafter type).trans (by simp [Pc.rank])
    · simp [Pc.rank]
  case candidates =>
    split at h <;> cases h
    split
    · simp [Pc.rank]
    · exact (hafter .GROUP).trans (by simp [Pc.rank])
  case promote userId =>
    split at h <;> cases h
    · exact hafter .GROUP
    · simp [Pc.rank]
  all_goals cases h

/-- How many users a call adds. -/
def Call.load : Call → ℕ
  | .addMembers _ _ userIds => userIds.length
  | _ => 0

theorem rank_step {json : Messages.Json} {c : Choice} {call : Call} {w w' : World} {pc pc' : Pc}
    (h : step json c call w pc = some (w', pc')) :
    pc'.rank call.load + 1 ≤ pc.rank call.load := by
  unfold step at h
  split at h
  · exact rank_tailStep _ h
  · cases call with
    | createRoom creatorId dto => exact rank_createRoom h
    | addMembers r a userIds => exact rank_addMembers h
    | updateMemberRole r a t role => exact rank_updateMemberRole h
    | removeMember r a t => exact rank_removeMember h

theorem rank_createRoomStart (creatorId : String) (dto : CreateRoomDto) :
    (createStart creatorId dto).rank 0 ≤ 50 := by
  unfold createStart
  split
  · split
    · split <;> simp [Pc.fail, Pc.rank]
    · simp [Pc.fail, Pc.rank]
  · simp [Pc.rank]

def UpdatePc.rank : UpdatePc → ℕ
  | .guard => 91
  | .room _ => 90
  | .avatar _ _ => 89
  | .update _ => 88
  | .after pc => pc.rank 0

theorem rank_afterUpdate (json : Messages.Json) (r a : String) (dto : UpdateRoomDto)
    (room : Room) : (afterUpdate json r a dto room).rank 0 ≤ 87 := by
  unfold afterUpdate
  rw [rank_proceed]
  split
  · split <;> split <;> simp
  · split <;> simp

theorem rank_updateStep {json : Messages.Json} {c : Choice} {r a : String} {dto : UpdateRoomDto}
    {w w' : World} {pc pc' : UpdatePc} (h : updateStep json c r a dto w pc = some (w', pc')) :
    pc'.rank + 1 ≤ pc.rank := by
  cases pc <;> simp only [updateStep] at h
  case guard => cases h; split <;> simp [UpdatePc.fail, Pc.fail, UpdatePc.rank, Pc.rank]
  case room role =>
    cases h
    split
    · simp [UpdatePc.fail, Pc.fail, UpdatePc.rank, Pc.rank]
    · split
      · simp [UpdatePc.fail, Pc.fail, UpdatePc.rank, Pc.rank]
      · unfold afterChecks
        split <;> simp [UpdatePc.rank]
  case avatar room mediaId =>
    cases h
    split <;> simp [UpdatePc.fail, Pc.fail, UpdatePc.rank, Pc.rank]
  case update room =>
    split at h <;> cases h
    · exact Nat.succ_le_succ (rank_afterUpdate ..)
    · simp [UpdatePc.rank, Pc.rank]
  case after pc =>
    cases pc with
    | tail r task todo pc result =>
      obtain ⟨⟨w₁, pc₁⟩, hs, he⟩ := Option.map_eq_some_iff.1 h
      cases he
      exact rank_tailStep 0 hs
    | _ => cases h

end Rooms

end Intaktok
