import Intaktok.Rooms.Roster
import Intaktok.Messages.Log
/-
# What one action of `RoomsService` does

One relation for each kind of request lists its actions up to the last write; after that, in its
`tail`, a request changes neither memberships nor anything of a room but `lastMessageAt`
(`step_cases`). An action that fails leaves the state as it was.
-/

namespace Intaktok.Rooms

open Tables Leadership Messages

/-- A check: what follows holds if it does of a refusal and of whatever has been accepted. -/
theorem orFail_rule {α : Type} {P : Pc → Prop} {x : Except AppException α} {next : α → Pc}
    (hok : ∀ y, x = .ok y → P (next y)) (hfail : ∀ e, x = .error e → P (.fail e)) :
    P (orFail x next) := by
  cases x with
  | ok y => exact hok y rfl
  | error e => exact hfail e rfl

/-! ## The tail -/

structure Kept (w w' : World) : Prop where
  members : w'.db.roomMembers = w.db.roomMembers
  rooms : roomStubs w'.db = roomStubs w.db

theorem Kept.refl (w : World) : Kept w w := ⟨rfl, rfl⟩

theorem kept_of_createActs {json : Json} {c : Choice} {p : CreateMessageParams} {w w' : World}
    {pc pc' : CreatePc} (h : CreateActs json c p w pc w' pc') : Kept w w' := by
  cases h.effect with
  | noted =>
    refine ⟨rfl, ?_⟩
    simp only [roomStubs, setLastMessageAt]
    rw [Table.map_updateWhere]
    exact fun _ => rfl
  | _ => exact ⟨rfl, rfl⟩

/-- The request has done its writes. -/
def past : Pc → Bool
  | .tail _ _ _ _ _ | .done _ => true
  | _ => false

@[simp] theorem past_proceed (json : Json) (r : String) (result : Option RoomView)
    (todo : List Task) : past (proceed json r result todo) = true := by
  cases todo <;> rfl

/-- The message a request is about to create, or is creating. -/
def Pc.creation : Pc → Option CreatePc
  | .tail _ _ _ (.system pc) _ => some pc
  | _ => none

/-- The request has done its writes, and no message of it is under way. -/
def Pc.Between (pc : Pc) : Prop :=
  past pc = true ∧ ∀ q, pc.creation = some q → ∃ p, q = Messages.createStart p

theorem between_done (r : Except Failure (Option RoomView)) : (Pc.done r).Between :=
  ⟨rfl, fun _ hq => nomatch hq⟩

theorem between_proceed (json : Json) (r : String) (result : Option RoomView)
    (todo : List Task) : (proceed json r result todo).Between := by
  refine ⟨past_proceed .., fun q hq => ?_⟩
  cases todo with
  | nil => cases hq
  | cons task todo =>
    cases task with
    | system actorId payload => cases hq; exact ⟨_, rfl⟩
    | lifecycle event recipients => cases recipients <;> cases hq
    | view requesterId => cases hq

/-- Where a request goes once the message it creates is at `pc`. -/
def afterCreate (json : Json) (r : String) (task : Task) (todo : List Task)
    (result : Option RoomView) : CreatePc → Pc
  | .done (.ok _) => proceed json r result todo
  | .done (.error e) => .done (.error e)
  | pc => .tail r task todo (.system pc) result

/-- An action of a tail: what the task does that is at hand, and where the request goes. -/
inductive TailMove (json : Json) (c : Choice) (r : String) (todo : List Task)
    (result : Option RoomView) (w : World) : Task → TailPc → World → Pc → Prop
  | created {actorId payload q w' q'} :
      CreateActs json c (systemParams json r actorId payload) w q w' q' →
      TailMove json c r todo result w (.system actorId payload) (.system q) w'
        (afterCreate json r (.system actorId payload) todo result q')
  | addressed {event x} : TailMove json c r todo result w (.lifecycle event x) .recipients w
      (.tail r (.lifecycle event x) todo (.lifecycle (recipientsOf w.db r x) .room) result)
  | shows {event x ids vp vp'} : viewStep json r (ids.headD r) w vp = some vp' →
      TailMove json c r todo result w (.lifecycle event x) (.lifecycle ids vp) w
        (.tail r (.lifecycle event x) todo (.lifecycle ids vp') result)
  | emitted {event x ids vp room} :
      viewStep json r (ids.headD r) w vp = some (.done (.ok room)) →
      TailMove json c r todo result w (.lifecycle event x) (.lifecycle ids vp)
        (w.emit (Lifecycle.event r ids room event)) (proceed json r result todo)
  | unshown {event x ids vp e} :
      viewStep json r (ids.headD r) w vp = some (.done (.error e)) →
      TailMove json c r todo result w (.lifecycle event x) (.lifecycle ids vp) w (.done (.error e))
  | views {u vp vp'} : viewStep json r u w vp = some vp' →
      TailMove json c r todo result w (.view u) (.view vp) w
        (.tail r (.view u) todo (.view vp') result)
  | viewed {u vp room} : viewStep json r u w vp = some (.done (.ok room)) →
      TailMove json c r todo result w (.view u) (.view vp) w (proceed json r (some room) todo)
  | unviewed {u vp e} : viewStep json r u w vp = some (.done (.error e)) →
      TailMove json c r todo result w (.view u) (.view vp) w (.done (.error e))

theorem move_of_tailStep {json : Json} {c : Choice} {r : String} {task : Task} {todo : List Task}
    {result : Option RoomView} {w w' : World} {pc : TailPc} {pc' : Pc}
    (h : tailStep json c r task todo result w pc = some (w', pc')) :
    TailMove json c r todo result w task pc w' pc' := by
  cases pc <;> simp only [tailStep] at h
  case system q =>
    split at h
    · rename_i actorId payload
      obtain ⟨⟨w₁, q'⟩, hs, he⟩ := Option.map_eq_some_iff.1 h
      have hnext : pc' = afterCreate json r (.system actorId payload) todo result q' := by
        cases he
        cases q' with
        | done x => cases x <;> rfl
        | _ => rfl
      cases he
      rw [hnext]
      exact .created (acts_of_createStep hs)
    · cases h
  case recipients =>
    split at h <;> cases h
    exact .addressed
  case lifecycle ids vp =>
    split at h
    · obtain ⟨vp', hs, he⟩ := Option.map_eq_some_iff.1 h
      split at he <;> cases he
      · exact .emitted hs
      · exact .unshown hs
      · exact .shows hs
    · cases h
  case view vp =>
    split at h
    · obtain ⟨vp', hs, he⟩ := Option.map_eq_some_iff.1 h
      split at he <;> cases he
      · exact .viewed hs
      · exact .unviewed hs
      · exact .views hs
    · cases h

/-- The actions of a tail. -/
inductive TailActs (json : Json) (c : Choice) (r : String) (task : Task) (todo : List Task)
    (result : Option RoomView) (w : World) : TailPc → World → Pc → Prop
  | created {actorId payload pc w' pc'} : task = .system actorId payload →
      CreateActs json c (systemParams json r actorId payload) w pc w' pc' →
      TailActs json c r task todo result w (.system pc) w' (afterCreate json r task todo result pc')
  | read {pc pc'} : pc'.Between → TailActs json c r task todo result w pc w pc'
  | emitted {pc event memberUserIds room pc'} : pc'.Between →
      TailActs json c r task todo result w pc
        (w.emit (Lifecycle.event r memberUserIds room event)) pc'

theorem acts_of_tailStep {json : Json} {c : Choice} {r : String} {task : Task} {todo : List Task}
    {result : Option RoomView} {w w' : World} {pc : TailPc} {pc' : Pc}
    (h : tailStep json c r task todo result w pc = some (w', pc')) :
    TailActs json c r task todo result w pc w' pc' := by
  have hat : ∀ {pc : TailPc}, (∀ q, pc ≠ .system q) → (Pc.tail r task todo pc result).Between := by
    intro pc hpc
    refine ⟨rfl, fun q hq => ?_⟩
    cases pc with
    | system q => exact absurd rfl (hpc q)
    | _ => cases hq
  cases move_of_tailStep h with
  | created hacts => exact .created rfl hacts
  | addressed => exact .read (hat fun _ => TailPc.noConfusion)
  | shows _ => exact .read (hat fun _ => TailPc.noConfusion)
  | emitted _ => exact .emitted (between_proceed ..)
  | unshown _ => exact .read (between_done _)
  | views _ => exact .read (hat fun _ => TailPc.noConfusion)
  | viewed _ => exact .read (between_proceed ..)
  | unviewed _ => exact .read (between_done _)

theorem past_afterCreate (json : Json) (r : String) (task : Task) (todo : List Task)
    (result : Option RoomView) (pc : CreatePc) :
    past (afterCreate json r task todo result pc) = true := by
  cases pc with
  | done x => cases x with
    | ok res => exact past_proceed ..
    | error e => rfl
  | _ => rfl

theorem tail_step {json : Json} {c : Choice} {r : String} {task : Task} {todo : List Task}
    {result : Option RoomView} {w w' : World} {pc : TailPc} {pc' : Pc}
    (h : tailStep json c r task todo result w pc = some (w', pc')) :
    Kept w w' ∧ past pc' = true := by
  cases acts_of_tailStep h with
  | created _ hc => exact ⟨kept_of_createActs hc, past_afterCreate ..⟩
  | read hp => exact ⟨.refl w, hp.1⟩
  | emitted hp => exact ⟨⟨rfl, rfl⟩, hp.1⟩

/-- A request that has done its writes goes on without any. -/
theorem step_past {json : Json} {c : Choice} {call : Call} {w w' : World} {pc pc' : Pc}
    (h : step json c call w pc = some (w', pc')) (hp : past pc = true) :
    Kept w w' ∧ past pc' = true := by
  cases pc with
  | tail r task todo pc result => exact tail_step h
  | done x => cases call <;> cases h
  | _ => cases hp

/-! ## The requests -/

/-- The actions of `createRoom`. -/
inductive CreateRoomActs (c : Choice) (creatorId : String) (dto : CreateRoomDto) (w : World) :
    Pc → World → Pc → Prop
  | refused {pc e} : CreateRoomActs c creatorId dto w pc w (.done (.error e))
  | direct : dto.type = .DIRECT → CreateRoomActs c creatorId dto w .activeUsers w .directRoom
  | group {pc'} : dto.type = .GROUP → (pc' = .insertGroup ∨ ∃ i, pc' = .avatar i) →
      CreateRoomActs c creatorId dto w .activeUsers w pc'
  | existing {pc room} : room ∈ w.db.rooms.rows →
      room.directKey = some (directKey creatorId dto.otherId) →
      CreateRoomActs c creatorId dto w pc w (.reactivate room.id)
  | missing : CreateRoomActs c creatorId dto w .directRoom w .insertDirect
  | insertedDirect {room w' pc'} : freshRoomId w.db c.id = true → room.id = c.id →
      room.type = .DIRECT → room.directKey ≠ none →
      insertRoom room (directMembers c.id w.now creatorId dto.otherId) w = .ok w' →
      past pc' = true → CreateRoomActs c creatorId dto w .insertDirect w' pc'
  | lost {e} : CreateRoomActs c creatorId dto w .insertDirect w (.winner e)
  | reactivated {roomId pc'} : past pc' = true →
      CreateRoomActs c creatorId dto w (.reactivate roomId)
        { w with db.roomMembers :=
            reactivateMembers w.db.roomMembers roomId [creatorId, dto.otherId] } pc'
  | owned {i} : CreateRoomActs c creatorId dto w (.avatar i) w .insertGroup
  | insertedGroup {room w' pc'} : freshRoomId w.db c.id = true → room.id = c.id →
      room.type = .GROUP → room.directKey = none →
      insertRoom room (groupMembers c.id w.now creatorId (dto.memberIds creatorId)) w = .ok w' →
      past pc' = true → CreateRoomActs c creatorId dto w .insertGroup w' pc'

/-- The loop of `addMembers` over `todo` is over, or at a user it has not found active. -/
def Looping (existing : List RoomMember) (todo : List String) (pc : Pc) : Prop :=
  past pc = true ∨ ∃ head u rest added, pc = .write head existing (u :: rest) added ∧
    (u :: rest) <:+ todo ∧ ∀ m ∈ existing, m.userId = u → m.leftAt ≠ none

/-- The actions of `addMembers`. -/
inductive AddMembersActs (roomId actorId : String) (userIds : List String) (w : World) :
    Pc → World → Pc → Prop
  | refused {pc e} : AddMembersActs roomId actorId userIds w pc w (.done (.error e))
  | entered {m} : crew w.db.roomMembers roomId actorId = some m →
      AddMembersActs roomId actorId userIds w .guard w (.room m.role)
  | group {role} : HasType w.db roomId .GROUP → role = .OWNER ∨ role = .ADMIN →
      AddMembersActs roomId actorId userIds w (.room role) w .activeUsers
  | checked : AddMembersActs roomId actorId userIds w .activeUsers w .head
  | head {n} : AddMembersActs roomId actorId userIds w .head w (.existing n)
  | existing {n pc'} :
      Looping (w.db.roomMembers.findMany fun m => m.roomId == roomId && userIds.contains m.userId)
        userIds.eraseDups pc' →
      AddMembersActs roomId actorId userIds w (.existing n) w pc'
  | joined {head existing userId todo added t pc'} :
      joinMember roomId userId head existing w = .ok t → Looping existing todo pc' →
      AddMembersActs roomId actorId userIds w (.write head existing (userId :: todo) added)
        { w with db.roomMembers := t } pc'

/-- The actions of `updateMemberRole`. -/
inductive UpdateRoleActs (roomId actorId targetUserId : String) (role : MemberRole) (w : World) :
    Pc → World → Pc → Prop
  | refused {pc e} : UpdateRoleActs roomId actorId targetUserId role w pc w (.done (.error e))
  | entered {m} : crew w.db.roomMembers roomId actorId = some m →
      UpdateRoleActs roomId actorId targetUserId role w .guard w (.room m.role)
  | group {type} : HasType w.db roomId .GROUP →
      UpdateRoleActs roomId actorId targetUserId role w (.room .OWNER) w (.target .OWNER type)
  | target {actorRole type m} : crew w.db.roomMembers roomId targetUserId = some m →
      targetUserId ≠ actorId →
      UpdateRoleActs roomId actorId targetUserId role w (.target actorRole type) w .setRole
  | set {t pc'} : setRole w.db.roomMembers roomId actorId targetUserId role = some t →
      past pc' = true →
      UpdateRoleActs roomId actorId targetUserId role w .setRole { w with db.roomMembers := t } pc'

/-- The actions of `removeMember`. -/
inductive RemoveMemberActs (c : Choice) (roomId actorId targetUserId : String) (w : World) :
    Pc → World → Pc → Prop
  | refused {pc e} : pc ≠ .candidates → (∀ u, pc ≠ .promote u) →
      RemoveMemberActs c roomId actorId targetUserId w pc w (.done (.error e))
  | entered {m} : crew w.db.roomMembers roomId actorId = some m →
      RemoveMemberActs c roomId actorId targetUserId w .guard w (.room m.role)
  | room {role type} : HasType w.db roomId type →
      RemoveMemberActs c roomId actorId targetUserId w (.room role) w (.target role type)
  | target {role type m} : crew w.db.roomMembers roomId targetUserId = some m →
      assertMayRemove actorId role targetUserId m = .ok () →
      RemoveMemberActs c roomId actorId targetUserId w (.target role type) w (.leave type m.role)
  | left {type role t pc'} :
      updateMember w.db.roomMembers roomId targetUserId { leftAt := some (some w.now) } = some t →
      (if role = .OWNER ∧ type = .GROUP then pc' = .candidates else past pc' = true) →
      RemoveMemberActs c roomId actorId targetUserId w (.leave type role)
        { w with db.roomMembers := t } pc'
  | chosen {next} :
      c.members.Perm
        (w.db.roomMembers.findMany fun m => m.roomId == roomId && m.leftAt.isNone) →
      c.members.Pairwise senior → successor c.members = some next →
      RemoveMemberActs c roomId actorId targetUserId w .candidates w (.promote next.userId)
  | deserted {pc'} : (∀ u, crew w.db.roomMembers roomId u = none) → past pc' = true →
      RemoveMemberActs c roomId actorId targetUserId w .candidates w pc'
  | promoted {userId t pc'} :
      updateMember w.db.roomMembers roomId userId { role := some .OWNER } = some t →
      past pc' = true →
      RemoveMemberActs c roomId actorId targetUserId w (.promote userId)
        { w with db.roomMembers := t } pc'
  | unpromoted {userId e} :
      updateMember w.db.roomMembers roomId userId { role := some .OWNER } = none →
      RemoveMemberActs c roomId actorId targetUserId w (.promote userId) w (.done (.error e))

/-! ## The steps are these actions -/

theorem requireGroup_hasType {db : Db} {r : String} {room : Room}
    (h : requireGroup db r = .ok room) : HasType db r .GROUP := by
  obtain ⟨hm, hid, ht⟩ := requireGroup_ok h
  exact ⟨roomStub room, roomStub_mem hm, hid, ht⟩

theorem requireRole_ok {role : MemberRole} {allowed : List MemberRole}
    (h : requireRole role allowed = .ok ()) : role ∈ allowed := by
  unfold requireRole at h
  split at h
  · rename_i hc; simpa using hc
  · cases h

theorem find_crew {t : Table RoomMember} {r u : String} {m : RoomMember}
    (hf : t.find (isMember r u) = some m) (hl : ¬ m.leftAt.isSome = true) :
    crew t r u = some m := by
  rw [crew, hf]
  simpa [Option.filter] using hl

theorem createStart_cases (creatorId : String) (dto : CreateRoomDto) :
    createStart creatorId dto = .activeUsers ∨ ∃ e, createStart creatorId dto = .fail e := by
  unfold createStart
  split
  · split
    · split
      · exact .inr ⟨_, rfl⟩
      · exact .inl rfl
    · exact .inr ⟨_, rfl⟩
  · exact .inl rfl

theorem acts_of_createRoom {json : Json} {c : Choice} {creatorId : String} {dto : CreateRoomDto}
    {w w' : World} {pc pc' : Pc} (h : createStep json c creatorId dto w pc = some (w', pc')) :
    CreateRoomActs c creatorId dto w pc w' pc' := by
  cases pc <;> simp only [createStep] at h
  case activeUsers =>
    cases h
    split <;> rename_i ht
    · exact orFail_rule (fun _ _ => .direct ht) fun _ _ => .refused
    · refine orFail_rule (fun _ _ => .group ht ?_) fun _ _ => .refused
      split
      · exact .inr ⟨_, rfl⟩
      · exact .inl rfl
  case directRoom =>
    cases h
    split
    · rename_i room hf
      obtain ⟨hm, hp⟩ := Table.find_some hf
      exact .existing hm (by simpa using hp)
    · exact .missing
  case winner e =>
    cases h
    split
    · rename_i room hf
      obtain ⟨hm, hp⟩ := Table.find_some hf
      exact .existing hm (by simpa using hp)
    · exact .refused
  case insertDirect =>
    split at h
    · rename_i hfresh
      split at h <;> cases h
      · rename_i hins
        exact .insertedDirect hfresh rfl rfl (Option.some_ne_none _) hins (past_proceed ..)
      · exact .lost
      · exact .refused
    · cases h
  case reactivate roomId => cases h; exact .reactivated (past_proceed ..)
  case avatar i => cases h; exact orFail_rule (fun _ _ => .owned) fun _ _ => .refused
  case insertGroup =>
    split at h
    · rename_i hfresh
      split at h <;> cases h
      · rename_i hins
        exact .insertedGroup hfresh rfl rfl rfl hins (past_proceed ..)
      · exact .refused
    · cases h
  all_goals cases h

theorem looping_nextWrite (json : Json) (r a : String) (head : Nat) (existing : List RoomMember)
    (todo added : List String) :
    Looping existing todo (nextWrite json r a head existing todo added) := by
  unfold nextWrite
  split
  · exact .inl (past_proceed ..)
  · rename_i hne
    obtain ⟨u, rest, hu⟩ := List.exists_cons_of_ne_nil hne
    rw [hu]
    refine .inr ⟨_, u, rest, _, rfl, hu ▸ List.dropWhile_suffix _, fun m hm he hl => ?_⟩
    have hnot := List.head?_dropWhile_not
      (fun userId => existing.any fun m => m.userId == userId && m.leftAt.isNone) todo
    rw [hu] at hnot
    exact List.any_eq_false.1 hnot m hm (by simp [he, hl])

theorem acts_of_addMembers {json : Json} {r a : String} {userIds : List String} {w w' : World}
    {pc pc' : Pc} (h : addStep json r a userIds w pc = some (w', pc')) :
    AddMembersActs r a userIds w pc w' pc' := by
  cases pc <;> simp only [addStep] at h
  case guard =>
    cases h
    refine orFail_rule (fun role hok => ?_) fun _ _ => .refused
    obtain ⟨m, hm, rfl⟩ := canActivate_ok hok
    exact .entered hm
  case room role =>
    cases h
    refine orFail_rule (fun _ hok => ?_) fun _ _ => .refused
    refine orFail_rule (fun _ hrole => ?_) fun _ _ => .refused
    exact .group (requireGroup_hasType hok) (by simpa using requireRole_ok hrole)
  case activeUsers => cases h; exact orFail_rule (fun _ _ => .checked) fun _ _ => .refused
  case head => cases h; exact .head
  case existing n => cases h; exact .existing (looping_nextWrite ..)
  case write head existing todo added =>
    split at h
    · cases h
    · split at h <;> cases h
      · rename_i hj; exact .joined hj (looping_nextWrite ..)
      · exact .refused
  all_goals cases h

theorem acts_of_updateMemberRole {json : Json} {r a t : String} {role : MemberRole} {w w' : World}
    {pc pc' : Pc} (h : roleStep json r a t role w pc = some (w', pc')) :
    UpdateRoleActs r a t role w pc w' pc' := by
  cases pc <;> simp only [roleStep] at h
  case guard =>
    cases h
    refine orFail_rule (fun role hok => ?_) fun _ _ => .refused
    obtain ⟨m, hm, rfl⟩ := canActivate_ok hok
    exact .entered hm
  case room actorRole =>
    cases h
    refine orFail_rule (fun _ hok => ?_) fun _ _ => .refused
    refine orFail_rule (fun _ hrole => ?_) fun _ _ => .refused
    obtain rfl : actorRole = .OWNER := by simpa using requireRole_ok hrole
    exact .group (requireGroup_hasType hok)
  case target actorRole type =>
    cases h
    split
    · rename_i m hf
      split
      · exact .refused
      · rename_i hl
        split
        · exact .refused
        · rename_i hne; exact .target (find_crew hf hl) hne
    · exact .refused
  case setRole =>
    split at h <;> cases h
    · rename_i hs; exact .set hs (past_proceed ..)
    · exact .refused
  all_goals cases h

theorem past_afterRemoval (json : Json) (r a t : String) (type : RoomType) :
    past (afterRemoval json r a t type) = true := past_proceed ..

/-- The search for a successor comes to nobody only in an empty room. -/
theorem crew_none_of_successor {t : Table RoomMember} {r : String} {members : List RoomMember}
    (hp : members.Perm (t.findMany fun m => m.roomId == r && m.leftAt.isNone))
    (hn : successor members = none) (u : String) : crew t r u = none := by
  rw [Option.eq_none_iff_forall_not_mem]
  intro m hm
  obtain ⟨hmem, hr, -, hl⟩ := crew_eq_some.1 hm
  have hin : m ∈ members := hp.mem_iff.2 (by simp [hmem, hr, hl])
  unfold successor at hn
  cases members with
  | nil => cases hin
  | cons x xs =>
    cases hf : (x :: xs).find? (·.role == .ADMIN) <;> rw [hf] at hn <;> cases hn

theorem acts_of_removeMember {json : Json} {c : Choice} {r a t : String} {w w' : World}
    {pc pc' : Pc} (h : removeStep json c r a t w pc = some (w', pc')) :
    RemoveMemberActs c r a t w pc w' pc' := by
  cases pc <;> simp only [removeStep] at h
  case guard =>
    cases h
    refine orFail_rule (fun role hok => ?_) fun _ _ => .refused nofun nofun
    obtain ⟨m, hm, rfl⟩ := canActivate_ok hok
    exact .entered hm
  case room role =>
    cases h
    split
    · exact .refused nofun nofun
    · rename_i room hf
      obtain ⟨hm, hid⟩ := Table.find_some hf
      exact .room ⟨roomStub room, roomStub_mem hm, (by simpa using hid : room.id = r), rfl⟩
  case target role type =>
    cases h
    split
    · rename_i m hf
      split
      · exact .refused nofun nofun
      · rename_i hl
        exact orFail_rule (fun _ hok => .target (find_crew hf hl) hok) fun _ _ =>
          .refused nofun nofun
    · exact .refused nofun nofun
  case leave type role =>
    split at h <;> cases h
    · rename_i hu
      refine .left hu ?_
      split
      · rfl
      · exact past_afterRemoval ..
    · exact .refused nofun nofun
  case candidates =>
    split at h
    · rename_i hc
      simp only [Bool.and_eq_true, decide_eq_true_eq, List.isPerm_iff] at hc
      cases h
      split
      · rename_i next hn; exact .chosen hc.1 hc.2 hn
      · rename_i hn; exact .deserted (crew_none_of_successor hc.1 hn) (past_afterRemoval ..)
    · cases h
  case promote u =>
    split at h <;> cases h
    · rename_i hu; exact .promoted hu (past_afterRemoval ..)
    · rename_i hu; exact .unpromoted hu
  all_goals cases h

theorem AddMembersActs.rooms {r a : String} {userIds : List String} {w w' : World} {pc pc' : Pc}
    (h : AddMembersActs r a userIds w pc w' pc') : w'.db.rooms = w.db.rooms := by
  cases h <;> rfl

theorem UpdateRoleActs.rooms {r a t : String} {role : MemberRole} {w w' : World} {pc pc' : Pc}
    (h : UpdateRoleActs r a t role w pc w' pc') : w'.db.rooms = w.db.rooms := by
  cases h <;> rfl

theorem RemoveMemberActs.rooms {c : Choice} {r a t : String} {w w' : World} {pc pc' : Pc}
    (h : RemoveMemberActs c r a t w pc w' pc') : w'.db.rooms = w.db.rooms := by
  cases h <;> rfl

/-- The actions of a request before its tail. -/
def Acts (c : Choice) (call : Call) (w : World) (pc : Pc) (w' : World) (pc' : Pc) : Prop :=
  match call with
  | .createRoom creatorId dto => CreateRoomActs c creatorId dto w pc w' pc'
  | .addMembers r a userIds => AddMembersActs r a userIds w pc w' pc'
  | .updateMemberRole r a t role => UpdateRoleActs r a t role w pc w' pc'
  | .removeMember r a t => RemoveMemberActs c r a t w pc w' pc'

/-- An action of the service is one of a request's own, or in its tail. -/
theorem step_cases {json : Json} {c : Choice} {call : Call} {w w' : World} {pc pc' : Pc}
    (h : step json c call w pc = some (w', pc')) :
    (past pc = true ∧ past pc' = true ∧ Kept w w') ∨ Acts c call w pc w' pc' := by
  unfold step at h
  split at h
  · obtain ⟨hk, hp⟩ := tail_step h
    exact .inl ⟨rfl, hp, hk⟩
  · cases call with
    | createRoom creatorId dto => exact .inr (acts_of_createRoom h)
    | addMembers r a userIds => exact .inr (acts_of_addMembers h)
    | updateMemberRole r a t role => exact .inr (acts_of_updateMemberRole h)
    | removeMember r a t => exact .inr (acts_of_removeMember h)

end Intaktok.Rooms
