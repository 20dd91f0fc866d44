import Intaktok.Rooms.Views
import Intaktok.Rooms.Rights
import Intaktok.Rooms.Notices
/-
# Whom a room event goes to

`emitLifecycle` sends the view of its room (`Pc.ViewsOwn`) to a list that has been read, or put
together, some actions before. Whoever is on it was in the room when he was put on it: the active
members when they were read, the founders when the room was opened, and who is removed when
`removeMember` looked him up (`Pc.Bound`, `bound_of_step`).
-/

namespace Intaktok.Rooms

open Tables Messages

/-! ## The view is of its room -/

/-- The view under way is one of the room. -/
def ViewPc.Of (r : String) : ViewPc → Prop
  | .avatars x _ | .unread x _ _ => x.room.id = r
  | .done (.ok view) => view.id = r
  | .room | .done (.error _) => True

theorem loadRoom_id {db : Db} {r : String} {x : RoomWithMembers} (h : loadRoom db r = some x) :
    x.room.id = r := by
  obtain ⟨room, hroom, rfl⟩ := Option.map_eq_some_iff.1 h
  exact beq_iff_eq.1 (Table.find_some hroom).2

theorem built_of {json : Json} {x : RoomWithMembers} {found : List String} {n : Nat} :
    (built json x found n).Of x.room.id := by
  unfold built buildView
  cases x.last with
  | none => rfl
  | some m =>
    dsimp only
    split
    · rename_i hview
      obtain ⟨preview, -, rfl⟩ := Option.map_eq_some_iff.1 hview
      rfl
    · trivial

theorem afterAvatars_of {json : Json} {u : String} {x : RoomWithMembers} {found : List String} :
    (afterAvatars json u x found).Of x.room.id := by
  unfold afterAvatars
  split
  · rfl
  · exact built_of

theorem viewStep_of {json : Json} {r u : String} {w : World} {vp vp' : ViewPc} (h : vp.Of r)
    (hs : viewStep json r u w vp = some vp') : vp'.Of r := by
  cases vp with
  | room =>
    cases hs
    split
    · trivial
    · rename_i x hx
      obtain rfl := loadRoom_id hx
      dsimp only
      split
      · exact afterAvatars_of
      · rfl
  | avatars x ids =>
    cases hs
    obtain rfl : x.room.id = r := h
    exact afterAvatars_of
  | unread x found n =>
    cases hs
    obtain rfl : x.room.id = r := h
    exact built_of
  | done x => cases hs

/-- The view a tail reads for its event is of its room. -/
def Pc.ViewsOwn (pc : Pc) : Prop := ∀ r ids vp, pc.viewing = some (r, ids, vp) → vp.Of r

theorem viewsOwn_of_none {pc : Pc} (h : pc.viewing = none) : pc.ViewsOwn := by
  intro r ids vp hv
  rw [h] at hv
  cases hv

theorem Pc.Opening.viewsOwn {json : Json} {pc : Pc} (h : pc.Opening json) : pc.ViewsOwn := by
  intro r ids vp hv
  cases pc with
  | tail r' task todo tp result =>
    cases tp with
    | lifecycle ids' vp' =>
      cases hv
      have hstart := h r task _ rfl
      cases task with
      | lifecycle event recipients => cases recipients <;> cases hstart; trivial
      | _ => cases hstart
    | _ => cases hv
  | _ => cases hv

section Step
variable {json : Json} {c : Choice} {w w' : World} {pc pc' : Pc} {r v : String}

theorem viewsOwn_of_tailStep {task : Task} {todo : List Task} {result : Option RoomView}
    {tp : TailPc} (h : (Pc.tail r task todo tp result).ViewsOwn)
    (hs : tailStep json c r task todo result w tp = some (w', pc')) : pc'.ViewsOwn := by
  cases move_of_tailStep hs with
  | @created actorId payload q _ q' =>
    cases q' with
    | done x =>
      cases x with
      | ok res => exact opening_proceed.viewsOwn
      | error e => exact viewsOwn_of_none rfl
    | _ => exact viewsOwn_of_none rfl
  | addressed =>
    rintro r ids vp ⟨⟩
    trivial
  | shows hv =>
    rintro r ids vp ⟨⟩
    exact viewStep_of (h r _ _ rfl) hv
  | emitted | viewed => exact opening_proceed.viewsOwn
  | unshown | views | unviewed => exact viewsOwn_of_none rfl

theorem viewsOwn_of_step {call : Call} (h : pc.ViewsOwn)
    (hs : step json c call w pc = some (w', pc')) : pc'.ViewsOwn := by
  rcases step_acts hs with ⟨r, task, todo, q, result, rfl, -⟩ | ⟨-, hopening⟩
  · exact viewsOwn_of_tailStep h hs
  · exact hopening.viewsOwn

/-! ## Who is on the list -/

/-- The task sends to the user, whoever is in the room by then. -/
def Task.names (v : String) : Task → Prop
  | .lifecycle _ (.fixed ids) => v ∈ ids
  | .lifecycle _ (.activeAnd u) => v = u
  | _ => False

/-- The request, in its tail, is going to send to the user. -/
def Pc.Promises (r v : String) : Pc → Prop
  | .tail r' task todo tp _ => r' = r ∧ ((∃ t ∈ todo, t.names v) ∨ match tp with
    | .lifecycle ids _ => v ∈ ids
    | .recipients => task.names v
    | _ => False)
  | _ => False

theorem promises_proceed {r' : String} {result : Option RoomView} {todo : List Task}
    (h : (proceed json r' result todo).Promises r v) : r' = r ∧ ∃ t ∈ todo, t.names v := by
  cases todo with
  | nil => exact h.elim
  | cons task todo =>
    obtain ⟨hr, ⟨t, ht, hv⟩ | hat⟩ := h
    · exact ⟨hr, t, List.mem_cons_of_mem _ ht, hv⟩
    · refine ⟨hr, task, List.mem_cons_self, ?_⟩
      cases task with
      | lifecycle event recipients => cases recipients <;> exact hat
      | _ => exact hat.elim

/-- A tail puts nobody on the list but the active members, as it reads them. -/
theorem promises_of_tailStep {r' : String} {task : Task} {todo : List Task}
    {result : Option RoomView} {tp : TailPc}
    (hs : tailStep json c r' task todo result w tp = some (w', pc')) (hp : pc'.Promises r v) :
    (Pc.tail r' task todo tp result).Promises r v ∨ v ∈ getActiveMemberIds w.db r := by
  have onward : ∀ {out}, (proceed json r' out todo).Promises r v →
      (Pc.tail r' task todo tp result).Promises r v ∨ v ∈ getActiveMemberIds w.db r :=
    fun hp => .inl ⟨(promises_proceed hp).1, .inl (promises_proceed hp).2⟩
  cases move_of_tailStep hs with
  | @created actorId payload q _ q' =>
    cases q' with
    | done x =>
      cases x with
      | ok res => exact onward hp
      | error e => exact hp.elim
    | _ => exact .inl ⟨hp.1, .inl (hp.2.resolve_right id)⟩
  | @addressed event x =>
    obtain ⟨rfl, hlater | hv⟩ := hp
    · exact .inl ⟨rfl, .inl hlater⟩
    cases x with
    | fixed ids => exact .inl ⟨rfl, .inr hv⟩
    | active => exact .inr hv
    | activeAnd u =>
      rcases List.mem_append.1 (List.mem_eraseDups.1 hv) with hv | hv
      · exact .inr hv
      · exact .inl ⟨rfl, .inr (List.mem_singleton.1 hv)⟩
  | shows => exact .inl hp
  | emitted | viewed => exact onward hp
  | views => exact .inl ⟨hp.1, .inl (hp.2.resolve_right id)⟩
  | unshown | unviewed => exact hp.elim

/-- `removeMember` is about to write. -/
def Pc.Removing : Pc → Prop
  | .leave _ _ | .candidates | .promote _ => True
  | _ => False

/-- The request is going to send to the user; who is removed is going to hear of it. -/
def Pc.Bound (r v : String) (call : Call) (pc : Pc) : Prop :=
  pc.Promises r v ∨ ∃ a, call = .removeMember r a v ∧ pc.Removing

theorem mem_insertRoom {room : Room} {ms : List RoomMember} (h : insertRoom room ms w = .ok w')
    {m : RoomMember} (hm : m ∈ ms) (hl : m.leftAt = none) :
    m.userId ∈ getActiveMemberIds w'.db m.roomId := by
  obtain ⟨rooms, roomMembers, -, hms, rfl⟩ := insertRoom_ok h
  rw [mem_getActiveMemberIds, Option.isSome_iff_exists]
  refine ⟨m, crew_eq_some.2 ⟨?_, rfl, rfl, hl⟩⟩
  rw [insertMembers_ok hms]
  exact List.mem_append_right _ hm

theorem not_promises_orFail {α : Type} {x : Except AppException α} {next : α → Pc}
    (hnext : ∀ a, ¬ (next a).Promises r v) : ¬ (orFail x next).Promises r v :=
  orFail_rule (P := fun pc => ¬ pc.Promises r v) (fun a _ => hnext a) fun _ _ => id

/-- The founders are on the list of their room. -/
theorem promises_of_createStep {a : String} {dto : CreateRoomDto}
    (hs : createStep json c a dto w pc = some (w', pc')) (hp : pc'.Promises r v) :
    v ∈ getActiveMemberIds w'.db r := by
  cases pc <;> simp only [createStep] at hs
  case activeUsers =>
    cases hs
    refine absurd hp ?_
    split
    · exact not_promises_orFail fun _ => id
    · refine not_promises_orFail fun _ => ?_
      split <;> exact id
  case directRoom => cases hs; split at hp <;> exact hp.elim
  case insertDirect =>
    split at hs
    · split at hs <;> cases hs
      · rename_i hins
        obtain ⟨rfl, t, ht, hv⟩ := promises_proceed hp
        simp only [List.mem_cons, List.not_mem_nil, or_false] at ht
        rcases ht with rfl | rfl
        · exact hv.elim
        · exact mem_insertRoom hins (List.mem_map_of_mem hv) rfl
      · exact hp.elim
      · exact hp.elim
    · cases hs
  case winner e => cases hs; split at hp <;> exact hp.elim
  case reactivate roomId =>
    cases hs
    obtain ⟨-, t, ht, hv⟩ := promises_proceed hp
    rw [List.mem_singleton.1 ht] at hv
    exact hv.elim
  case avatar mediaId => cases hs; exact absurd hp (not_promises_orFail fun _ => id)
  case insertGroup =>
    split at hs
    · split at hs <;> cases hs
      · rename_i hins
        obtain ⟨rfl, t, ht, hv⟩ := promises_proceed hp
        simp only [List.mem_cons, List.not_mem_nil, or_false] at ht
        rcases ht with rfl | rfl | rfl
        · exact mem_insertRoom hins (List.mem_map_of_mem hv) rfl
        · exact hv.elim
        · exact hv.elim
      · exact hp.elim
    · cases hs
  all_goals cases hs

theorem not_promises_nextWrite {r' a : String} {head : Nat} {existing : List RoomMember}
    {todo added : List String} :
    ¬ (nextWrite json r' a head existing todo added).Promises r v := by
  unfold nextWrite
  split
  · intro hp
    obtain ⟨-, t, ht, hv⟩ := promises_proceed hp
    split at ht
    · rw [List.mem_singleton.1 ht] at hv
      exact hv.elim
    · simp only [List.mem_cons, List.not_mem_nil, or_false] at ht
      rcases ht with rfl | rfl | rfl <;> exact hv.elim
  · exact id

theorem not_promises_of_addStep {r' a : String} {userIds : List String}
    (hs : addStep json r' a userIds w pc = some (w', pc')) : ¬ pc'.Promises r v := by
  cases pc <;> simp only [addStep] at hs
  case guard | activeUsers => cases hs; exact not_promises_orFail fun _ => id
  case room role =>
    cases hs
    exact not_promises_orFail fun _ => not_promises_orFail fun _ => id
  case head => cases hs; exact id
  case existing head => cases hs; exact not_promises_nextWrite
  case write head existing todo added =>
    split at hs
    · cases hs
    · split at hs <;> cases hs
      · exact not_promises_nextWrite
      · exact id
  all_goals cases hs

theorem not_promises_of_roleStep {r' a t : String} {role : MemberRole}
    (hs : roleStep json r' a t role w pc = some (w', pc')) : ¬ pc'.Promises r v := by
  cases pc <;> simp only [roleStep] at hs
  case guard => cases hs; exact not_promises_orFail fun _ => id
  case room role =>
    cases hs
    exact not_promises_orFail fun _ => not_promises_orFail fun _ => id
  case target =>
    cases hs
    split
    · split
      · exact id
      · split <;> exact id
    · exact id
  case setRole =>
    split at hs <;> cases hs
    · intro hp
      obtain ⟨-, t, ht, hv⟩ := promises_proceed hp
      simp only [List.mem_cons, List.not_mem_nil, or_false] at ht
      rcases ht with rfl | rfl | rfl <;> exact hv.elim
    · exact id
  all_goals cases hs

theorem promises_afterRemoval {r' a t : String} {type : RoomType}
    (h : (afterRemoval json r' a t type).Promises r v) : r' = r ∧ t = v := by
  obtain ⟨rfl, task, ht, hv⟩ := promises_proceed h
  refine ⟨rfl, ?_⟩
  split at ht <;> simp only [List.mem_cons, List.not_mem_nil, or_false] at ht
  · rcases ht with rfl | rfl
    · exact hv.elim
    · exact hv.symm
  · subst ht
    exact hv.symm

/-- Who is removed has been found in the room. -/
theorem bound_of_removeStep {r' a t : String}
    (hs : removeStep json c r' a t w pc = some (w', pc'))
    (hb : pc'.Bound r v (.removeMember r' a t)) :
    pc.Bound r v (.removeMember r' a t) ∨ v ∈ getActiveMemberIds w.db r := by
  have removing : ∀ {b}, Call.removeMember r' a t = .removeMember r b v → r' = r ∧ t = v := by
    rintro b ⟨⟩
    exact ⟨rfl, rfl⟩
  have refused : ∀ {e}, ¬ (Pc.done (.error e)).Bound r v (.removeMember r' a t) := by
    rintro e (hp | ⟨b, -, hp⟩) <;> exact hp
  have onward : ∀ {type}, (afterRemoval json r' a t type).Bound r v (.removeMember r' a t) →
      r' = r ∧ t = v := by
    rintro type (hp | ⟨b, hcall, -⟩)
    · exact promises_afterRemoval hp
    · exact removing hcall
  cases pc <;> simp only [removeStep] at hs
  case guard =>
    cases hs
    rcases hb with hp | ⟨b, -, hat⟩
    · exact absurd hp (not_promises_orFail fun _ => id)
    · exact absurd hat (orFail_rule (P := fun pc => ¬ pc.Removing) (fun _ _ => id) fun _ _ => id)
  case room role =>
    cases hs
    rcases hb with hp | ⟨b, -, hat⟩
    · split at hp <;> exact hp.elim
    · split at hat <;> exact hat.elim
  case target role type =>
    cases hs
    split at hb
    · rename_i m hm
      split at hb
      · exact absurd hb refused
      · rename_i hl
        have hbound : r' = r ∧ t = v := by
          rcases hb with hp | ⟨b, hcall, -⟩
          · exact absurd hp (not_promises_orFail fun _ => id)
          · exact removing hcall
        obtain ⟨rfl, rfl⟩ := hbound
        refine .inr (mem_getActiveMemberIds.2 ?_)
        rw [find_crew hm hl]
        rfl
    · exact absurd hb refused
  case leave type role =>
    split at hs <;> cases hs
    · have hbound : r' = r ∧ t = v := by
        split at hb
        · rcases hb with hp | ⟨b, hcall, -⟩
          · exact hp.elim
          · exact removing hcall
        · exact onward hb
      obtain ⟨rfl, rfl⟩ := hbound
      exact .inl (.inr ⟨a, rfl, trivial⟩)
    · exact absurd hb refused
  case candidates =>
    split at hs
    · cases hs
      have hbound : r' = r ∧ t = v := by
        split at hb
        · rcases hb with hp | ⟨b, hcall, -⟩
          · exact hp.elim
          · exact removing hcall
        · exact onward hb
      obtain ⟨rfl, rfl⟩ := hbound
      exact .inl (.inr ⟨a, rfl, trivial⟩)
    · cases hs
  case promote u =>
    split at hs <;> cases hs
    · obtain ⟨rfl, rfl⟩ := onward hb
      exact .inl (.inr ⟨a, rfl, trivial⟩)
    · exact absurd hb refused
  all_goals cases hs

/-- Somebody is put on the list of a room while he is in it. -/
theorem bound_of_step {call : Call} (hs : step json c call w pc = some (w', pc'))
    (hb : pc'.Bound r v call) :
    pc.Bound r v call ∨ v ∈ getActiveMemberIds w.db r ∨ v ∈ getActiveMemberIds w'.db r := by
  unfold step at hs
  split at hs
  · have hp : pc'.Promises r v := by
      refine hb.resolve_right ?_
      rintro ⟨a, -, hat⟩
      have hpast := (tail_step hs).2
      cases pc' <;> first | exact hat | cases hpast
    exact (promises_of_tailStep hs hp).imp .inl .inl
  · have other : (∀ a t, call ≠ .removeMember r a t) → pc'.Promises r v := fun hne =>
      hb.resolve_right fun ⟨a, hcall, _⟩ => hne a v hcall
    cases call with
    | createRoom a dto =>
      exact .inr (.inr (promises_of_createStep hs (other fun _ _ => Call.noConfusion)))
    | addMembers r' a userIds =>
      exact absurd (other fun _ _ => Call.noConfusion) (not_promises_of_addStep hs)
    | updateMemberRole r' a t role =>
      exact absurd (other fun _ _ => Call.noConfusion) (not_promises_of_roleStep hs)
    | removeMember r' a t => exact (bound_of_removeStep hs hb).imp id .inl

end Step

/-! ## `updateRoom` -/

section Update
variable {json : Json} {c : Choice} {r a : String} {dto : UpdateRoomDto} {w w' : World}
  {pc pc' : UpdatePc}

/-- Where `updateRoom` is once it has written. -/
def UpdatePc.rest : UpdatePc → Option Pc
  | .after pc => some pc
  | _ => none

theorem not_promises_afterUpdate {room : Room} {r' v : String} :
    ¬ (afterUpdate json r a dto room).Promises r' v := by
  intro hp
  obtain ⟨-, t, ht, hv⟩ := promises_proceed hp
  simp only [List.mem_append, List.mem_cons, List.not_mem_nil, or_false] at ht
  obtain (ht | ht) | rfl | rfl := ht
  · split at ht
    · split at ht
      · cases ht
      · rw [List.mem_singleton.1 ht] at hv
        exact hv.elim
    · cases ht
  · split at ht
    · rw [List.mem_singleton.1 ht] at hv
      exact hv.elim
    · cases ht
  · exact hv.elim
  · exact hv.elim

/-- It has failed by now, begins its tail, or is in it. -/
theorem rest_of_updateStep (hs : updateStep json c r a dto w pc = some (w', pc')) {q : Pc}
    (hq : pc'.rest = some q) :
    (∃ e, q = .done (.error e)) ∨ (∃ room, q = afterUpdate json r a dto room) ∨
      ∃ r' task todo tp result, pc = .after (.tail r' task todo tp result) ∧
        tailStep json c r' task todo result w tp = some (w', q) := by
  cases pc <;> simp only [updateStep] at hs
  case guard => cases hs; split at hq <;> cases hq; exact .inl ⟨_, rfl⟩
  case room role =>
    cases hs
    split at hq
    · cases hq; exact .inl ⟨_, rfl⟩
    · split at hq
      · cases hq; exact .inl ⟨_, rfl⟩
      · unfold afterChecks at hq
        split at hq <;> cases hq
  case avatar room mediaId => cases hs; split at hq <;> cases hq; exact .inl ⟨_, rfl⟩
  case update room =>
    split at hs <;> cases hs <;> cases hq
    · exact .inr (.inl ⟨room, rfl⟩)
    · exact .inl ⟨_, rfl⟩
  case after q =>
    cases q with
    | tail r' task todo tp result =>
      obtain ⟨⟨w₁, q₁⟩, ht, he⟩ := Option.map_eq_some_iff.1 hs
      cases he
      cases hq
      exact .inr (.inr ⟨r', task, todo, tp, result, rfl, ht⟩)
    | _ => cases hs

end Update

end Intaktok.Rooms
