import Intaktok.Rooms.Creations
/-
# The view that goes with a lifecycle event

`emitLifecycle` reads the view of the room for the first of its recipients. As long as the tables
stay as they are while it does (`Current`), the view carries the unread messages of that one
(`viewStep_current`).
-/

namespace Intaktok.Rooms

open Tables Messages

/-- How many messages a member has not read; nobody else has any to read. -/
def unreadOf (db : Db) (r u : String) : Option Nat :=
  (crew db.roomMembers r u).map fun m => countUnread db r u m.lastReadSeq

/-- What the view under way has read is what the tables hold. -/
def ViewCurrent (db : Db) (r u : String) : ViewPc → Prop
  | .avatars x _ => loadRoom db r = some x
  | .unread _ _ n => ∃ m, crew db.roomMembers r u = some m ∧ m.lastReadSeq = n
  | .room | .done _ => True

/-- The members a view shows are those of the room. -/
theorem loadRoom_member {db : Db} {r : String} {x : RoomWithMembers} (h : loadRoom db r = some x)
    (u : String) :
    (x.members.find? (·.1.userId == u)).map (·.1) = crew db.roomMembers r u := by
  obtain ⟨room, -, rfl⟩ := Option.map_eq_some_iff.1 h
  have hmem : ∀ {m : RoomMember × Option Profile},
      m ∈ (db.roomMembers.findMany fun m => m.roomId == r && m.leftAt.isNone).map
        (fun m => (m, db.profiles.find (·.userId == m.userId))) →
      m.1 ∈ db.roomMembers.rows ∧ m.1.roomId = r ∧ m.1.leftAt = none := by
    intro m hm
    obtain ⟨m', hm', rfl⟩ := List.mem_map.1 hm
    simpa using hm'
  dsimp only
  symm
  cases hf : ((db.roomMembers.findMany fun m => m.roomId == r && m.leftAt.isNone).map
    fun m => (m, db.profiles.find (·.userId == m.userId))).find? (·.1.userId == u) with
  | some m =>
    obtain ⟨hm, hr, hl⟩ := hmem (List.mem_of_find?_eq_some hf)
    exact crew_eq_some.2 ⟨hm, hr, by simpa using List.find?_some hf, hl⟩
  | none =>
    rw [Option.map_none, Option.eq_none_iff_forall_not_mem]
    intro m hm
    obtain ⟨hmem, hr, hu, hl⟩ := crew_eq_some.1 hm
    refine List.find?_eq_none.1 hf _ (List.mem_map_of_mem (a := m) ?_) (by simpa using hu)
    simp [hmem, hr, hl]

theorem built_unreadCount {json : Json} {x : RoomWithMembers} {found : List String} {n : Nat}
    {view : RoomView} (h : built json x found n = .done (.ok view)) : view.unreadCount = n := by
  unfold built buildView at h
  cases hlast : x.last with
  | none =>
    rw [hlast] at h
    cases h
    rfl
  | some m =>
    rw [hlast] at h
    split at h
    · rename_i hview
      obtain ⟨preview, -, rfl⟩ := Option.map_eq_some_iff.1 hview
      cases h
      rfl
    · cases h

section View
variable {json : Json} {w : World} {r u : String} {x : RoomWithMembers} {vp vp' : ViewPc}

theorem afterAvatars_current {found : List String} (h : loadRoom w.db r = some x) :
    ViewCurrent w.db r u (afterAvatars json u x found) ∧
      ∀ view, afterAvatars json u x found = .done (.ok view) →
        view.unreadCount = (unreadOf w.db r u).getD 0 := by
  have hmember := loadRoom_member h u
  unfold afterAvatars
  split
  · rename_i membership hf
    rw [hf] at hmember
    exact ⟨⟨membership.1, hmember.symm, rfl⟩, fun view hv => by cases hv⟩
  · rename_i hf
    rw [hf] at hmember
    refine ⟨trivial, fun view hv => ?_⟩
    rw [built_unreadCount hv, unreadOf, ← hmember]
    rfl

/-- A view that goes by the tables goes on so, and comes to the unread messages of its reader. -/
theorem viewStep_current (h : ViewCurrent w.db r u vp) (hs : viewStep json r u w vp = some vp') :
    ViewCurrent w.db r u vp' ∧
      ∀ view, vp' = .done (.ok view) → view.unreadCount = (unreadOf w.db r u).getD 0 := by
  cases vp with
  | room =>
    simp only [viewStep, Option.some.injEq] at hs
    subst hs
    split
    · exact ⟨trivial, fun view hv => by cases hv⟩
    · rename_i x hx
      split
      · exact afterAvatars_current hx
      · exact ⟨hx, fun view hv => by cases hv⟩
  | avatars x ids =>
    cases hs
    exact afterAvatars_current h
  | unread x found n =>
    cases hs
    obtain ⟨m, hm, rfl⟩ := h
    refine ⟨trivial, fun view hv => ?_⟩
    rw [built_unreadCount hv, unreadOf, hm]
    rfl
  | done x => cases hs

end View

/-! ## In the tail -/

/-- The view a request is reading for a lifecycle event, with the room and the recipients. -/
def Pc.viewing : Pc → Option (String × List String × ViewPc)
  | .tail r _ _ (.lifecycle ids vp) _ => some (r, ids, vp)
  | _ => none

def Pc.Current (db : Db) (pc : Pc) : Prop :=
  ∀ r ids vp, pc.viewing = some (r, ids, vp) → ViewCurrent db r (ids.headD r) vp

section Step
variable {json : Json} {c : Choice} {w w' : World} {pc pc' : Pc}

theorem current_of_none {db : Db} (h : pc.viewing = none) : pc.Current db := by
  intro r ids vp hv
  rw [h] at hv
  cases hv

/-- A view starts with reading the room. -/
theorem Pc.Opening.current (h : pc.Opening json) (db : Db) : pc.Current db := by
  intro r ids vp hv
  cases pc with
  | tail r' task todo tp result =>
    cases tp with
    | lifecycle ids' vp' =>
      cases hv
      have hstart := h r task _ rfl
      cases task with
      | lifecycle event recipients => cases recipients <;> cases hstart; trivial
      | _ => cases hstart
    | _ => cases hv
  | _ => cases hv

theorem lifecycle_inj {r r' : String} {ids ids' : List String} {view view' : RoomView}
    {e e' : Lifecycle} (h : e.event r ids view = e'.event r' ids' view') :
    r = r' ∧ ids = ids' ∧ view = view' := by
  cases e <;> cases e' <;> cases h <;> exact ⟨rfl, rfl, rfl⟩

/-- A lifecycle event that is emitted carries the unread messages of the first recipient. -/
def Shows (w w' : World) : Prop :=
  ∀ r ids view event, w'.events = w.events ++ [Lifecycle.event r ids view event] →
    view.unreadCount = (unreadOf w.db r (ids.headD r)).getD 0

theorem shows_of_silent (h : w'.events = w.events) : Shows w w' := by
  intro r ids view event hev
  rw [h, List.self_eq_append_right] at hev
  cases hev

theorem shows_tail {r : String} {task : Task} {todo : List Task} {result : Option RoomView}
    {tp : TailPc} (h : (Pc.tail r task todo tp result).Current w.db)
    (hs : tailStep json c r task todo result w tp = some (w', pc')) :
    pc'.Current w'.db ∧ Shows w w' := by
  cases move_of_tailStep hs with
  | @created actorId payload q _ q' hacts =>
    refine ⟨?_, fun r ids view event hev => ?_⟩
    · cases q' with
      | done x =>
        cases x with
        | ok res => exact opening_proceed.current _
        | error e => exact current_of_none rfl
      | _ => exact current_of_none rfl
    · rcases hacts.events with he | ⟨_, _, _, _, he⟩
      · rw [he, List.self_eq_append_right] at hev
        cases hev
      · rw [he, List.append_cancel_left_eq] at hev
        cases event <;> cases hev
  | addressed => exact ⟨fun r ids vp hv => by cases hv; trivial, shows_of_silent rfl⟩
  | shows hv =>
    obtain ⟨hcurrent, -⟩ := viewStep_current (h r _ _ rfl) hv
    exact ⟨fun r ids vp hv => by cases hv; exact hcurrent, shows_of_silent rfl⟩
  | emitted hv =>
    obtain ⟨-, hcount⟩ := viewStep_current (h r _ _ rfl) hv
    refine ⟨opening_proceed.current _, fun r' ids' view' event' hev => ?_⟩
    rw [World.emit, List.append_cancel_left_eq] at hev
    obtain ⟨rfl, rfl, rfl⟩ := lifecycle_inj (List.singleton_inj.1 hev)
    exact hcount _ rfl
  | viewed _ => exact ⟨opening_proceed.current _, shows_of_silent rfl⟩
  | unshown _ | views _ | unviewed _ => exact ⟨current_of_none rfl, shows_of_silent rfl⟩

theorem shows_step {call : Call} (h : pc.Current w.db)
    (hs : step json c call w pc = some (w', pc')) : pc'.Current w'.db ∧ Shows w w' := by
  rcases step_acts hs with ⟨r, task, todo, q, result, rfl, -⟩ | ⟨hacts, hopening⟩
  · exact shows_tail h hs
  · obtain ⟨rooms, roomMembers, rfl⟩ := hacts.db
    exact ⟨hopening.current _, shows_of_silent rfl⟩

/-- The same in `updateRoom`. -/
def UpdatePc.viewing : UpdatePc → Option (String × List String × ViewPc)
  | .after pc => pc.viewing
  | _ => none

def UpdatePc.Current (db : Db) (pc : UpdatePc) : Prop :=
  ∀ r ids vp, pc.viewing = some (r, ids, vp) → ViewCurrent db r (ids.headD r) vp

theorem shows_updateStep {r a : String} {dto : UpdateRoomDto} {pc pc' : UpdatePc}
    (h : pc.Current w.db) (hs : updateStep json c r a dto w pc = some (w', pc')) :
    pc'.Current w'.db ∧ Shows w w' := by
  have hread : ∀ {q : UpdatePc} {db}, q.viewing = none → q.Current db := by
    intro q db hq r' ids vp hv
    rw [hq] at hv
    cases hv
  cases pc <;> simp only [updateStep] at hs
  case guard => cases hs; split <;> exact ⟨hread rfl, shows_of_silent rfl⟩
  case room role =>
    cases hs
    refine ⟨hread ?_, shows_of_silent rfl⟩
    split
    · rfl
    · split
      · rfl
      · unfold afterChecks
        split <;> rfl
  case avatar room i => cases hs; split <;> exact ⟨hread rfl, shows_of_silent rfl⟩
  case update room =>
    split at hs <;> cases hs
    · have hopening : (afterUpdate json r a dto room).Opening json := opening_proceed
      exact ⟨hopening.current _, shows_of_silent rfl⟩
    · exact ⟨hread rfl, shows_of_silent rfl⟩
  case after q =>
    cases q with
    | tail r' task todo tp result =>
      obtain ⟨⟨w₁, q₁⟩, ht, he⟩ := Option.map_eq_some_iff.1 hs
      cases he
      exact shows_tail h ht
    | _ => cases hs

end Step

end Intaktok.Rooms
