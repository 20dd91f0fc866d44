import Intaktok.Rooms.Views
import Intaktok.Realtime.Frames
import Intaktok.Messages.Numbers
/-
# The unread count of a room event

The view that goes with `room:created` and `room:updated` is read for the first of the recipients,
and everybody gets the same. With views that are read in one piece (`viewsUnbroken`) it carries the
unread count of each recipient if and only if all of them have the same number unread
(`own_unread`).
-/

namespace Intaktok.Realtime

open Interleave Tables
open Rooms (Lifecycle ViewPc unreadOf)

/-- The view of a lifecycle event a process is reading. -/
def viewing : ServerPc → Option (String × List String × ViewPc)
  | .inr ⟨.rooms, pc⟩ => pc.viewing
  | .inr ⟨.roomUpdates, pc⟩ => pc.viewing
  | _ => none

/-- Nobody acts while another process is in the middle of such a view. -/
def viewsUnbroken : Discipline Hub ServerCall ServerPc :=
  ⟨fun _ _ _ => True, fun _ _ _ _ pc => ∀ r ids vp, viewing pc = some (r, ids, vp) → vp = .room⟩

/-- `RoomsService` is asked. -/
def OfRooms : ServerCall → Prop
  | .inr ⟨.rooms, _⟩ | .inr ⟨.roomUpdates, _⟩ => True
  | _ => False

/-- A view of a room sent to a user. -/
def Shown (h h' : Hub) (u : String) (view : RoomView) : Prop :=
  ∃ x ∈ h'.emitted.drop h.emitted.length, userRoom u ∈ x.rooms ∧
    (x.event = .roomCreated view ∨ x.event = .roomUpdated view)

/-- All recipients who are members have the same number unread, and none if the first recipient is
no member. -/
def UnreadAlike (db : Db) (r : String) (ids : List String) : Prop :=
  (∀ u ∈ ids, ∀ v ∈ ids, ∀ n m, unreadOf db r u = some n → unreadOf db r v = some m → n = m) ∧
    (unreadOf db r (ids.headD r) = none → ∀ u ∈ ids, ∀ n, unreadOf db r u = some n → n = 0)

def Current (db : Db) (pc : ServerPc) : Prop :=
  ∀ r ids vp, viewing pc = some (r, ids, vp) → Rooms.ViewCurrent db r (ids.headD r) vp

theorem current_of_none {db : Db} {pc : ServerPc} (h : viewing pc = none) : Current db pc := by
  intro r ids vp hv
  rw [h] at hv
  cases hv

section Step
variable {cfg : AppConfig} {decode : String → Option Jwt} {json : Messages.Json} {c : Choice}
  {k : ServerCall} {h h' : Hub} {pc pc' : ServerPc}

theorem current_step (hc : Current h.world.db pc)
    (hs : (server cfg decode json).step c k h pc = some (h', pc')) :
    Current h'.world.db pc' := by
  obtain ⟨h₁, hacts, rfl⟩ := server_step hs
  rw [world_deliver]
  cases hacts with
  | socket | event => exact current_of_none rfl
  | @service s call pc pc' w hservice =>
    cases s with
    | rooms => exact (Rooms.shows_step hc hservice).1
    | roomUpdates =>
      cases call with
      | updateRoom r a dto => exact (Rooms.shows_updateStep hc hservice).1
    | _ => exact current_of_none rfl

/-- What an action of `RoomsService` emits carries the unread messages of the first recipient, and
reaches everybody it names. -/
theorem shown_of_step (hk : OfRooms k) (hc : Current h.world.db pc) {r : String}
    {ids : List String} {view : RoomView} {event : Lifecycle}
    (hs : (server cfg decode json).step c k h pc = some (h', pc'))
    (he : h'.world.events = h.world.events ++ [event.event r ids view]) :
    view.unreadCount = (unreadOf h.world.db r (ids.headD r)).getD 0 ∧
      ∀ u ∈ ids, ∀ v, Shown h h' u v ↔ v = view := by
  obtain ⟨h₁, hacts, rfl⟩ := server_step hs
  rw [world_deliver] at he
  cases hacts with
  | socket | event => exact hk.elim
  | @service s call pc pc' w hservice =>
    refine ⟨?_, fun u hu v => ?_⟩
    · cases s with
      | rooms => exact (Rooms.shows_step hc hservice).2 _ _ _ _ he
      | roomUpdates =>
        cases call with
        | updateRoom r a dto => exact (Rooms.shows_updateStep hc hservice).2 _ _ _ _ he
      | _ => exact hk.elim
    · have hne : ids.isEmpty = false := by
        cases ids with
        | nil => cases hu
        | cons x xs => rfl
      rw [Shown, deliver_of_events he]
      cases event <;>
        simp [Lifecycle.event, onEvent, emitToUsers, hne, Hub.emit, List.mem_map_of_mem hu, eq_comm]

end Step

/-! ## Runs -/

section Runs
variable {ι : Type} [DecidableEq ι] {cfg : AppConfig} {decode : String → Option Jwt}
  {json : Messages.Json} {calls : ι → ServerCall} {P Q : Pool Hub ServerPc ι}

theorem current_start (db : Db) (k : ServerCall) :
    Current db ((server cfg decode json).start k) := by
  rcases k with (call | call) | ⟨s, call⟩
  · exact current_of_none rfl
  · exact current_of_none rfl
  · cases s with
    | rooms =>
      cases call with
      | createRoom a dto =>
        have hstart : (Rooms.createStart a dto).viewing = none := by
          rcases Rooms.createStart_cases a dto with h | ⟨e, h⟩ <;> rw [h] <;> rfl
        exact Rooms.current_of_none hstart
      | _ => exact current_of_none rfl
    | _ => exact current_of_none rfl

/-- Every view under way goes by the tables. -/
theorem current_of_run (h₀ : Hub)
    (hrun : Run (server cfg decode json) viewsUnbroken calls
      ((server cfg decode json).initial calls h₀) P) (i : ι) :
    Current P.shared.world.db (P.pcs i) := by
  refine hrun.invariant (fun Q => ∀ i, Current Q.shared.world.db (Q.pcs i))
    (fun i => current_start _ _) (fun {Q i c h' l'} _ hI hallow hs j => ?_) (fun {Q} e hI j => ?_) i
  · dsimp only
    by_cases hj : j = i
    · subst hj
      rw [Function.update_self]
      exact current_step (hI j) hs
    · -- the others are at the start of a view, if anywhere
      rw [Function.update_of_ne hj]
      intro r ids vp hv
      obtain rfl := hallow.2 j hj r ids vp hv
      trivial
  · show Current (env cfg e Q.shared).world.db (Q.pcs j)
    rw [db_env]
    exact hI j

/-- **The unread count of a room event is the recipient's own**, where all have the same. In any run
of the server in which views are read in one piece, whenever `RoomsService` emits `ROOM_CREATED` or
`ROOM_UPDATED`, the view sent to each recipient who is a member carries the number of messages this
member has not read, if and only if all these members have the same number unread, and none if the
first recipient is no member. -/
theorem own_unread (cfg : AppConfig) (decode : String → Option Jwt) (json : Messages.Json)
    (calls : ι → ServerCall) (h₀ : Hub)
    (hrun : Run (server cfg decode json) viewsUnbroken calls
      ((server cfg decode json).initial calls h₀) P)
    {i : ι} (hi : OfRooms (calls i)) {c : Choice} {h' : Hub} {pc' : ServerPc}
    (hs : (server cfg decode json).step c (calls i) P.shared (P.pcs i) = some (h', pc'))
    {r : String} {ids : List String} {view : RoomView} {event : Lifecycle}
    (he : h'.world.events = P.shared.world.events ++ [event.event r ids view]) :
    (∀ u ∈ ids, ∀ n, unreadOf P.shared.world.db r u = some n →
      ∀ v, Shown P.shared h' u v → v.unreadCount = n) ↔
    UnreadAlike P.shared.world.db r ids := by
  obtain ⟨hcount, hshown⟩ := shown_of_step hi (current_of_run h₀ hrun i) hs he
  constructor
  · intro hown
    have hview : ∀ u ∈ ids, ∀ n, unreadOf P.shared.world.db r u = some n →
        view.unreadCount = n := fun u hu n hn => hown u hu n hn view ((hshown u hu view).2 rfl)
    refine ⟨fun u hu v hv n m hn hm => (hview u hu n hn).symm.trans (hview v hv m hm),
      fun hnone u hu n hn => ?_⟩
    rw [← hview u hu n hn, hcount, hnone]
    rfl
  · rintro ⟨halike, hnone⟩ u hu n hn v hv
    obtain rfl := (hshown u hu v).1 hv
    rw [hcount]
    cases hhead : unreadOf P.shared.world.db r (ids.headD r) with
    | none => exact (hnone hhead u hu n hn).symm
    | some m =>
      have hin : ids.headD r ∈ ids := by
        cases ids with
        | nil => cases hu
        | cons x xs => exact List.mem_cons_self
      exact halike _ hin u hu m n hhead hn

end Runs

/-! ## A member comes back -/

/-- `a` is alone in `r1`, which `b` has left. -/
def aloneR1 (messages : Table Message) : Hub where
  world := {
    db := {
      users := Messages.usersAB
      rooms := Messages.roomsR1
      roomMembers := ⟨[{ roomId := "r1", userId := "a", role := .OWNER, joinedAt := 0 },
                       { roomId := "r1", userId := "b", joinedAt := 0, leftAt := some 1 }],
        by decide⟩
      messages } }

/-- `a` adds `b`. -/
def comeBack : Unit → ServerCall := fun _ => .inr ⟨.rooms, .addMembers "r1" "a" ["b"]⟩

/-- What is sent to `a` and `b` then. -/
def viewR1 (lastMessage : Option LastMessageView) (unreadCount : Nat) : RoomView where
  id := "r1"
  type := .GROUP
  name := none
  avatarUrl := none
  createdBy := "a"
  createdAt := 0
  lastMessageAt := none
  members := [⟨"a", none, none, .OWNER⟩, ⟨"b", none, none, .MEMBER⟩]
  lastMessage
  unreadCount

/-- The request has come to the event with the view, `a` having `n` messages unread and `b`
none. -/
def showsR1 (view : RoomView) (n : Nat) (P : Pool Hub ServerPc Unit) : Bool :=
  ((server {} (fun _ => none) Messages.noJson).step {} (comeBack ()) P.shared (P.pcs ())).any
    (fun x => x.1.world.events == P.shared.world.events ++ [.roomUpdated view "r1" ["a", "b"]]) &&
  unreadOf P.shared.world.db "r1" "a" == some n && unreadOf P.shared.world.db "r1" "b" == some 0

theorem showsR1_reached (messages : Table Message) (view : RoomView) (n : Nat)
    (hexec : ((server {} (fun _ => none) Messages.noJson).exec always comeBack
      ((server {} (fun _ => none) Messages.noJson).initial comeBack (aloneR1 messages))
      (List.replicate 8 (.step () {}))).any (showsR1 view n) = true) :
    ∃ P h' pc', Run (server {} (fun _ => none) Messages.noJson) viewsUnbroken comeBack
      ((server {} (fun _ => none) Messages.noJson).initial comeBack (aloneR1 messages)) P ∧
      (server {} (fun _ => none) Messages.noJson).step {} (comeBack ()) P.shared (P.pcs ()) =
        some (h', pc') ∧
      h'.world.events = P.shared.world.events ++
        [Lifecycle.ROOM_UPDATED.event "r1" ["a", "b"] view] ∧
      unreadOf P.shared.world.db "r1" "a" = some n ∧
      unreadOf P.shared.world.db "r1" "b" = some 0 := by
  obtain ⟨P, hrun, hP⟩ := Machine.exec_reaches (D := viewsUnbroken)
    (fun {P i} _ => ⟨trivial, fun j hj => absurd (Subsingleton.elim j i) hj⟩) hexec
  simp only [showsR1, Bool.and_eq_true, beq_iff_eq, Option.any_eq_true] at hP
  obtain ⟨⟨⟨⟨h', pc'⟩, hs, he⟩, ha⟩, hb⟩ := hP
  exact ⟨P, h', pc', hrun, hs, he, ha, hb⟩

/-- Without messages both are told that they have none to read. -/
theorem own_unread_r1 : ∃ P h', Run (server {} (fun _ => none) Messages.noJson) viewsUnbroken
      comeBack ((server {} (fun _ => none) Messages.noJson).initial comeBack (aloneR1 .empty)) P ∧
    ∀ u ∈ ["a", "b"], ∀ n, unreadOf P.shared.world.db "r1" u = some n →
      ∀ v, Shown P.shared h' u v → v.unreadCount = n := by
  obtain ⟨P, h', pc', hrun, hs, he, ha, hb⟩ :=
    showsR1_reached .empty (viewR1 none 0) 0 (by decide)
  refine ⟨P, h', hrun,
    (own_unread {} _ Messages.noJson comeBack _ hrun trivial hs he).2 ⟨?_, ?_⟩⟩
  · simp [ha, hb]
  · simp [ha]

/-- `b` comes back to a room where `a` has a message unread, and both are told that they have. -/
theorem unread_of_another : ¬ ∀ (cfg : AppConfig) (decode : String → Option Jwt)
    (json : Messages.Json) (calls : Unit → ServerCall) (h₀ : Hub) (P : Pool Hub ServerPc Unit)
    (c : Choice) (h' : Hub) (pc' : ServerPc) (r : String) (ids : List String) (view : RoomView)
    (event : Lifecycle), Run (server cfg decode json) viewsUnbroken calls
      ((server cfg decode json).initial calls h₀) P → OfRooms (calls ()) →
    (server cfg decode json).step c (calls ()) P.shared (P.pcs ()) = some (h', pc') →
    h'.world.events = P.shared.world.events ++ [event.event r ids view] →
    ∀ u ∈ ids, ∀ n, unreadOf P.shared.world.db r u = some n →
      ∀ v, Shown P.shared h' u v → v.unreadCount = n := by
  intro h
  obtain ⟨P, h', pc', hrun, hs, he, -, hb⟩ := showsR1_reached
    ⟨[{ Messages.messageR1 "m1" 1 with senderId := "b" }], by decide⟩
    (viewR1 (some ⟨1, .TEXT, "hi", 0⟩) 1) 1 (by decide)
  have hcurrent := current_of_run _ hrun ()
  have hshown := (shown_of_step (k := comeBack ()) trivial hcurrent hs he).2 "b" (by simp)
  have hcount := h {} _ Messages.noJson comeBack _ P {} h' pc' "r1" ["a", "b"] _ .ROOM_UPDATED
    hrun trivial hs he "b" (by simp) 0 hb _ ((hshown _).2 rfl)
  cases hcount

end Intaktok.Realtime
