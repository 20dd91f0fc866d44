import Mathlib.Data.List.Perm.Subperm
import Intaktok.Rooms.Notices
import Intaktok.Rooms.Enrolment
import Intaktok.Rooms.Ownership
import Intaktok.Messages.Drift
import Intaktok.Realtime.SystemMessages
/-
# Is every join announced once?

`addMembers` looks at the memberships once, writes its users one by one, and says only at the end,
in one system message, who has joined (`rooms.service.ts:293` to `:327`). As long as what it has
found of each user is still so when it writes him, requests to one group do not get into each
other's way: whoever becomes a member is in exactly one such message, and no request fails on a
unique constraint (`joins_announced`). Of two requests that have both found a user absent, one fails
(`join_fails`).
-/

namespace Intaktok.Rooms

open Interleave Tables Messages
open Realtime (Carries preview_of_carries view_of_preview plainJson plainJson_parse)

/-! ## Announcements -/

/-- The users a message says have joined. -/
def joinedIds (json : Json) (m : Message) : List String :=
  match m.type, m.content.bind json.parse with
  | .SYSTEM, some (.memberJoined _ targetIds) => targetIds
  | _, _ => []

/-- The messages of the room that say the user has joined. -/
def announcements (json : Json) (db : Db) (r u : String) : List Message :=
  db.messages.findMany fun m => m.roomId == r && (joinedIds json m).contains u

/-- The request of an actor to add users to the group `r`. -/
def addingTo {ι : Type} (r : String) (requests : ι → String × List String) (i : ι) : Call :=
  .addMembers r (requests i).1 (requests i).2

/-- What an `addMembers` has found of a user is still so: no row, or the one of somebody who has
left. -/
def StillFound (r u : String) (existing : List RoomMember) (w : World) : Prop :=
  if existing.any (·.userId == u) then ∃ m, row w.db.roomMembers r u = some m ∧ m.leftAt ≠ none
  else row w.db.roomMembers r u = none

/-- Users are written as they have been found, and no announcement finds the last number it may try
taken. -/
def Uncontested (r : String) : Discipline World Call Pc where
  alone _ w pc :=
    (∀ head existing u todo added, pc = .write head existing (u :: todo) added →
      StillFound r u existing w) ∧
    ∀ roomId task todo attempt seq result,
      pc = .tail roomId task todo (.system (.insert attempt seq)) result →
      seq ∈ seqs w.db r → attempt + 1 < SEQ_RETRY
  beside _ _ _ _ _ := True

/-- Nothing is inserted yet. -/
def unposted : CreatePc → Bool
  | .roomUpdate _ | .fetch _ _ | .winner | .done _ => false
  | _ => true

/-- The users a request has written and not announced yet. -/
def Pc.owed : Pc → List String
  | .write _ _ _ added => added
  | .tail _ (.lifecycle _ _) (.system _ (.memberJoined _ added) :: _) _ _ => added
  | .tail _ (.system _ (.memberJoined _ added)) _ (.system pc) _ =>
    if unposted pc then added else []
  | _ => []

/-! ## What is there throughout -/

def UserThere (u : String) (db : Db) : Prop := u ∈ db.users.rows.map (·.id)

theorem UserThere.any {u : String} {db : Db} (h : UserThere u db) :
    db.users.rows.any (·.id == u) = true := by
  obtain ⟨x, hx, hid⟩ := List.mem_map.1 h
  exact List.any_eq_true.2 ⟨x, hx, beq_iff_eq.2 hid⟩

theorem RoomThere.any {r : String} {w : World} (h : RoomThere r w) :
    w.db.rooms.rows.any (·.id == r) = true := by
  obtain ⟨x, hx, hid⟩ := List.mem_map.1 h
  exact List.any_eq_true.2 ⟨x, hx, beq_iff_eq.2 hid⟩

/-- Memberships have their users, Redis counts the messages of the room, and the system messages can
be read. -/
structure Orderly (json : Json) (r : String) (w : World) : Prop where
  counts : Counts r w
  members : ∀ m ∈ w.db.roomMembers.rows, m.roomId = r → UserThere m.userId w.db
  system : ∀ m ∈ w.db.messages.rows, m.type = .SYSTEM → ∃ payload, Carries json m payload

theorem Orderly.emit {json : Json} {r : String} {w : World} (h : Orderly json r w)
    (e : DomainEvent) : Orderly json r (w.emit e) :=
  ⟨⟨h.counts.lasting, h.counts.number⟩, h.members, h.system⟩

/-- Users and rooms stay. -/
structure SamePlaces (w w' : World) : Prop where
  users : w'.db.users = w.db.users
  rooms : roomStubs w'.db = roomStubs w.db

theorem SamePlaces.refl (w : World) : SamePlaces w w := ⟨rfl, rfl⟩

theorem SamePlaces.user {w w' : World} {u : String} (h : SamePlaces w w') (hu : UserThere u w.db) :
    UserThere u w'.db := by
  unfold UserThere
  rwa [h.users]

theorem SamePlaces.room {w w' : World} {r : String} (h : SamePlaces w w') (hr : RoomThere r w) :
    RoomThere r w' := hr.mono fun _ hx => h.rooms ▸ hx

theorem assertActiveUsers_ok {db : Db} {ids : List String} (h : assertActiveUsers db ids = .ok ())
    {u : String} (hu : u ∈ ids) : UserThere u db := by
  unfold assertActiveUsers at h
  dsimp only at h
  split at h
  · cases h
  rename_i hlen
  rw [not_not] at hlen
  let users := db.users.findMany fun x => ids.eraseDups.contains x.id && x.status == .ACTIVE
  have hnodup : (users.map (·.id)).Nodup :=
    Table.nodup_findMany (c := .id) (by simp [Row.constraints]) fun a b _ _ he => by
      simp [Row.clash, he]
  have hsub : users.map (·.id) ⊆ ids.eraseDups := by
    intro v hv
    obtain ⟨x, hx, rfl⟩ := List.mem_map.1 hv
    simp only [users, Table.mem_findMany, Bool.and_eq_true, List.contains_iff_mem] at hx
    exact hx.2.1
  have hperm := (hnodup.subperm hsub).perm_of_length_le (by rw [List.length_map, hlen])
  obtain ⟨x, hx, hid⟩ := List.mem_map.1 (hperm.mem_iff.2 (List.mem_eraseDups.2 hu))
  exact List.mem_map.2 ⟨x, (Table.mem_findMany.1 hx).1, hid⟩

theorem CreateActs.samePlaces {json : Json} {c : Choice} {p : CreateMessageParams} {w w' : World}
    {pc pc' : CreatePc} (h : CreateActs json c p w pc w' pc') : SamePlaces w w' := by
  refine ⟨?_, (kept_of_createActs h).rooms⟩
  cases h.effect <;> rfl

/-! ## One action -/

/-- Where the creation of an announcement may be. -/
def Creating : CreatePc → Prop
  | .seqExists _ | .seqMax _ | .seqSetNx _ _ | .seqIncr _ | .insert _ _ | .roomUpdate _
  | .fetch _ _ => True
  | .resyncMax attempt | .resyncSet attempt _ => attempt + 1 < SEQ_RETRY
  | _ => False

/-- A view that will not fail. -/
def Showing (json : Json) : ViewPc → Prop
  | .avatars x _ | .unread x _ _ =>
    ∀ m, x.last = some m → messagePreview json m.type m.content ≠ none
  | .done (.error _) => False
  | _ => True

/-- The tail of a request that has added somebody, or nobody. -/
inductive Announcing (json : Json) (a : String) : Task → List Task → TailPc → Prop
  | recipients {event b added v} : Announcing json a (.lifecycle event .active)
      [.system a (.memberJoined b added), .view v] .recipients
  | lifecycle {event b added v ids vp} : Showing json vp →
      Announcing json a (.lifecycle event .active) [.system a (.memberJoined b added), .view v]
        (.lifecycle ids vp)
  | system {b added v q} : Creating q →
      Announcing json a (.system a (.memberJoined b added)) [.view v] (.system q)
  | view {v vp} : Showing json vp → Announcing json a (.view v) [] (.view vp)

/-- What a request has checked by the time it is about to do `pc`. -/
def Checked (json : Json) (r a : String) (ids : List String) (w : World) : Pc → Prop
  | .room _ => UserThere a w.db
  | .activeUsers => UserThere a w.db ∧ RoomThere r w
  | .head | .existing _ => UserThere a w.db ∧ RoomThere r w ∧ ∀ u ∈ ids, UserThere u w.db
  | .write _ _ todo _ => UserThere a w.db ∧ RoomThere r w ∧ ∀ u ∈ todo, UserThere u w.db
  | .tail roomId task todo pc _ => UserThere a w.db ∧ RoomThere r w ∧ roomId = r ∧
      Announcing json a task todo pc
  | .done x => ∀ target, x ≠ .error (.uniqueConstraint target)
  | _ => True

theorem SamePlaces.checked {json : Json} {r a : String} {ids : List String} {w w' : World} {pc : Pc}
    (h : SamePlaces w w') (hj : Checked json r a ids w pc) : Checked json r a ids w' pc := by
  unfold Checked at hj ⊢
  split at hj
  · exact h.user hj
  · exact ⟨h.user hj.1, h.room hj.2⟩
  · exact ⟨h.user hj.1, h.room hj.2.1, fun u hu => h.user (hj.2.2 u hu)⟩
  · exact ⟨h.user hj.1, h.room hj.2.1, fun u hu => h.user (hj.2.2 u hu)⟩
  · exact ⟨h.user hj.1, h.room hj.2.1, fun u hu => h.user (hj.2.2 u hu)⟩
  · exact ⟨h.user hj.1, h.room hj.2.1, hj.2.2⟩
  · exact hj
  · trivial

/-- What an action means for the joins: nothing, a user written, or an announcement inserted. -/
inductive Joins (json : Json) (r : String) (w : World) (pc : Pc) (w' : World) (pc' : Pc) : Prop
  | aside : w'.db.roomMembers = w.db.roomMembers →
      w'.db.messages.rows = w.db.messages.rows → pc'.owed = pc.owed → Joins json r w pc w' pc'
  | joined {u head existing todo added} : pc = .write head existing (u :: todo) added →
      joinMember r u head existing w = .ok w'.db.roomMembers →
      w'.db.messages.rows = w.db.messages.rows → pc'.owed = added ++ [u] → Joins json r w pc w' pc'
  | posted {m} : w'.db.roomMembers = w.db.roomMembers →
      w'.db.messages.rows = w.db.messages.rows ++ [m] → m.roomId = r →
      joinedIds json m = pc.owed → pc'.owed = [] → Joins json r w pc w' pc'

section Step
variable {json : Json} {c : Choice} {r a : String} {ids : List String} {w w' : World}

/-- What the creation of an announcement does. -/
inductive Posts (json : Json) (r : String) (added : List String) (w : World) (q : CreatePc)
    (w' : World) (q' : CreatePc) : Prop
  | aside : w'.db.messages.rows = w.db.messages.rows → unposted q' = unposted q →
      Creating q' ∨ (∃ x, q' = .done x ∧ ∀ target, x ≠ .error (.uniqueConstraint target)) →
      Posts json r added w q w' q'
  | posted {m} : w'.db.messages.rows = w.db.messages.rows ++ [m] → m.roomId = r → m.type = .SYSTEM →
      (∃ payload, Carries json m payload) → joinedIds json m = added → unposted q = true →
      q' = .roomUpdate m → Posts json r added w q w' q'

theorem posts_of_create {b : String} {added : List String} {q q' : CreatePc}
    (hjson : ∀ payload, json.parse (json.stringify payload) = some payload)
    (hc : Counts r w) (hu : UserThere a w.db) (hr : RoomThere r w) (hq : Creating q)
    (hlast : ∀ attempt seq, q = .insert attempt seq → seq ∈ seqs w.db r → attempt + 1 < SEQ_RETRY)
    (h : CreateActs json c (systemParams json r a (.memberJoined b added)) w q w' q') :
    Posts json r added w q w' q' := by
  have on : w'.db.messages.rows = w.db.messages.rows → Creating q' → unposted q' = unposted q →
      Posts json r added w q w' q' := fun hm hq' he => .aside hm he (.inl hq')
  cases h with
  | counter | noCounter | seqMax | resyncMax => exact on rfl hq rfl
  | setNx => exact on (by rw [World.setNx_db]) trivial rfl
  | incr hi =>
    obtain ⟨⟨_, rfl⟩, -⟩ := World.incr_spec hi
    exact on rfl trivial rfl
  | noNumber hi =>
    obtain ⟨w₁, n, hs⟩ := World.incr_some hc.number
    rw [systemParams, hs] at hi
    cases hi
  | @inserted attempt seq w' m hid hcr =>
    obtain ⟨type, t, htype, rfl, ht, rfl, -⟩ := createRow_ok hcr
    obtain rfl := Option.some.inj htype
    refine .posted (Table.insert_ok ht).2 rfl rfl ⟨_, _, rfl, hjson _⟩ ?_ rfl rfl
    simp [joinedIds, CreateMessageParams.row, systemParams, hjson]
  | refused hno =>
    rcases hno.reason with ht | htext | ⟨type, -, hfk⟩
    · cases ht
    · rw [storable_systemParams] at htext
      cases htext
    · have hyes := hfk "" 0 0
      simp [Db.messageFk, CreateMessageParams.row, systemParams, hr.any, hu.any] at hyes
  | seqTaken hs => exact on rfl (hlast _ _ rfl hs) rfl
  | keyTaken hk => cases hk
  | @resyncSet attempt max =>
    have hleft : attempt + 1 < SEQ_RETRY := hq
    rw [if_pos hleft]
    exact .aside rfl rfl (.inl trivial)
  | roomUpdate => exact on rfl trivial rfl
  | noRoom => exact .aside rfl rfl (.inr ⟨_, rfl, fun _ => by rintro ⟨⟩⟩)
  | @fetch dto got got' hf =>
    rcases emitCreated_cases json dto got' w with ⟨hpc, hw⟩ | ⟨_, _, _, he⟩ | he
    · rw [hpc, hw]
      exact .aside rfl rfl (.inl trivial)
    · rw [he]
      exact .aside rfl rfl (.inr ⟨_, rfl, fun _ => by rintro ⟨⟩⟩)
    · rw [he]
      exact .aside rfl rfl (.inr ⟨_, rfl, fun _ => by rintro ⟨⟩⟩)
  | _ => exact hq.elim

/-- A view does not fail while there is the room and its last message can be shown. -/
theorem showing_viewStep {v : String} {vp vp' : ViewPc} (hw : Orderly json r w) (hr : RoomThere r w)
    (hv : Showing json vp) (h : viewStep json r v w vp = some vp') : Showing json vp' := by
  have hbuilt : ∀ {x : RoomWithMembers} {found : List String} {n : Nat},
      (∀ m, x.last = some m → messagePreview json m.type m.content ≠ none) →
      Showing json (built json x found n) := by
    intro x found n hx
    unfold built
    cases hb : buildView json x found n with
    | none => exact view_of_preview hx found n hb
    | some view => trivial
  have hafter : ∀ {x : RoomWithMembers} {found : List String},
      (∀ m, x.last = some m → messagePreview json m.type m.content ≠ none) →
      Showing json (afterAvatars json v x found) := by
    intro x found hx
    unfold afterAvatars
    split
    · exact hx
    · exact hbuilt hx
  cases vp <;> simp only [viewStep, Option.some.injEq] at h
  case room =>
    subst h
    split
    · rename_i hno
      exact loadRoom_there hr hno
    · rename_i x hx
      have hlast : ∀ m, x.last = some m → messagePreview json m.type m.content ≠ none := by
        intro m hm
        obtain ⟨room, -, rfl⟩ := Option.map_eq_some_iff.1 hx
        exact preview_of_carries (hw.system m (Table.find_some hm).1)
      split
      · exact hafter hlast
      · exact hlast
  case avatars x found => subst h; exact hafter hv
  case unread x found n => subst h; exact hbuilt hv
  case done x => cases h

theorem Orderly.created {p : CreateMessageParams} {q q' : CreatePc} (hw : Orderly json p.roomId w)
    (h : CreateActs json c p w q w' q')
    (hnew : ∀ m ∈ w'.db.messages.rows, m ∈ w.db.messages.rows ∨ ∃ payload, Carries json m payload) :
    Orderly json p.roomId w' where
  counts := h.counts hw.counts
  members m hm hr := by
    rw [(kept_of_createActs h).members] at hm
    exact (CreateActs.samePlaces h).user (hw.members m hm hr)
  system m hm ht := by
    rcases hnew m hm with hold | hc
    · exact hw.system m hold ht
    · exact hc

/-- An action of the announcement. -/
theorem joins_system {b v : String} {added : List String} {result : Option RoomView}
    {q : CreatePc} {pc' : Pc}
    (hjson : ∀ payload, json.parse (json.stringify payload) = some payload)
    (hw : Orderly json r w) (hu : UserThere a w.db) (hr : RoomThere r w) (hq : Creating q)
    (hlast : ∀ attempt seq, q = .insert attempt seq → seq ∈ seqs w.db r →
      attempt + 1 < SEQ_RETRY)
    (h : tailStep json c r (.system a (.memberJoined b added)) [.view v] result w (.system q) =
      some (w', pc')) :
    Orderly json r w' ∧ SamePlaces w w' ∧ Checked json r a ids w' pc' ∧
      Joins json r w (.tail r (.system a (.memberJoined b added)) [.view v] (.system q) result)
        w' pc' := by
  obtain ⟨⟨w₁, q'⟩, hs, he⟩ := Option.map_eq_some_iff.1 h
  have hacts := acts_of_createStep hs
  have hpost := posts_of_create hjson hw.counts hu hr hq hlast hacts
  obtain ⟨rfl, rfl⟩ := Prod.mk.inj he
  have hsame := CreateActs.samePlaces hacts
  have hmembers := (kept_of_createActs hacts).members
  have hu' := hsame.user hu
  have hr' := hsame.room hr
  cases hpost with
  | aside hm hun hor =>
    have hw' := Orderly.created (p := systemParams json r a (.memberJoined b added)) hw hacts
      fun m hin => .inl (hm ▸ hin)
    refine ⟨hw', hsame, ?_⟩
    rcases hor with hq' | ⟨x, rfl, hx⟩
    · cases q' with
      | done x => exact hq'.elim
      | _ => exact ⟨⟨hu', hr', rfl, .system hq'⟩,
          .aside hmembers hm (by simp only [Pc.owed]; rw [hun])⟩
    · have howed : (Pc.tail r (.system a (.memberJoined b added)) [.view v] (.system q)
          result).owed = [] := by
        simp only [Pc.owed]
        rw [← hun]
        rfl
      cases x with
      | ok res => exact ⟨⟨hu', hr', rfl, .view trivial⟩, .aside hmembers hm howed.symm⟩
      | error e =>
        have hnot : ∀ target, e ≠ .uniqueConstraint target :=
          fun target he => hx target (by rw [he])
        exact ⟨fun target he => hnot target (Except.error.inj he),
          .aside hmembers hm howed.symm⟩
  | @posted m hm hroom ht hcar hjoined hun hq' =>
    subst hq'
    have hw' := Orderly.created (p := systemParams json r a (.memberJoined b added)) hw hacts
      fun x hin => by
        rw [hm, List.mem_append, List.mem_singleton] at hin
        rcases hin with hin | rfl
        · exact .inl hin
        · exact .inr hcar
    refine ⟨hw', hsame, ⟨hu', hr', rfl, .system trivial⟩, .posted hmembers hm hroom ?_ rfl⟩
    simp only [Pc.owed]
    rw [hun, if_pos rfl, hjoined]

/-- An action of a tail. -/
theorem joins_tail {task : Task} {todo : List Task} {result : Option RoomView} {tp : TailPc}
    {pc' : Pc} (hjson : ∀ payload, json.parse (json.stringify payload) = some payload)
    (hw : Orderly json r w) (hu : UserThere a w.db) (hr : RoomThere r w)
    (ha : Announcing json a task todo tp)
    (hlast : ∀ attempt seq, tp = .system (.insert attempt seq) → seq ∈ seqs w.db r →
      attempt + 1 < SEQ_RETRY)
    (h : tailStep json c r task todo result w tp = some (w', pc')) :
    Orderly json r w' ∧ SamePlaces w w' ∧ Checked json r a ids w' pc' ∧
      Joins json r w (.tail r task todo tp result) w' pc' := by
  cases ha with
  | recipients =>
    cases h
    exact ⟨hw, .refl w, ⟨hu, hr, rfl, .lifecycle trivial⟩, .aside rfl rfl rfl⟩
  | @lifecycle event b added v recipients vp hv =>
    obtain ⟨vp', hs, he⟩ := Option.map_eq_some_iff.1 h
    have hv' := showing_viewStep hw hr hv hs
    cases vp' with
    | done x =>
      cases x with
      | ok view =>
        cases he
        exact ⟨hw.emit _, ⟨rfl, rfl⟩, ⟨hu, hr, rfl, .system trivial⟩, .aside rfl rfl rfl⟩
      | error e => cases hv'
    | _ =>
      cases he
      exact ⟨hw, .refl w, ⟨hu, hr, rfl, .lifecycle hv'⟩, .aside rfl rfl rfl⟩
  | system hq => exact joins_system hjson hw hu hr hq (fun n s hn => hlast n s (by rw [hn])) h
  | @view v vp hv =>
    obtain ⟨vp', hs, he⟩ := Option.map_eq_some_iff.1 h
    have hv' := showing_viewStep hw hr hv hs
    cases vp' with
    | done x =>
      cases x with
      | ok view =>
        cases he
        exact ⟨hw, .refl w, fun _ => by rintro ⟨⟩, .aside rfl rfl rfl⟩
      | error e => cases hv'
    | _ =>
      cases he
      exact ⟨hw, .refl w, ⟨hu, hr, rfl, .view hv'⟩, .aside rfl rfl rfl⟩

/-! ### The loop -/

/-- A user who is still as he has been found can be written. -/
theorem joinMember_found {u : String} {existing : List RoomMember} (head : Nat)
    (hf : StillFound r u existing w) (hr : RoomThere r w) (hu : UserThere u w.db) :
    ∃ t, joinMember r u head existing w = .ok t := by
  unfold StillFound at hf
  unfold joinMember
  dsimp only
  split
  · rename_i hex
    rw [if_pos hex] at hf
    obtain ⟨m, hm, -⟩ := hf
    obtain ⟨hin, hmr, hmu⟩ := find_isMember.1 hm
    have hany : w.db.roomMembers.rows.any (isMember r u) = true :=
      List.any_eq_true.2 ⟨m, hin, isMember_iff.2 ⟨hmr, hmu⟩⟩
    rw [updateMember, if_pos hany]
    exact ⟨_, rfl⟩
  · rename_i hex
    rw [if_neg hex] at hf
    split
    · rename_i k hk
      obtain ⟨x, hx, hclash⟩ := Table.violated_some (Table.insert_error hk)
      simp only [Row.clash, Bool.and_eq_true, beq_iff_eq] at hclash
      rw [row, Table.find_none] at hf
      have hno := hf x hx
      simp [isMember, ← hclash.1, ← hclash.2] at hno
    · rw [hr.any, hu.any]
      exact ⟨_, rfl⟩

theorem Orderly.joined {u : String} {head : Nat} {existing : List RoomMember}
    {t : Table RoomMember} (hw : Orderly json r w) (hu : UserThere u w.db)
    (hj : joinMember r u head existing w = .ok t) :
    Orderly json r { w with db.roomMembers := t } where
  counts := ⟨hw.counts.lasting, hw.counts.number⟩
  system := hw.system
  members m hm hr := by
    have hin : (m.roomId, m.userId) ∈ enrolled t := List.mem_map_of_mem (a := m) hm
    have hold : (m.roomId, m.userId) ∈ enrolled w.db.roomMembers → UserThere m.userId w.db := by
      intro h
      obtain ⟨m₀, hm₀, he⟩ := List.mem_map.1 h
      obtain ⟨hr₀, hu₀⟩ := Prod.mk.inj he
      rw [← hu₀]
      exact hw.members m₀ hm₀ (hr₀.trans hr)
    rcases enrolled_joinMember hj with he | he
    · exact hold (he ▸ hin)
    · rw [he, List.mem_append, List.mem_singleton] at hin
      rcases hin with hin | hin
      · exact hold hin
      · rw [(Prod.mk.inj hin).2]
        exact hu

theorem owed_nextWrite {head : Nat} {existing : List RoomMember} {todo added : List String} :
    (nextWrite json r a head existing todo added).owed = added := by
  unfold nextWrite
  split
  · cases added <;> rfl
  · rfl

theorem checked_nextWrite {head : Nat} {existing : List RoomMember} {todo added : List String}
    (hu : UserThere a w.db) (hr : RoomThere r w) (htodo : ∀ u ∈ todo, UserThere u w.db) :
    Checked json r a ids w (nextWrite json r a head existing todo added) := by
  unfold nextWrite
  split
  · cases added with
    | nil => exact ⟨hu, hr, rfl, .view trivial⟩
    | cons x added => exact ⟨hu, hr, rfl, .recipients⟩
  · exact ⟨hu, hr, fun u hin => htodo u ((List.dropWhile_sublist _).subset hin)⟩

theorem joins_addStep {pc pc' : Pc} (hw : Orderly json r w) (hk : Checked json r a ids w pc)
    (hfound : ∀ head existing u todo added, pc = .write head existing (u :: todo) added →
      StillFound r u existing w)
    (h : addStep json r a ids w pc = some (w', pc')) :
    Orderly json r w' ∧ SamePlaces w w' ∧ Checked json r a ids w' pc' ∧
      Joins json r w pc w' pc' := by
  have hfail : ∀ {e : AppException}, Checked json r a ids w (.fail e) := fun target => by rintro ⟨⟩
  cases pc <;> simp only [addStep] at h
  case guard =>
    cases h
    refine ⟨hw, .refl w, ?_⟩
    refine orFail_rule (P := fun pc' => Checked json r a ids w pc' ∧ Joins json r w .guard w pc')
      (fun role hok => ?_) fun _ _ => ⟨hfail, .aside rfl rfl rfl⟩
    obtain ⟨m, hm, rfl⟩ := canActivate_ok hok
    obtain ⟨hin, hr, rfl, -⟩ := crew_eq_some.1 hm
    exact ⟨hw.members m hin hr, .aside rfl rfl rfl⟩
  case room role =>
    cases h
    refine ⟨hw, .refl w, ?_⟩
    refine orFail_rule (P := fun pc' => Checked json r a ids w pc' ∧
      Joins json r w (.room role) w pc') (fun _ hok => ?_) fun _ _ => ⟨hfail, .aside rfl rfl rfl⟩
    refine orFail_rule (P := fun pc' => Checked json r a ids w pc' ∧
      Joins json r w (.room role) w pc') (fun _ _ => ?_) fun _ _ => ⟨hfail, .aside rfl rfl rfl⟩
    exact ⟨⟨hk, roomThere_of_group hok⟩, .aside rfl rfl rfl⟩
  case activeUsers =>
    cases h
    refine ⟨hw, .refl w, ?_⟩
    refine orFail_rule (P := fun pc' => Checked json r a ids w pc' ∧
      Joins json r w .activeUsers w pc') (fun _ hok => ?_) fun _ _ => ⟨hfail, .aside rfl rfl rfl⟩
    exact ⟨⟨hk.1, hk.2, fun u hu => assertActiveUsers_ok hok hu⟩, .aside rfl rfl rfl⟩
  case head =>
    cases h
    exact ⟨hw, .refl w, hk, .aside rfl rfl rfl⟩
  case existing head =>
    cases h
    exact ⟨hw, .refl w, checked_nextWrite hk.1 hk.2.1 fun u hin =>
      hk.2.2 u (List.mem_eraseDups.1 hin), .aside rfl rfl owed_nextWrite⟩
  case write head existing todo added =>
    cases todo with
    | nil => cases h
    | cons u todo =>
      obtain ⟨t, hj⟩ := joinMember_found head (hfound head existing u todo added rfl) hk.2.1
        (hk.2.2 u List.mem_cons_self)
      simp only [hj] at h
      cases h
      exact ⟨hw.joined (hk.2.2 u List.mem_cons_self) hj, ⟨rfl, rfl⟩,
        checked_nextWrite hk.1 hk.2.1 fun v hv => hk.2.2 v (List.mem_cons_of_mem _ hv),
        .joined rfl hj rfl owed_nextWrite⟩
  all_goals cases h

theorem joins_step {pc pc' : Pc}
    (hjson : ∀ payload, json.parse (json.stringify payload) = some payload)
    (hw : Orderly json r w) (hk : Checked json r a ids w pc)
    (hfree : (Uncontested r).alone (.addMembers r a ids) w pc)
    (h : step json c (.addMembers r a ids) w pc = some (w', pc')) :
    Orderly json r w' ∧ SamePlaces w w' ∧ Checked json r a ids w' pc' ∧
      Joins json r w pc w' pc' := by
  obtain ⟨hfound, hlast⟩ := hfree
  unfold step at h
  split at h
  · rename_i roomId task todo tp result
    obtain ⟨hu, hr, rfl, ha⟩ := hk
    exact joins_tail hjson hw hu hr ha (fun n s hs => hlast _ _ _ n s _ (by rw [hs])) h
  · exact joins_addStep hw hk hfound h

end Step

/-! ## One user -/

section User
variable {json : Json} {r u : String} {w₀ w w' : World} {pc pc' : Pc}

/-- What has become of a user since `w₀`, and of the messages that he has joined. -/
structure Accounted (json : Json) (r u : String) (w₀ w : World) : Prop where
  stays : (crew w₀.db.roomMembers r u).isSome = true → (crew w.db.roomMembers r u).isSome = true
  absent : crew w.db.roomMembers r u = none →
    announcements json w.db r u = announcements json w₀.db r u
  present : (crew w₀.db.roomMembers r u).isSome = true →
    announcements json w.db r u = announcements json w₀.db r u
  once : announcements json w.db r u = announcements json w₀.db r u ∨
    ∃ m, announcements json w.db r u = announcements json w₀.db r u ++ [m]

/-- The user has become a member since `w₀`, and no message says so. -/
structure Unannounced (json : Json) (r u : String) (w₀ w : World) : Prop where
  active : (crew w.db.roomMembers r u).isSome = true
  new : crew w₀.db.roomMembers r u = none
  silent : announcements json w.db r u = announcements json w₀.db r u

/-- What an action means for one user. -/
inductive JoinsUser (json : Json) (r u : String) (w : World) (pc : Pc) (w' : World) (pc' : Pc) :
    Prop
  | aside : crew w'.db.roomMembers r u = crew w.db.roomMembers r u →
      announcements json w'.db r u = announcements json w.db r u → (u ∈ pc'.owed ↔ u ∈ pc.owed) →
      JoinsUser json r u w pc w' pc'
  | joined : crew w.db.roomMembers r u = none → (crew w'.db.roomMembers r u).isSome = true →
      announcements json w'.db r u = announcements json w.db r u → u ∈ pc'.owed →
      JoinsUser json r u w pc w' pc'
  | posted {m} : crew w'.db.roomMembers r u = crew w.db.roomMembers r u → u ∈ pc.owed →
      announcements json w'.db r u = announcements json w.db r u ++ [m] → u ∉ pc'.owed →
      JoinsUser json r u w pc w' pc'

theorem StillFound.absent {existing : List RoomMember} (h : StillFound r u existing w) :
    crew w.db.roomMembers r u = none := by
  unfold StillFound at h
  rw [crew]
  split at h
  · obtain ⟨m, hm, hl⟩ := h
    rw [row] at hm
    rw [hm]
    cases hm' : m.leftAt with
    | none => exact absurd hm' hl
    | some n => simp [Option.filter, hm']
  · rw [row] at h
    rw [h]
    rfl

theorem announcements_congr (h : w'.db.messages.rows = w.db.messages.rows) :
    announcements json w'.db r u = announcements json w.db r u := by
  rw [announcements, announcements, Table.findMany, Table.findMany, h]

theorem Joins.user (h : Joins json r w pc w' pc')
    (hfound : ∀ head existing u todo added, pc = .write head existing (u :: todo) added →
      StillFound r u existing w) : JoinsUser json r u w pc w' pc' := by
  cases h with
  | aside hmem hmsg howed => exact .aside (by rw [hmem]) (announcements_congr hmsg) (by rw [howed])
  | @joined v head existing todo added hpc hj hmsg howed =>
    subst hpc
    by_cases hv : u = v
    · subst hv
      obtain ⟨m, -, hcrew⟩ := crew_joinMember hj
      refine .joined (hfound _ _ _ _ _ rfl).absent ?_ (announcements_congr hmsg) ?_
      · rw [hcrew, Function.update_self]
        rfl
      · rw [howed]
        exact List.mem_append_right _ (List.mem_singleton_self _)
    · refine .aside (row_crew (row_joinMember hj hv)) (announcements_congr hmsg) ?_
      rw [howed, List.mem_append, List.mem_singleton, or_iff_left hv]
      rfl
  | @posted m hmem hmsg hroom hids howed =>
    have hcrew : crew w'.db.roomMembers r u = crew w.db.roomMembers r u := by rw [hmem]
    have hann : announcements json w'.db r u = announcements json w.db r u ++
        if u ∈ pc.owed then [m] else [] := by
      rw [announcements, Table.findMany, hmsg, List.filter_append, ← hids]
      simp [announcements, Table.findMany, hroom, List.filter_singleton]
    by_cases hu : u ∈ pc.owed
    · rw [if_pos hu] at hann
      exact .posted hcrew hu hann (by rw [howed]; exact List.not_mem_nil)
    · rw [if_neg hu, List.append_nil] at hann
      exact .aside hcrew hann (by rw [howed]; simp [hu])

theorem Accounted.step (ha : Accounted json r u w₀ w) (ho : u ∈ pc.owed → Unannounced json r u w₀ w)
    (h : JoinsUser json r u w pc w' pc') : Accounted json r u w₀ w' := by
  cases h with
  | aside hcrew hann _ =>
    constructor
    · rw [hcrew]; exact ha.stays
    · rw [hcrew, hann]; exact ha.absent
    · rw [hann]; exact ha.present
    · rw [hann]; exact ha.once
  | joined hno hyes hann _ =>
    have hold := ha.absent hno
    constructor
    · exact fun _ => hyes
    · intro hno'
      rw [hno'] at hyes
      cases hyes
    · exact fun _ => hann.trans hold
    · exact .inl (hann.trans hold)
  | @posted m hcrew hu hann _ =>
    have hun := ho hu
    constructor
    · rw [hcrew]; exact ha.stays
    · intro hno
      rw [hcrew] at hno
      have hyes := hun.active
      rw [hno] at hyes
      cases hyes
    · intro hold
      rw [hun.new] at hold
      cases hold
    · exact .inr ⟨m, by rw [hann, hun.silent]⟩

/-- Who has just been written was no member before. -/
theorem Accounted.new (ha : Accounted json r u w₀ w) (h : crew w.db.roomMembers r u = none) :
    crew w₀.db.roomMembers r u = none := by
  rw [← Option.not_isSome_iff_eq_none]
  intro hold
  have hyes := ha.stays hold
  rw [h] at hyes
  cases hyes

/-- A request goes on owing, or has just begun to. -/
theorem unannounced_own (ha : Accounted json r u w₀ w)
    (ho : u ∈ pc.owed → Unannounced json r u w₀ w) (h : JoinsUser json r u w pc w' pc') :
    u ∈ pc'.owed → Unannounced json r u w₀ w' := by
  intro hu
  cases h with
  | aside hcrew hann howed =>
    have hun := ho (howed.1 hu)
    exact ⟨hcrew ▸ hun.active, hun.new, hann.trans hun.silent⟩
  | joined hno hyes hann _ => exact ⟨hyes, ha.new hno, hann.trans (ha.absent hno)⟩
  | posted _ _ _ hno => exact absurd hu hno

/-- Nobody else writes or announces who is another request's to announce. -/
theorem unannounced_keep {pc₂ : Pc} (ho₂ : u ∈ pc₂.owed → Unannounced json r u w₀ w)
    (hapart : ¬ (u ∈ pc.owed ∧ u ∈ pc₂.owed)) (h : JoinsUser json r u w pc w' pc') :
    (u ∈ pc₂.owed → Unannounced json r u w₀ w') ∧ ¬ (u ∈ pc'.owed ∧ u ∈ pc₂.owed) := by
  cases h with
  | aside hcrew hann howed =>
    refine ⟨fun hu => ?_, by rwa [howed]⟩
    have hun := ho₂ hu
    exact ⟨hcrew ▸ hun.active, hun.new, hann.trans hun.silent⟩
  | joined hno hyes hann _ =>
    have hnot : u ∉ pc₂.owed := by
      intro hu
      have hyes₂ := (ho₂ hu).active
      rw [hno] at hyes₂
      cases hyes₂
    exact ⟨fun hu => absurd hu hnot, fun hu => hnot hu.2⟩
  | posted _ hu _ hno => exact ⟨fun hu₂ => absurd ⟨hu, hu₂⟩ hapart, fun hu => hno hu.1⟩

end User

/-! ## Runs -/

section Runs
variable {ι : Type} [DecidableEq ι] {json : Json} {r : String} {requests : ι → String × List String}

def checking (json : Json) (r : String) : Outline World Call Pc where
  glob := Orderly json r
  own k w pc := ∃ a ids, k = .addMembers r a ids ∧ Checked json r a ids w pc
  apart _ _ _ _ := True

theorem checking_valid (r : String)
    (hjson : ∀ payload, json.parse (json.stringify payload) = some payload) :
    (checking json r).Valid (machine json) (Uncontested r) .top where
  move ha := by
    obtain ⟨a, ids, rfl, hk⟩ := ha.own
    obtain ⟨hw, -, hk', -⟩ := joins_step hjson ha.glob hk ha.alone ha.step
    exact ⟨hw, a, ids, rfl, hk'⟩
  keep ha hw := by
    obtain ⟨a, ids, rfl, hk⟩ := ha.own
    obtain ⟨-, hsame, -, -⟩ := joins_step hjson ha.glob hk ha.alone ha.step
    obtain ⟨a₂, ids₂, rfl, hk₂⟩ := hw.own
    exact ⟨⟨a₂, ids₂, rfl, hsame.checked hk₂⟩, trivial⟩
  symm _ := trivial
  env ms _ hw := ⟨⟨hw.counts.tick ms, hw.members, hw.system⟩, fun ⟨a, ids, hk, hc⟩ =>
    ⟨a, ids, hk, SamePlaces.checked ⟨rfl, rfl⟩ hc⟩⟩

def accounting (json : Json) (r u : String) (w₀ : World) : Outline World Call Pc where
  glob := Accounted json r u w₀
  own _ w pc := u ∈ pc.owed → Unannounced json r u w₀ w
  apart _ pc _ pc₂ := ¬ (u ∈ pc.owed ∧ u ∈ pc₂.owed)

theorem accounting_valid (u : String) (w₀ : World)
    (hjson : ∀ payload, json.parse (json.stringify payload) = some payload) :
    (accounting json r u w₀).Valid (machine json) (Uncontested r) (checking json r) where
  move ha := by
    obtain ⟨a, ids, rfl, hk⟩ := ha.baseOwn
    obtain ⟨-, -, -, hj⟩ := joins_step hjson ha.baseGlob hk ha.alone ha.step
    have huser := hj.user (u := u) ha.alone.1
    exact ⟨ha.glob.step ha.own huser, unannounced_own ha.glob ha.own huser⟩
  keep ha hw := by
    obtain ⟨a, ids, rfl, hk⟩ := ha.baseOwn
    obtain ⟨-, -, -, hj⟩ := joins_step hjson ha.baseGlob hk ha.alone ha.step
    exact unannounced_keep hw.own hw.apart (hj.user ha.alone.1)
  symm h hu := h ⟨hu.2, hu.1⟩
  env _ _ h := ⟨⟨h.stays, h.absent, h.present, h.once⟩, fun ho hu => by
    obtain ⟨hactive, hnew, hsilent⟩ := ho hu
    exact ⟨hactive, hnew, hsilent⟩⟩

variable {w : World} {P : Pool World Pc ι}

theorem checking_run (hjson : ∀ payload, json.parse (json.stringify payload) = some payload)
    (hw : Orderly json r w)
    (h : Run (machine json) (Uncontested r) (addingTo r requests)
      ((machine json).initial (addingTo r requests) w) P) :
    (checking json r).Holds (addingTo r requests) P := by
  have h0 : (checking json r).Holds (addingTo r requests)
      ((machine json).initial (addingTo r requests) w) :=
    ⟨hw, fun i => ⟨_, _, rfl, trivial⟩, fun _ _ _ => trivial⟩
  exact (checking_valid r hjson).run (fun _ => Outline.top_holds _ _) h0 h

theorem accounting_run (u : String)
    (hjson : ∀ payload, json.parse (json.stringify payload) = some payload)
    (hw : Orderly json r w)
    (h : Run (machine json) (Uncontested r) (addingTo r requests)
      ((machine json).initial (addingTo r requests) w) P) :
    (accounting json r u w).Holds (addingTo r requests) P := by
  have hnone : ∀ i, u ∉ (((machine json).initial (addingTo r requests) w).pcs i).owed :=
    fun i => List.not_mem_nil
  have h0 : (accounting json r u w).Holds (addingTo r requests)
      ((machine json).initial (addingTo r requests) w) :=
    ⟨⟨id, fun _ => rfl, fun _ => rfl, .inl rfl⟩, fun i hu => absurd hu (hnone i),
      fun i j _ hu => hnone i hu.1⟩
  exact (accounting_valid u w hjson).run (fun hr => checking_run hjson hw hr) h0 h

/-- While somebody has become a member and no message says so, a request is still to say it. -/
theorem unannounced_owed {u : String}
    (hjson : ∀ payload, json.parse (json.stringify payload) = some payload)
    (hw : Orderly json r w)
    (h : Run (machine json) (Uncontested r) (addingTo r requests)
      ((machine json).initial (addingTo r requests) w) P)
    (hun : Unannounced json r u w P.shared) : ∃ i, u ∈ (P.pcs i).owed := by
  refine h.owed (Unannounced json r u w) (fun _ pc => u ∈ pc.owed) ?_ ?_ ?_ hun
  · intro hun
    have hyes : (crew w.db.roomMembers r u).isSome = true := hun.active
    rw [hun.new] at hyes
    cases hyes
  · intro Q i c s' l' hr ha hs hun
    obtain ⟨a, ids, hk, hc⟩ := (checking_run hjson hw hr).own i
    have hfree := ha.1
    rw [hk] at hs hfree
    obtain ⟨-, -, -, hj⟩ := joins_step hjson (checking_run hjson hw hr).glob hc hfree hs
    cases hj.user (u := u) hfree.1 with
    | aside hcrew hann howed =>
      by_cases hu : u ∈ (Q.pcs i).owed
      · exact .inl (howed.2 hu)
      · exact .inr ⟨⟨hcrew ▸ hun.active, hun.new, hann.symm.trans hun.silent⟩, hu⟩
    | joined _ _ _ hu => exact .inl hu
    | @posted m _ hu hann _ =>
      have hsilent := ((accounting_run u hjson hw hr).own i hu).silent
      have hlen := congrArg List.length (hann.symm.trans (hun.silent.trans hsilent.symm))
      simp at hlen
  · exact fun ms hun => ⟨hun.active, hun.new, hun.silent⟩

end Runs

/-- **Each join is announced exactly once**, where every user is still as he has been found: once
all requests to a group have finished, whoever has become a member is in one new announcement; and
no request fails on a unique constraint. -/
theorem joins_announced {ι : Type} [DecidableEq ι] (json : Json) (r : String)
    (requests : ι → String × List String) (w : World) (P : Pool World Pc ι)
    (hjson : ∀ payload, json.parse (json.stringify payload) = some payload)
    (hw : Orderly json r w)
    (hrun : Run (machine json) (Uncontested r) (addingTo r requests)
      ((machine json).initial (addingTo r requests) w) P)
    (hdone : ∀ i, ∃ x, P.pcs i = .done x) :
    (∀ u, crew w.db.roomMembers r u = none → (crew P.shared.db.roomMembers r u).isSome = true →
      ∃ m, announcements json P.shared.db r u = announcements json w.db r u ++ [m]) ∧
    ∀ i target, P.pcs i ≠ .done (.error (.uniqueConstraint target)) := by
  refine ⟨fun u hnew hactive => ?_, fun i target he => ?_⟩
  · rcases (accounting_run u hjson hw hrun).glob.once with hsilent | hsaid
    · obtain ⟨i, hu⟩ := unannounced_owed hjson hw hrun ⟨hactive, hnew, hsilent⟩
      obtain ⟨x, hx⟩ := hdone i
      rw [hx] at hu
      cases hu
    · exact hsaid
  · obtain ⟨a, ids, -, hc⟩ := (checking_run hjson hw hrun).own i
    rw [he] at hc
    exact hc target rfl

/-! ### Two requests for one user -/

/-- The group `r1` that `a` is alone in. -/
def foundedR1 : World where
  db.users := usersAB
  db.rooms := roomsR1
  db.roomMembers := ⟨[{ roomId := "r1", userId := "a", role := .OWNER, joinedAt := 0 }], by decide⟩

theorem foundedR1_orderly : Orderly plainJson "r1" foundedR1 where
  counts := { lasting _ h := nomatch h
              number _ h := nomatch h }
  members m hm _ := by
    rw [List.mem_singleton.1 hm]
    exact List.mem_cons_self
  system _ h := nomatch h

/-- `a` adds `b`, twice. -/
def addB (_ : Bool) : String × List String := ("a", ["b"])

/-- `Uncontested` for a schedule. -/
def uncontestedOk (r : String) (w : World) : Pc → Bool
  | .write _ existing (u :: _) _ =>
    if existing.any (·.userId == u) then (row w.db.roomMembers r u).any (·.leftAt.isSome)
    else (row w.db.roomMembers r u).isNone
  | .tail _ _ _ (.system (.insert attempt seq)) _ =>
    !(seqs w.db r).contains seq || decide (attempt + 1 < SEQ_RETRY)
  | _ => true

theorem uncontestedOk_allows {r : String} {ι : Type} {calls : ι → Call} {P : Pool World Pc ι}
    {i : ι} (h : uncontestedOk r P.shared (P.pcs i) = true) :
    (Uncontested r).allows calls P i := by
  refine ⟨⟨?_, ?_⟩, fun _ _ => trivial⟩
  · intro head existing u todo added hpc
    rw [hpc] at h
    unfold StillFound
    split
    · rename_i hex
      simp only [uncontestedOk, hex, if_true, Option.any_eq_true] at h
      obtain ⟨m, hm, hl⟩ := h
      exact ⟨m, hm, Option.isSome_iff_ne_none.1 hl⟩
    · rename_i hex
      simpa [uncontestedOk, hex] using h
  · intro roomId task todo attempt seq result hpc hin
    rw [hpc] at h
    simpa [uncontestedOk, hin] using h

/-- The second request looks when the first has written `b`, and has nothing to do. -/
theorem joins_announced_b : ∃ P, Run (machine plainJson) (Uncontested "r1") (addingTo "r1" addB)
      ((machine plainJson).initial (addingTo "r1" addB) foundedR1) P ∧
    ∃ m, announcements plainJson P.shared.db "r1" "b" = [m] := by
  have hexec : ((machine plainJson).exec (fun P i => uncontestedOk "r1" P.shared (P.pcs i))
      (addingTo "r1" addB) ((machine plainJson).initial (addingTo "r1" addB) foundedR1)
      (turns true 4 ++ turns false 13 ++ announce false "m1" 2 ++ turns true 3)).any (fun P =>
        finished P && (crew P.shared.db.roomMembers "r1" "b").isSome) = true := by decide
  obtain ⟨P, hrun, hP⟩ := Machine.exec_reaches (D := Uncontested "r1") uncontestedOk_allows hexec
  rw [Bool.and_eq_true] at hP
  obtain ⟨m, hm⟩ := (joins_announced plainJson "r1" addB foundedR1 P plainJson_parse
    foundedR1_orderly hrun (finished_quiet hP.1)).1 "b" rfl hP.2
  exact ⟨P, hrun, m, hm⟩

def isUnique : Pc → Bool
  | .done (.error (.uniqueConstraint _)) => true
  | _ => false

/-- **A join that fails.** Both requests have found `b` absent; the one that writes second fails. -/
theorem join_fails : ¬ ∀ (ι : Type) [DecidableEq ι] (json : Json) (r : String)
    (requests : ι → String × List String) (w : World) (P : Pool World Pc ι),
    (∀ payload, json.parse (json.stringify payload) = some payload) → Orderly json r w →
    Run (machine json) Discipline.free (addingTo r requests)
      ((machine json).initial (addingTo r requests) w) P →
    (∀ i, ∃ x, P.pcs i = .done x) →
    (∀ u, crew w.db.roomMembers r u = none → (crew P.shared.db.roomMembers r u).isSome = true →
      ∃ m, announcements json P.shared.db r u = announcements json w.db r u ++ [m]) ∧
    ∀ i target, P.pcs i ≠ .done (.error (.uniqueConstraint target)) := by
  intro h
  have hexec : ((machine plainJson).exec always (addingTo "r1" addB)
      ((machine plainJson).initial (addingTo "r1" addB) foundedR1)
      (turns false 5 ++ turns true 6 ++ turns false 1 ++ turns true 7 ++ announce true "m1" 2)).any
        (fun P => finished P && isUnique (P.pcs false)) = true := by decide
  obtain ⟨P, hrun, hP⟩ := Machine.exec_reaches_free hexec
  rw [Bool.and_eq_true] at hP
  have hno := (h Bool plainJson "r1" addB foundedR1 P plainJson_parse foundedR1_orderly hrun
    (finished_quiet hP.1)).2 false
  have hyes := hP.2
  unfold isUnique at hyes
  split at hyes
  · rename_i target he
    exact hno target he
  · cases hyes

end Intaktok.Rooms
