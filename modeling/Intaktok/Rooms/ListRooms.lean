import Mathlib.Order.WithBot
import Intaktok.Lib.IsoDate
import Intaktok.Messages.History
import Intaktok.Rooms.View
/-
# The list of a user's rooms

| here | there |
| --- | --- |
| `dateOf` | `new Date(cursor)` (`rooms.service.ts:175`) |
| `memberships` | the `where` of the `findMany` of `listRooms` (`:176`) |
| `Sorting` | its `orderBy` |
| `roomPage`, `listRooms` | `listRooms` (`:170`) |
| `listing` | a client that calls it without a cursor first, and then with each `nextCursor` |

The list is ordered by the time of the last message, and the cursor is that time. It gets every
room once if and only if no page ends among rooms of the same time or before rooms without one
(`rooms_listed_once`).
-/

namespace Intaktok.Rooms

open Tables Messages

/-! ## `listRooms` -/

/-- `new Date(s)`, `none` being an invalid date; `other` stands for the strings that are no
`toISOString()`. -/
def dateOf (other : String → Option Int) (s : String) : Option Int :=
  ((IsoDate.parse s).map Int.ofNat).or (other s)

def lastMessageAt (db : Db) (m : RoomMember) : Option Nat :=
  (db.rooms.find (·.id == m.roomId)).bind (·.lastMessageAt)

/-- The order of the list: a room without a message comes last. -/
def activity (db : Db) (m : RoomMember) : WithBot Nat :=
  match lastMessageAt db m with
  | some last => WithBot.some last
  | none => ⊥

/-- A comparison with null does not hold. -/
def isBefore (db : Db) (before : Option Int) (m : RoomMember) : Bool :=
  before.all fun t => (lastMessageAt db m).any fun (last : Nat) => decide ((last : Int) < t)

/-- The foreign key has the room exist. -/
def memberships (db : Db) (userId : String) (before : Option Int) : List RoomMember :=
  db.roomMembers.findMany fun m => m.userId == userId && m.leftAt.isNone &&
    db.rooms.rows.any (·.id == m.roomId) && isBefore db before m

/-- What the database makes of the `ORDER BY`: rows of the same time come in any order. -/
structure Sorting (db : Db) where
  sort : List RoomMember → List RoomMember
  ordered : ∀ rows, Paging.Ordered (activity db) rows (sort rows)

/-- Equal rows stay as they are. -/
def Sorting.stable (db : Db) : Sorting db where
  sort rows := rows.insertionSort fun a b => activity db b ≤ activity db a
  ordered := Paging.ordered_insertionSort (activity db)

/-- `none` when the preview of the last message throws. -/
def roomItem (json : Json) (db : Db) (userId : String) (found : List String) (m : RoomMember) :
    Option RoomView :=
  (loadRoom db m.roomId).bind fun r =>
    buildView json r found (countUnread db m.roomId userId m.lastReadSeq)

/-- The answer, from the rows the database found. -/
def roomPage (json : Json) (db : Db) (userId : String) (limit : Nat) (rows : List RoomMember) :
    Except Failure (Paginated RoomView) :=
  let page := Paging.page limit rows
  let ids := (page.filterMap fun m => loadRoom db m.roomId).flatMap avatarIds
  match page.mapM (roomItem json db userId (MediaService.resolveAvatarUrls db ids)) with
  | none => .error .js
  | some items =>
    let last := if limit < rows.length then page.getLast?.bind (lastMessageAt db) else none
    .ok ⟨items, last.map IsoDate.toISOString⟩

def listRooms (json : Json) (other : String → Option Int) (db : Db) (order : Sorting db)
    (userId : String) (cursor : Option String) (limit : Nat := 30) :
    Except Failure (Paginated RoomView) :=
  let found := fun before => roomPage json db userId limit
    ((order.sort (memberships db userId before)).take (limit + 1))
  match truthy cursor with
  | none => found none
  | some cursor => match dateOf other cursor with
    | none => .error .invalidValue
    | some before => found (some before)

/-! ## Page after page -/

inductive Listing where
  | page (cursor : Option String) (read : List RoomView)
  | done (r : Except Failure (List RoomView))

def Listing.turn (read : List RoomView) : Except Failure (Paginated RoomView) → Listing
  | .error e => .done (.error e)
  | .ok ⟨items, none⟩ => .done (.ok (read ++ items))
  | .ok ⟨items, some cursor⟩ => .page (some cursor) (read ++ items)

/-- The client after its first `n` calls; the `i`-th finds its rows in the order `orders i`. -/
def listing (json : Json) (other : String → Option Int) (db : Db) (orders : Nat → Sorting db)
    (userId : String) (limit : Nat) : Nat → Listing
  | 0 => .page none []
  | n + 1 => match listing json other db orders userId limit n with
    | .page cursor read => .turn read (listRooms json other db (orders n) userId cursor limit)
    | .done r => .done r

/-- Every room the user is an active member of is there exactly once, and no other. -/
def Listed (db : Db) (userId : String) (items : List RoomView) : Prop :=
  ∀ room ∈ db.rooms.rows, (items.map (·.id)).count room.id =
    if (crew db.roomMembers room.id userId).isSome then 1 else 0

/-! ## The items of a page -/

/-- The preview of the last message of the room does not throw. -/
def Previewable (json : Json) (db : Db) (roomId : String) : Prop :=
  ∀ m ∈ db.messages.rows, m.roomId = roomId → m.seq = dbMaxSeq db roomId →
    m.deletedAt = none → (messagePreview json m.type m.content).isSome = true

section Items
variable {json : Json} {db : Db} {u : String} {before : Option Int}

theorem mem_memberships {m : RoomMember} :
    m ∈ memberships db u before ↔ m ∈ db.roomMembers.rows ∧ m.userId = u ∧ m.leftAt = none ∧
      (∃ room ∈ db.rooms.rows, room.id = m.roomId) ∧
      ∀ t, before = some t → ∃ last : Nat, lastMessageAt db m = some last ∧ (last : Int) < t := by
  simp only [memberships, isBefore, Table.mem_findMany, Bool.and_eq_true, beq_iff_eq,
    List.any_eq_true, Option.isNone_iff_eq_none, Option.all_eq_true, Option.any_eq_true,
    decide_eq_true_eq, and_assoc]

theorem loadRoom_last {r : String} {x : RoomWithMembers} (h : loadRoom db r = some x) :
    x.room.id = r ∧ ∀ m, x.last = some m ↔
      m ∈ db.messages.rows ∧ m.roomId = r ∧ m.seq = dbMaxSeq db r := by
  obtain ⟨room, hroom, rfl⟩ := Option.map_eq_some_iff.1 h
  refine ⟨by simpa using (Table.find_some hroom).2, fun m => ⟨fun hm => ?_, fun hm => ?_⟩⟩
  · simpa using Table.find_some hm
  · obtain ⟨hm, hr, hs⟩ := hm
    refine Table.find_eq hm (by simp [hr, hs]) fun y hy hp => ?_
    simp only [Bool.and_eq_true, beq_iff_eq] at hp
    exact messages_eq_of_seq hy hm (hp.1.trans hr.symm) (hp.2.trans hs.symm)

theorem buildView_id {x : RoomWithMembers} {found : List String} {n : Nat} {view : RoomView}
    (h : buildView json x found n = some view) : view.id = x.room.id := by
  unfold buildView at h
  split at h
  · cases h
    rfl
  · obtain ⟨preview, -, rfl⟩ := Option.map_eq_some_iff.1 h
    rfl

/-- A view fails with the preview of the last message only. -/
theorem buildView_isSome {r : String} {x : RoomWithMembers} (h : loadRoom db r = some x)
    (found : List String) (n : Nat) :
    (buildView json x found n).isSome = true ↔ Previewable json db r := by
  obtain ⟨-, hlast⟩ := loadRoom_last h
  unfold buildView
  cases hx : x.last with
  | none =>
    refine iff_of_true rfl fun m hm hr hs => ?_
    rw [(hlast m).2 ⟨hm, hr, hs⟩] at hx
    cases hx
  | some m =>
    obtain ⟨hm, hr, hs⟩ := (hlast m).1 hx
    have hpreview : Previewable json db r ↔
        (m.deletedAt = none → (messagePreview json m.type m.content).isSome = true) := by
      refine ⟨fun hp => hp m hm hr hs, fun hp y hy hyr hys => ?_⟩
      obtain rfl := messages_eq_of_seq hy hm (hyr.trans hr.symm) (hys.trans hs.symm)
      exact hp
    rw [hpreview]
    cases hd : m.deletedAt <;> simp [hd]

theorem loadRoom_of_memberships {m : RoomMember} (hm : m ∈ memberships db u before) :
    ∃ x, loadRoom db m.roomId = some x := by
  obtain ⟨-, -, -, ⟨room, hroom, hid⟩, -⟩ := mem_memberships.1 hm
  rw [← Option.ne_none_iff_exists', loadRoom, ne_eq, Option.map_eq_none_iff, Table.find_none]
  intro hno
  have hne := hno room hroom
  simp [hid] at hne

theorem roomItem_spec {m : RoomMember} (hm : m ∈ memberships db u before) (found : List String) :
    (roomItem json db u found m = none ∧ ¬ Previewable json db m.roomId) ∨
      ∃ view, roomItem json db u found m = some view ∧ view.id = m.roomId ∧
        Previewable json db m.roomId := by
  obtain ⟨x, hx⟩ := loadRoom_of_memberships hm
  rw [roomItem, hx, Option.bind_some]
  generalize countUnread db m.roomId u m.lastReadSeq = n
  have hsome : (buildView json x found n).isSome = true ↔ Previewable json db m.roomId :=
    buildView_isSome hx found n
  cases hview : buildView json x found n with
  | none =>
    rw [hview] at hsome
    exact .inl ⟨rfl, fun hp => by cases hsome.2 hp⟩
  | some view =>
    rw [hview] at hsome
    exact .inr ⟨view, rfl, (buildView_id hview).trans (loadRoom_last hx).1, hsome.1 rfl⟩

/-- The items of a page are its rooms, unless one of them cannot be shown. -/
theorem items_of_page {page : List RoomMember} (hpage : page ⊆ memberships db u before)
    (found : List String) :
    (page.mapM (roomItem json db u found) = none ∧
      ∃ m ∈ page, ¬ Previewable json db m.roomId) ∨
    ∃ items, page.mapM (roomItem json db u found) = some items ∧
      items.map (·.id) = page.map (·.roomId) ∧ ∀ m ∈ page, Previewable json db m.roomId := by
  induction page with
  | nil => exact .inr ⟨[], rfl, rfl, by simp⟩
  | cons m page ih =>
    rw [List.cons_subset] at hpage
    rw [List.mapM_cons]
    rcases roomItem_spec hpage.1 found with ⟨hnone, hbad⟩ | ⟨view, hview, hid, hgood⟩
    · rw [hnone]
      exact .inl ⟨rfl, m, by simp, hbad⟩
    · rw [hview]
      rcases ih hpage.2 with ⟨hnone, y, hy, hbad⟩ | ⟨items, hitems, hids, hgoods⟩
      · rw [hnone]
        exact .inl ⟨rfl, y, by simp [hy], hbad⟩
      · rw [hitems]
        exact .inr ⟨view :: items, rfl, by simp [hid, hids], by simpa using ⟨hgood, hgoods⟩⟩

/-- The answer for what is found: the rooms of the page, and the time of the last one if there is
more. -/
theorem roomPage_spec {found : List RoomMember} (hfound : found ⊆ memberships db u before)
    (limit : Nat) :
    (roomPage json db u limit (found.take (limit + 1)) = .error .js ∧
      ∃ m ∈ found, ¬ Previewable json db m.roomId) ∨
    ∃ items, roomPage json db u limit (found.take (limit + 1)) = .ok ⟨items,
        (if limit < found.length then (found.take limit).getLast?.bind (lastMessageAt db)
          else none).map IsoDate.toISOString⟩ ∧
      items.map (·.id) = (found.take limit).map (·.roomId) ∧
      ∀ m ∈ found.take limit, Previewable json db m.roomId := by
  simp only [roomPage, Paging.page_take, Paging.more_take]
  generalize MediaService.resolveAvatarUrls db _ = avatars
  rcases items_of_page (List.Subset.trans (List.take_subset limit found) hfound) avatars with
    ⟨hnone, m, hm, hbad⟩ | ⟨items, hitems, hids, hgood⟩
  · rw [hnone]
    exact .inl ⟨rfl, m, List.mem_of_mem_take hm, hbad⟩
  · rw [hitems]
    exact .inr ⟨items, rfl, hids, hgood⟩

theorem activity_eq_coe {m : RoomMember} {last : Nat} (h : lastMessageAt db m = some last) :
    activity db m = WithBot.some last := by
  rw [activity, h]

theorem activity_eq_bot {m : RoomMember} : activity db m = ⊥ ↔ lastMessageAt db m = none := by
  rw [activity]
  cases lastMessageAt db m <;> simp

/-- What a request finds after a room of the page: what comes after it in the list. -/
theorem memberships_after {t : Option Nat} {x : RoomMember}
    (hx : x ∈ memberships db u (t.map Int.ofNat)) {last : Nat}
    (hlast : lastMessageAt db x = some last) :
    memberships db u (some last) =
      Paging.after (activity db) (activity db x) (memberships db u (t.map Int.ofNat)) := by
  obtain ⟨-, -, -, -, hbelow⟩ := mem_memberships.1 hx
  rw [memberships, memberships, Paging.after, Table.findMany, Table.findMany, List.filter_filter]
  refine List.filter_congr fun m _ => ?_
  rw [activity_eq_coe hlast, activity]
  cases hm : lastMessageAt db m with
  | none => simp [isBefore, hm]
  | some k =>
    have hearlier : k < last → isBefore db (t.map Int.ofNat) m = true := by
      intro hk
      rw [isBefore, Option.all_eq_true]
      intro c hc
      obtain ⟨y, hy, hyc⟩ := hbelow c hc
      rw [hlast, Option.some.injEq] at hy
      simp only [hm, Option.any_some, decide_eq_true_eq]
      omega
    by_cases hk : k < last
    · rw [hearlier hk]
      simp [isBefore, hm, hk, WithBot.bot_lt_coe]
    · simp [isBefore, hm, hk]

end Items

section Follow
variable {json : Json} {other : String → Option Int} {db : Db} {orders : Nat → Sorting db}
  {u : String} {limit n : Nat} {t : Option Nat} {read : List RoomView}

theorem dateOf_toISOString (t : Nat) : dateOf other (IsoDate.toISOString t) = some (t : Int) := by
  rw [dateOf, IsoDate.parse_toISOString, Option.map_some, Option.some_or, Int.ofNat_eq_natCast]

theorem listRooms_before (order : Sorting db) {s : String} (hs : s ≠ "") {before : Int}
    (hdate : dateOf other s = some before) :
    listRooms json other db order u (some s) limit = roomPage json db u limit
      ((order.sort (memberships db u (some before))).take (limit + 1)) := by
  simp only [listRooms, truthy_some hs, hdate]

/-- A cursor that was handed out leads to the rows before that time. -/
theorem listRooms_eq (order : Sorting db) :
    listRooms json other db order u (t.map IsoDate.toISOString) limit =
      roomPage json db u limit
        ((order.sort (memberships db u (t.map Int.ofNat))).take (limit + 1)) := by
  cases t with
  | none => rfl
  | some t => exact listRooms_before order (IsoDate.toISOString_ne_empty t) (dateOf_toISOString t)

/-- How it ends if `rows` are still to be read. -/
inductive Outcome (json : Json) (db : Db) (limit : Nat) (rows : List RoomMember)
    (read : List RoomView) : Except Failure (List RoomView) → Prop
  | fails {m : RoomMember} : m ∈ rows → ¬ Previewable json db m.roomId →
      Outcome json db limit rows read (.error .js)
  | ends {items : List RoomView} {picked : List RoomMember} :
      Paging.Collects limit (activity db) rows picked →
      items.map (·.id) = picked.map (·.roomId) →
      (∀ m ∈ picked, Previewable json db m.roomId) →
      Outcome json db limit rows read (.ok (read ++ items))

/-- One call: the client has got to the end, or goes on after a room of the page. -/
theorem listing_page (hlimit : 0 < limit)
    (hn : listing json other db orders u limit n = .page (t.map IsoDate.toISOString) read) :
    let rows := memberships db u (t.map Int.ofNat)
    (∃ r, listing json other db orders u limit (n + 1) = .done r ∧
      Outcome json db limit rows read r) ∨
    ∃ items x last, x ∈ rows ∧ lastMessageAt db x = some last ∧
      listing json other db orders u limit (n + 1) =
        .page ((some last).map IsoDate.toISOString) (read ++ items) ∧
      ∀ r, Outcome json db limit (Paging.after (activity db) (activity db x) rows)
          (read ++ items) r → Outcome json db limit rows read r := by
  intro rows
  have ho := (orders n).ordered rows
  set found := (orders n).sort rows with hfound
  have hsub : found ⊆ rows := ho.perm.subset
  have hnext : listing json other db orders u limit (n + 1) =
      .turn read (roomPage json db u limit (found.take (limit + 1))) := by
    rw [listing, hn]
    exact congrArg (Listing.turn read) (listRooms_eq (orders n))
  rcases roomPage_spec hsub limit with ⟨hpage, m, hm, hbad⟩ | ⟨items, hpage, hids, hgood⟩
  · exact .inl ⟨.error .js, by rw [hnext, hpage]; rfl, .fails (hsub hm) hbad⟩
  · by_cases hmore : limit < found.length
    · obtain ⟨x, hlast, -, -⟩ := Paging.last_of_page ho.sorted hlimit hmore
      have hx : x ∈ rows := hsub (List.mem_of_mem_take (List.mem_of_getLast? hlast))
      rw [if_pos hmore, hlast, Option.bind_some] at hpage
      cases hkey : lastMessageAt db x with
      | none =>
        rw [hkey] at hpage
        exact .inl ⟨.ok (read ++ items), by rw [hnext, hpage]; rfl,
          .ends (.stop ho hmore hlast (activity_eq_bot.2 hkey)) hids hgood⟩
      | some last =>
        rw [hkey] at hpage
        refine .inr ⟨items, x, last, hx, hkey, by rw [hnext, hpage]; rfl, fun r hr => ?_⟩
        cases hr with
        | fails hm hbad => exact .fails (Paging.mem_after.1 hm).1 hbad
        | @ends items' picked hcollects hids' hgood' =>
          rw [List.append_assoc]
          refine .ends (.next ho hmore hlast (fun hbot => ?_) hcollects) ?_ ?_
          · rw [activity_eq_bot, hkey] at hbot
            cases hbot
          · rw [List.map_append, List.map_append, hids, hids']
          · intro m hm
            exact (List.mem_append.1 hm).elim (hgood m) (hgood' m)
    · rw [if_neg hmore] at hpage
      have hall : found.take limit = found := List.take_of_length_le (by omega)
      rw [hall] at hids hgood
      exact .inl ⟨.ok (read ++ items), by rw [hnext, hpage]; rfl,
        .ends (.last ho (by omega)) hids hgood⟩

/-- The client gets to the end, as less is left after each page. -/
theorem listing_ends (hlimit : 0 < limit)
    (hn : listing json other db orders u limit n = .page (t.map IsoDate.toISOString) read) :
    ∃ k r, listing json other db orders u limit k = .done r ∧
      Outcome json db limit (memberships db u (t.map Int.ofNat)) read r := by
  induction hlen : (memberships db u (t.map Int.ofNat)).length using Nat.strong_induction_on
    generalizing n t read with
  | _ len ih =>
    rcases listing_page hlimit hn with ⟨r, hdone, hr⟩ | ⟨items, x, last, hx, hkey, hpage, hr⟩
    · exact ⟨n + 1, r, hdone, hr⟩
    · have hafter := memberships_after hx hkey
      have hshorter : (memberships db u (some (last : Int))).length < len := by
        rw [← hlen, hafter, Paging.after, List.length_filter_lt_length_iff_exists]
        exact ⟨x, hx, by simp⟩
      obtain ⟨k, r, hdone, hout⟩ := ih _ hshorter hpage rfl
      exact ⟨k, r, hdone, hr r (hafter ▸ hout)⟩

theorem listing_add {r : Except Failure (List RoomView)}
    (hn : listing json other db orders u limit n = .done r) (k : Nat) :
    listing json other db orders u limit (n + k) = .done r := by
  induction k with
  | zero => exact hn
  | succ k ih => rw [← Nat.add_assoc, listing, ih]

/-- There is one end. -/
theorem listing_unique {k : Nat} {r r' : Except Failure (List RoomView)}
    (hn : listing json other db orders u limit n = .done r)
    (hk : listing json other db orders u limit k = .done r') : r = r' := by
  have h := listing_add hn k
  rw [Nat.add_comm, listing_add hk n] at h
  cases h
  rfl

end Follow

/-! ## Every room once -/

section Once
variable {db : Db} {u : String}

theorem memberships_eq_of_room {a b : RoomMember} (ha : a ∈ memberships db u none)
    (hb : b ∈ memberships db u none) (h : a.roomId = b.roomId) : a = b := by
  obtain ⟨ha, hua, -⟩ := mem_memberships.1 ha
  obtain ⟨hb, hub, -⟩ := mem_memberships.1 hb
  exact members_eq_of_key ha hb h (hua.trans hub.symm)

theorem memberships_nodup : ((memberships db u none).map (·.roomId)).Nodup := by
  refine Table.nodup_findMany (c := ()) (by simp [Row.constraints]) fun a b ha hb he => ?_
  simp only [Bool.and_eq_true, beq_iff_eq] at ha hb
  simp [Row.clash, ha.1.1.1, hb.1.1.1, he]

theorem mem_roomIds {room : Room} (hroom : room ∈ db.rooms.rows) :
    room.id ∈ (memberships db u none).map (·.roomId) ↔
      (crew db.roomMembers room.id u).isSome = true := by
  rw [List.mem_map, Option.isSome_iff_exists]
  refine exists_congr fun m => ?_
  rw [mem_memberships, crew_eq_some]
  constructor
  · rintro ⟨⟨hm, hu, hl, -⟩, hr⟩
    exact ⟨hm, hr, hu, hl⟩
  · rintro ⟨hm, hr, hu, hl⟩
    exact ⟨⟨hm, hu, hl, ⟨room, hroom, hr.symm⟩, by simp⟩, hr⟩

/-- A part of a user's rooms is all of them if every room is there once. -/
theorem listed_iff_perm {items : List RoomView} {picked : List RoomMember}
    (hids : items.map (·.id) = picked.map (·.roomId))
    (hpicked : picked.Subperm (memberships db u none)) :
    Listed db u items ↔ picked.Perm (memberships db u none) := by
  unfold Listed
  rw [hids]
  constructor
  · intro h
    refine hpicked.antisymm (memberships_nodup.of_map.subperm fun m hm => ?_)
    obtain ⟨-, -, -, ⟨room, hroom, hid⟩, -⟩ := mem_memberships.1 hm
    have hcrew := (mem_roomIds hroom).1 (List.mem_map.2 ⟨m, hm, hid.symm⟩)
    have hone := h room hroom
    rw [if_pos hcrew] at hone
    have hin : room.id ∈ picked.map (·.roomId) := List.count_pos_iff.1 (by omega)
    obtain ⟨m', hm', hid'⟩ := List.mem_map.1 hin
    rwa [memberships_eq_of_room hm (hpicked.subset hm') (hid.symm.trans hid'.symm)]
  · intro h room hroom
    rw [(h.map _).count_eq, memberships_nodup.count]
    exact if_congr (mem_roomIds hroom) rfl rfl

end Once

/-- The rooms of the user fit on one page, or each has a message and no page ends among rooms of
the same time. -/
def Pageable (db : Db) (userId : String) (limit : Nat) : Prop :=
  (memberships db userId none).length ≤ limit ∨
    (∀ m ∈ memberships db userId none, activity db m ≠ ⊥) ∧
      Paging.Aligned limit (activity db) (memberships db userId none)

/-- **When room list paging loses nothing.** A client that follows `nextCursor` from the start gets
every room of the user exactly once, in whatever order equal rows come, if and only if the last
messages of these rooms can be previewed, and the rooms fit on one page or each has a message and
no page ends among rooms of the same time. -/
theorem rooms_listed_once (json : Json) (other : String → Option Int) (db : Db)
    (orders : Nat → Sorting db) (userId : String) {limit : Nat} (hlimit : 1 ≤ limit) :
    (∃ n items, listing json other db orders userId limit n = .done (.ok items) ∧
      Listed db userId items) ↔
    (∀ m ∈ memberships db userId none, Previewable json db m.roomId) ∧
      Pageable db userId limit := by
  have hstart : listing json other db orders userId limit 0 =
      .page ((none : Option Nat).map IsoDate.toISOString) [] := rfl
  obtain ⟨k, r, hdone, hr⟩ := listing_ends hlimit hstart
  cases hr with
  | fails hm hbad =>
    refine iff_of_false ?_ fun h => hbad (h.1 _ hm)
    rintro ⟨n, items, hn, -⟩
    cases listing_unique hdone hn
  | @ends items picked hcollects hids hgood =>
    have hlisted := listed_iff_perm hids (hcollects.subperm hlimit)
    have hperm := hcollects.perm_iff hlimit
    constructor
    · rintro ⟨n, items', hn, hall⟩
      cases listing_unique hdone hn
      have hpicked := hlisted.1 hall
      exact ⟨fun m hm => hgood m (hpicked.symm.subset hm), hperm.1 hpicked⟩
    · rintro ⟨-, hpageable⟩
      exact ⟨k, [] ++ items, hdone, hlisted.2 (hperm.2 hpageable)⟩

/-- `a` is in two rooms, which have seen their last messages at these times. -/
def twoRooms (last₁ last₂ : Option Nat) : Db where
  rooms := ⟨[{ id := "r1", type := .DIRECT, createdBy := "a", lastMessageAt := last₁ },
             { id := "r2", type := .DIRECT, createdBy := "a", lastMessageAt := last₂ }],
    by simp [Compatible, Row.constraints, Row.clash, sameKey]⟩
  roomMembers := ⟨[{ roomId := "r1", userId := "a", joinedAt := 0 },
                   { roomId := "r2", userId := "a", joinedAt := 0 }], by decide⟩

/-- A room with a message before one with an older one, one to a page. -/
theorem rooms_listed_once_r1 :
    ∃ n items, listing noJson (fun _ => none) (twoRooms (some 2) (some 1)) (fun _ => .stable _) "a"
      1 n = .done (.ok items) ∧ Listed (twoRooms (some 2) (some 1)) "a" items := by
  refine (rooms_listed_once _ _ _ _ _ (Nat.le_refl 1)).2 ⟨fun m _ _ hm => ?_, .inr ⟨?_, ?_⟩⟩
  · cases hm
  · decide
  · intro x hx page
    have hcounts : ∀ x ∈ memberships (twoRooms (some 2) (some 1)) "a" none,
        (memberships (twoRooms (some 2) (some 1)) "a" none).countP (fun y =>
            decide (activity (twoRooms (some 2) (some 1)) x ≤
              activity (twoRooms (some 2) (some 1)) y)) ≤
          (memberships (twoRooms (some 2) (some 1)) "a" none).countP (fun y =>
            decide (activity (twoRooms (some 2) (some 1)) x <
              activity (twoRooms (some 2) (some 1)) y)) + 1 := by decide
    have h := hcounts x hx
    omega

/-- With two new rooms the list ends after the first of them. -/
theorem room_never_listed :
    ¬ ∃ n items, listing noJson (fun _ => none) (twoRooms none none) (fun _ => .stable _) "a" 1 n =
      .done (.ok items) ∧ Listed (twoRooms none none) "a" items := by
  rintro ⟨n, items, hn, hall⟩
  have hone : listing noJson (fun _ => none) (twoRooms none none) (fun _ => .stable _) "a" 1 1 =
      .done (.ok [{ id := "r1", type := .DIRECT, name := none, avatarUrl := none, createdBy := "a",
                    createdAt := 0, lastMessageAt := none, members := [⟨"a", none, none, .MEMBER⟩],
                    lastMessage := none, unreadCount := 0 }]) := rfl
  cases listing_unique hone hn
  exact absurd (hall { id := "r2", type := .DIRECT, createdBy := "a" } (by decide)) (by decide)

end Intaktok.Rooms
