import Mathlib.Logic.Relation
import Intaktok.Admin.Lists
import Intaktok.Users.Search
/-
# The lists, query by query

| here | there |
| --- | --- |
| `Rooms.ListPc`, `Rooms.listStep` | `listRooms` (`rooms.service.ts:170`): the rows, then the avatars if there are any, then the unread count of one room after the other |
| `SearchPc`, `searchStep` | `search` (`users.service.ts:56`): the rows, then the avatars if there are any |

The counts go off together (`Promise.all`), and come back in some order; here it is that of the
page. On a database that nobody writes meanwhile the queries make up the lists as a whole
(`listRooms_alone`, `search_alone`).
-/

namespace Intaktok

open Tables Messages

/-- What no step changes of an answer, the steps together do not. -/
theorem answer_of_steps {α β : Type} {step : α → Option α} {f : α → β}
    (hstep : ∀ {x y}, step x = some y → f y = f x) {x y : α}
    (h : Relation.ReflTransGen (fun x y => step x = some y) x y) : f y = f x := by
  induction h with
  | refl => rfl
  | tail _ hs ih => exact (hstep hs).trans ih

theorem MediaService.resolveAvatarUrls_congr {db : Db} {ids ids' : List String}
    (h : ∀ i, i ∈ ids ↔ i ∈ ids') : resolveAvatarUrls db ids = resolveAvatarUrls db ids' := by
  have hcontains : ∀ i, ids.contains i = ids'.contains i := fun i => by
    rw [Bool.eq_iff_iff, List.contains_iff_mem, List.contains_iff_mem, h]
  simp only [resolveAvatarUrls, hcontains]

theorem MediaService.resolveAvatarUrls_nil (db : Db) : resolveAvatarUrls db [] = [] := by
  simp [resolveAvatarUrls, Table.findMany]

/-! ## The rooms of a user -/

namespace Rooms

/-- A row of the list: the membership with its room. -/
abbrev Entry := RoomMember × RoomWithMembers

def entries (db : Db) (page : List RoomMember) : List Entry :=
  page.filterMap fun m => (loadRoom db m.roomId).map (m, ·)

inductive ListPc where
  | rows
  | avatars (entries : List Entry) (ids : List String) (nextCursor : Option String)
  | unread (entry : Entry) (todo : List Entry) (found : List String) (items : List RoomView)
      (nextCursor : Option String)
  | done (r : Except Failure (Paginated RoomView))

/-- On to the next room whose messages are to be counted. -/
def countNext (found : List String) (nextCursor : Option String) (items : List RoomView) :
    List Entry → ListPc
  | [] => .done (.ok ⟨items, nextCursor⟩)
  | entry :: todo => .unread entry todo found items nextCursor

/-- The rows the database found, of which the last is not on the page if they are too many. -/
def nextCursorOf (db : Db) (limit : Nat) (rows : List RoomMember) : Option String :=
  let last := if limit < rows.length then (Paging.page limit rows).getLast?.bind (lastMessageAt db)
    else none
  last.map IsoDate.toISOString

def avatarsOf (entries : List Entry) : List String :=
  (entries.flatMap fun e => avatarIds e.2).eraseDups

/-- Behind the first query. -/
def afterRows (db : Db) (limit : Nat) (rows : List RoomMember) : ListPc :=
  let found := entries db (Paging.page limit rows)
  let nextCursor := nextCursorOf db limit rows
  let ids := avatarsOf found
  if ids.isEmpty then countNext [] nextCursor [] found else .avatars found ids nextCursor

def itemOf (json : Json) (db : Db) (userId : String) (found : List String) (e : Entry) :
    Option RoomView :=
  buildView json e.2 found (countUnread db e.1.roomId userId e.1.lastReadSeq)

def listStep (json : Json) (other : String → Option Int) (order : (db : Db) → Sorting db)
    (userId : String) (cursor : Option String) (limit : Nat) (db : Db) : ListPc → Option ListPc
  | .rows =>
    let found := fun before => afterRows db limit
      (((order db).sort (memberships db userId before)).take (limit + 1))
    some (match truthy cursor with
      | none => found none
      | some cursor => match dateOf other cursor with
        | none => .done (.error .invalidValue)
        | some before => found (some before))
  | .avatars entries ids nextCursor =>
    some (countNext (MediaService.resolveAvatarUrls db ids) nextCursor [] entries)
  | .unread entry todo found items nextCursor =>
    some (match itemOf json db userId found entry with
      | none => .done (.error .js)
      | some item => countNext found nextCursor (items ++ [item]) todo)
  | .done _ => none

/-! ### On a database that stays as it is -/

section Alone
variable {json : Json} {other : String → Option Int} {order : (db : Db) → Sorting db}
  {userId : String} {cursor : Option String} {limit : Nat} {db : Db}

/-- The rest of the items, and the answer. -/
def counted (json : Json) (db : Db) (userId : String) (found : List String)
    (nextCursor : Option String) (items : List RoomView) (todo : List Entry) :
    Except Failure (Paginated RoomView) :=
  match todo.mapM (itemOf json db userId found) with
  | none => .error .js
  | some rest => .ok ⟨items ++ rest, nextCursor⟩

/-- What a call that has come to `pc` will be answered. -/
def ListPc.answer (json : Json) (other : String → Option Int) (order : (db : Db) → Sorting db)
    (userId : String) (cursor : Option String) (limit : Nat) (db : Db) :
    ListPc → Except Failure (Paginated RoomView)
  | .rows => listRooms json other db (order db) userId cursor limit
  | .avatars entries ids nextCursor =>
    counted json db userId (MediaService.resolveAvatarUrls db ids) nextCursor [] entries
  | .unread entry todo found items nextCursor =>
    counted json db userId found nextCursor items (entry :: todo)
  | .done r => r

theorem answer_countNext (found : List String) (nextCursor : Option String)
    (items : List RoomView) (todo : List Entry) :
    (countNext found nextCursor items todo).answer json other order userId cursor limit db =
      counted json db userId found nextCursor items todo := by
  cases todo with
  | nil => simp [countNext, ListPc.answer, counted]
  | cons entry todo => rfl

theorem counted_cons (found : List String) (nextCursor : Option String) (items : List RoomView)
    (entry : Entry) (todo : List Entry) :
    counted json db userId found nextCursor items (entry :: todo) =
      match itemOf json db userId found entry with
      | none => .error .js
      | some item => counted json db userId found nextCursor (items ++ [item]) todo := by
  unfold counted
  rw [List.mapM_cons]
  cases itemOf json db userId found entry with
  | none => rfl
  | some item => cases todo.mapM (itemOf json db userId found) <;> simp

theorem mapM_entries {page : List RoomMember} {found : List String}
    (hload : ∀ m ∈ page, ∃ r, loadRoom db m.roomId = some r) :
    (entries db page).mapM (itemOf json db userId found) =
      page.mapM (roomItem json db userId found) := by
  induction page with
  | nil => rfl
  | cons m page ih =>
    obtain ⟨r, hr⟩ := hload m List.mem_cons_self
    have hrest := ih fun m' hm' => hload m' (List.mem_cons_of_mem _ hm')
    have hcons : entries db (m :: page) = (m, r) :: entries db page := by simp [entries, hr]
    have hitem : roomItem json db userId found m = itemOf json db userId found (m, r) := by
      rw [roomItem, hr, Option.bind_some, itemOf]
    rw [hcons, List.mapM_cons, List.mapM_cons, hrest, hitem]

theorem answer_afterRows {before : Option Int} {rows : List RoomMember}
    (hrows : rows ⊆ memberships db userId before) :
    (afterRows db limit rows).answer json other order userId cursor limit db =
      roomPage json db userId limit rows := by
  have hpage : ∀ m ∈ Paging.page limit rows, ∃ r, loadRoom db m.roomId = some r := by
    intro m hm
    refine loadRoom_of_memberships (hrows ?_)
    unfold Paging.page at hm
    split at hm
    · exact List.mem_of_mem_take hm
    · exact hm
  have hids : (Paging.page limit rows).filterMap (fun m => loadRoom db m.roomId) =
      (entries db (Paging.page limit rows)).map (·.2) := by
    rw [entries, List.map_filterMap]
    refine List.filterMap_congr fun m _ => ?_
    cases loadRoom db m.roomId <;> rfl
  have havatars : MediaService.resolveAvatarUrls db
      (avatarsOf (entries db (Paging.page limit rows))) = MediaService.resolveAvatarUrls db
        (((Paging.page limit rows).filterMap fun m => loadRoom db m.roomId).flatMap avatarIds) := by
    refine MediaService.resolveAvatarUrls_congr fun i => ?_
    rw [avatarsOf, List.mem_eraseDups, hids, List.flatMap_map]
  have hanswer : counted json db userId (MediaService.resolveAvatarUrls db
      (avatarsOf (entries db (Paging.page limit rows)))) (nextCursorOf db limit rows) []
        (entries db (Paging.page limit rows)) = roomPage json db userId limit rows := by
    unfold counted roomPage
    rw [mapM_entries hpage, havatars]
    rfl
  rw [← hanswer]
  unfold afterRows
  dsimp only
  split
  · rename_i hempty
    rw [answer_countNext, List.isEmpty_iff.1 hempty, MediaService.resolveAvatarUrls_nil]
  · rfl

/-- No query changes what the call will be answered. -/
theorem answer_of_listStep {pc pc' : ListPc}
    (h : listStep json other order userId cursor limit db pc = some pc') :
    pc'.answer json other order userId cursor limit db =
      pc.answer json other order userId cursor limit db := by
  cases pc with
  | rows =>
    have hrows : ∀ before, ((order db).sort (memberships db userId before)).take (limit + 1) ⊆
        memberships db userId before := fun before m hm =>
      ((order db).ordered (memberships db userId before)).perm.mem_iff.1 (List.mem_of_mem_take hm)
    cases h
    change _ = listRooms json other db (order db) userId cursor limit
    unfold listRooms
    cases truthy cursor with
    | none => exact answer_afterRows (hrows none)
    | some cursor =>
      dsimp only
      cases dateOf other cursor with
      | none => rfl
      | some before => exact answer_afterRows (hrows (some before))
  | avatars entries ids nextCursor => cases h; exact answer_countNext ..
  | unread entry todo found items nextCursor =>
    cases h
    rw [ListPc.answer, counted_cons]
    cases itemOf json db userId found entry with
    | none => rfl
    | some item => exact answer_countNext ..
  | done r => cases h

theorem listRooms_alone {r : Except Failure (Paginated RoomView)}
    (h : Relation.ReflTransGen
      (fun pc pc' => listStep json other order userId cursor limit db pc = some pc')
      .rows (.done r)) : r = listRooms json other db (order db) userId cursor limit :=
  answer_of_steps (f := ListPc.answer json other order userId cursor limit db)
    answer_of_listStep h

end Alone

end Rooms

/-! ## Users -/

namespace UsersService

inductive SearchPc where
  | rows
  | avatars (profiles : List Profile) (ids : List String)
  | done (r : Except Failure (Paginated PublicUser))

/-- Behind the first query. -/
def afterProfiles (limit : Nat) (profiles : List Profile) : SearchPc :=
  let mediaIds := avatarIds (Paging.page limit profiles)
  if mediaIds.isEmpty then .done (searchPage limit profiles []) else .avatars profiles mediaIds

section Search
variable {κ : Type} [LinearOrder κ] (ids : Collation κ) (fold : Folding)

def searchStep (requesterId : String) (dto : SearchUsersDto) (db : Db) :
    SearchPc → Option SearchPc
  | .rows =>
    let limit := dto.limit.getD 50
    some (if dto.storable then
        afterProfiles limit ((dto.found ids fold requesterId db).take (limit + 1))
      else .done (.error .invalidValue))
  | .avatars profiles mediaIds =>
    some (.done (searchPage (dto.limit.getD 50) profiles
      (MediaService.resolveAvatarUrls db mediaIds)))
  | .done _ => none

/-- What a call that has come to `pc` will be answered. -/
def SearchPc.answer (requesterId : String) (dto : SearchUsersDto) (db : Db) :
    SearchPc → Except Failure (Paginated PublicUser)
  | .rows => search ids fold db requesterId dto
  | .avatars profiles mediaIds =>
    searchPage (dto.limit.getD 50) profiles (MediaService.resolveAvatarUrls db mediaIds)
  | .done r => r

variable {ids fold} {requesterId : String} {dto : SearchUsersDto} {db : Db}

theorem answer_afterProfiles (profiles : List Profile) :
    (afterProfiles (dto.limit.getD 50) profiles).answer ids fold requesterId dto db =
      searchPage (dto.limit.getD 50) profiles (MediaService.resolveAvatarUrls db
        (avatarIds (Paging.page (dto.limit.getD 50) profiles))) := by
  unfold afterProfiles
  dsimp only
  split
  · rename_i hempty
    rw [List.isEmpty_iff.1 hempty, MediaService.resolveAvatarUrls_nil]
    rfl
  · rfl

theorem answer_of_searchStep {pc pc' : SearchPc}
    (h : searchStep ids fold requesterId dto db pc = some pc') :
    pc'.answer ids fold requesterId dto db = pc.answer ids fold requesterId dto db := by
  cases pc with
  | rows =>
    cases h
    change _ = search ids fold db requesterId dto
    unfold search
    dsimp only
    split
    · exact answer_afterProfiles _
    · rfl
  | avatars profiles mediaIds => cases h; rfl
  | done r => cases h

theorem search_alone {r : Except Failure (Paginated PublicUser)}
    (h : Relation.ReflTransGen
      (fun pc pc' => searchStep ids fold requesterId dto db pc = some pc') .rows (.done r)) :
    r = search ids fold db requesterId dto :=
  answer_of_steps (f := SearchPc.answer ids fold requesterId dto db) answer_of_searchStep h

end Search

end UsersService

end Intaktok
