import Intaktok.Rooms.ListRooms
/-
# The lists of an admin

| here | there |
| --- | --- |
| `CursorPaginationDto` | `common/dto/pagination.dto.ts:6` |
| `ListWhitelistDto` | `admin/dto/whitelist.dto.ts:38` |
| `isBefore`, `datePage`, `listByDate` | what `list` and `listAccessRequests` do alike |
| `list` | `AdminService.list` (`admin.service.ts:40`) |
| `listAccessRequests` | `listAccessRequests` (`:112`) |

Both lists are ordered by `createdAt`, which is also their cursor. A reader gets every row once if
and only if no page ends among rows created in the same millisecond (`lists_complete`).
-/

namespace Intaktok.Admin

open Tables Messages

structure CursorPaginationDto where
  cursor : Option String := none
  limit : Option Nat := none

structure ListWhitelistDto extends CursorPaginationDto where
  status : Option WhitelistStatus := none

section ByDate
variable {R C : Type} [Row R C] (createdAt : R → Nat)

def isBefore (before : Option Int) (x : R) : Bool :=
  before.all fun t => decide ((createdAt x : Int) < t)

/-- The answer, from the rows the database found. -/
def datePage (limit : Nat) (rows : List R) : Except Failure (Paginated R) :=
  let page := Paging.page limit rows
  if limit < rows.length then
    match page.getLast? with
    | some last => .ok ⟨page, some (IsoDate.toISOString (createdAt last))⟩
    | none => .error .js
  else .ok ⟨page, none⟩

def listByDate (other : String → Option Int) (order : Paging.Sorting createdAt) (t : Table R)
    (matching : R → Bool) (dto : CursorPaginationDto) : Except Failure (Paginated R) :=
  let limit := dto.limit.getD 50
  let found := fun before => datePage createdAt limit
    ((order.sort (t.findMany fun x => matching x && isBefore createdAt before x)).take (limit + 1))
  match truthy dto.cursor with
  | none => found none
  | some cursor => match Rooms.dateOf other cursor with
    | none => .error .invalidValue
    | some before => found (some before)

end ByDate

def statusMatches (status : Option WhitelistStatus) (row : Whitelist) : Bool :=
  status.all (row.status == ·)

def list (other : String → Option Int) (order : Paging.Sorting Whitelist.createdAt) (db : Db)
    (dto : ListWhitelistDto) : Except Failure (Paginated Whitelist) :=
  listByDate (·.createdAt) other order db.whitelist (statusMatches dto.status)
    dto.toCursorPaginationDto

def listAccessRequests (other : String → Option Int)
    (order : Paging.Sorting AccessRequest.createdAt) (db : Db) (dto : CursorPaginationDto) :
    Except Failure (Paginated AccessRequest) :=
  listByDate (·.createdAt) other order db.accessRequests (fun _ => true) dto

/-- A client that asks for a list without a cursor first, and then with each `nextCursor`. -/
def readAll {R : Type} (ask : Nat → Option String → Except Failure (Paginated R)) :
    Nat → Paging.Reader String Failure R :=
  Paging.follow fun n cursor => (ask n cursor).map fun p => (p.items, p.nextCursor)

/-! ## What a client reads -/

section ByDate
variable {R C : Type} [Row R C] {createdAt : R → Nat} {other : String → Option Int}
  {order : Paging.Sorting createdAt} {t : Table R} {matching : R → Bool} {limit : Nat}

/-- The cursor a row leaves behind. -/
def dateCursor (createdAt : R → Nat) (x : R) : String := IsoDate.toISOString (createdAt x)

theorem datePage_eq (hlimit : 0 < limit) (found : List R) :
    (datePage createdAt limit (found.take (limit + 1))).map (fun p => (p.items, p.nextCursor)) =
      .ok (Paging.reply limit id (dateCursor createdAt) found) := by
  unfold datePage Paging.reply
  simp only [Paging.page_take, Paging.more_take, List.map_id]
  by_cases hmore : limit < found.length
  · rw [if_pos hmore, if_pos hmore]
    obtain ⟨last, hlast⟩ := Paging.exists_last hlimit hmore
    rw [hlast]
    rfl
  · rw [if_neg hmore, if_neg hmore]
    rfl

theorem listByDate_first :
    listByDate createdAt other order t matching { limit := some limit } =
      datePage createdAt limit ((order.sort (t.findMany matching)).take (limit + 1)) := by
  simp [listByDate, truthy, isBefore]

theorem listByDate_next {s : String} (hs : s ≠ "") {last : Nat}
    (hdate : Rooms.dateOf other s = some (last : Int)) :
    listByDate createdAt other order t matching { cursor := some s, limit := some limit } =
      datePage createdAt limit ((order.sort ((t.findMany matching).filter fun x =>
        decide (createdAt x < last))).take (limit + 1)) := by
  have hrows : (t.findMany fun x => matching x && isBefore createdAt (some (last : Int)) x) =
      (t.findMany matching).filter fun x => decide (createdAt x < last) := by
    rw [Table.findMany, Table.findMany, List.filter_filter]
    refine List.filter_congr fun x _ => ?_
    simp [isBefore, Bool.and_comm]
  simp only [listByDate, truthy_some hs, hdate, hrows, Option.getD_some]

/-- The cursor of a row leads to the rows created before it. -/
theorem listByDate_cursor (x : R) :
    listByDate createdAt other order t matching
        { cursor := some (dateCursor createdAt x), limit := some limit } =
      datePage createdAt limit ((order.sort ((t.findMany matching).filter fun y =>
        decide (createdAt y < createdAt x))).take (limit + 1)) :=
  listByDate_next (IsoDate.toISOString_ne_empty _) (Rooms.dateOf_toISOString _)

theorem serves_listByDate (orders : Nat → Paging.Sorting createdAt) (hlimit : 0 < limit) :
    Paging.Serves limit createdAt id (dateCursor createdAt) (t.findMany matching) fun n cursor =>
      (listByDate createdAt other (orders n) t matching { cursor, limit := some limit }).map
        fun p => (p.items, p.nextCursor) where
  first n := ⟨_, (orders n).ordered _, by rw [listByDate_first, datePage_eq hlimit]⟩
  next n x _ := ⟨_, (orders n).ordered _, by
    rw [listByDate_cursor, datePage_eq hlimit]⟩

/-- Every row that matches is read once if and only if no page ends among rows of one date. -/
theorem listByDate_complete (orders : Nat → Paging.Sorting createdAt) (hlimit : 0 < limit) :
    (∃ n rows, readAll (fun n cursor => listByDate createdAt other (orders n) t matching
        { cursor, limit := some limit }) n = .done (.ok rows) ∧ rows.Perm (t.findMany matching)) ↔
      Paging.Aligned limit createdAt (t.findMany matching) := by
  have hserves : Paging.Serves limit createdAt id (dateCursor createdAt) (t.findMany matching)
      fun n cursor => (listByDate createdAt other (orders n) t matching
        { cursor, limit := some limit }).map fun p => (p.items, p.nextCursor) :=
    serves_listByDate orders hlimit
  obtain ⟨n, picked, hdone, -, -, hperm⟩ := hserves.reads hlimit
  rw [List.map_id] at hdone
  rw [← hperm]
  refine ⟨?_, fun h => ⟨n, picked, hdone, h⟩⟩
  rintro ⟨k, rows, hk, hrows⟩
  cases Paging.follow_unique hdone hk
  exact hrows

end ByDate

/-- **When the lists of an admin lose nothing.** A client that follows `nextCursor` from the start
gets every entry of the status, and every access request, exactly once and nothing else, in
whatever order equal rows come, if and only if no page ends among rows created in the same
millisecond. -/
theorem lists_complete (other : String → Option Int) (db : Db) (status : Option WhitelistStatus)
    (entries : Nat → Paging.Sorting Whitelist.createdAt)
    (requests : Nat → Paging.Sorting AccessRequest.createdAt) {limit : Nat} (hlimit : 1 ≤ limit) :
    ((∃ n rows, readAll (fun n cursor =>
          list other (entries n) db { cursor, limit := some limit, status }) n = .done (.ok rows) ∧
        rows.Perm (db.whitelist.findMany (statusMatches status))) ↔
      Paging.Aligned limit Whitelist.createdAt (db.whitelist.findMany (statusMatches status))) ∧
    ((∃ n rows, readAll (fun n cursor =>
          listAccessRequests other (requests n) db { cursor, limit := some limit }) n =
            .done (.ok rows) ∧
        rows.Perm db.accessRequests.rows) ↔
      Paging.Aligned limit AccessRequest.createdAt db.accessRequests.rows) := by
  have hall : db.accessRequests.findMany (fun _ => true) = db.accessRequests.rows :=
    List.filter_eq_self.2 fun _ _ => rfl
  rw [← hall]
  exact ⟨@listByDate_complete _ _ _ _ other db.whitelist (statusMatches status) _ entries hlimit,
    @listByDate_complete _ _ _ _ other db.accessRequests (fun _ => true) _ requests hlimit⟩

/-- Two entries, registered at these times. -/
def twoEntries (createdAt₁ createdAt₂ : Nat) : Db where
  whitelist := ⟨[{ id := "w1", kakaoId := some "k1", status := .INVITED, createdAt := createdAt₁ },
                 { id := "w2", kakaoId := some "k2", status := .INVITED, createdAt := createdAt₂ }],
    by simp [Compatible, Row.constraints, Row.clash, sameKey]⟩

/-- Two entries a millisecond apart, one to a page. -/
theorem lists_complete_w1 :
    (∃ n rows, readAll (fun _ cursor => list (fun _ => none) (.stable _) (twoEntries 0 1)
          { cursor, limit := some 1, status := none }) n = .done (.ok rows) ∧
        rows.Perm ((twoEntries 0 1).whitelist.findMany (statusMatches none))) ∧
      ∃ n rows, readAll (fun _ cursor => listAccessRequests (fun _ => none) (.stable _)
          (twoEntries 0 1) { cursor, limit := some 1 }) n = .done (.ok rows) ∧
        rows.Perm (twoEntries 0 1).accessRequests.rows := by
  have h := lists_complete (fun _ => none) (twoEntries 0 1) none (fun _ => .stable _)
    (fun _ => .stable _) (Nat.le_refl 1)
  exact ⟨h.1.2 (Paging.aligned_of_nodup (by decide)), h.2.2 (Paging.aligned_of_nodup (by decide))⟩

/-- Two entries of the same millisecond, one to a page: the second one is never listed. -/
theorem entry_never_listed :
    ¬ ∃ n rows, readAll (fun _ cursor => list (fun _ => none) (.stable _) (twoEntries 0 0)
          { cursor, limit := some 1, status := none }) n = .done (.ok rows) ∧
        rows.Perm ((twoEntries 0 0).whitelist.findMany (statusMatches none)) := by
  intro h
  have haligned := (listByDate_complete (fun _ => .stable _) (Nat.le_refl 1)).1 h
  have hpage := haligned ⟨"w1", some "k1", none, .INVITED, none, none, 0⟩ (by decide) 1
  revert hpage
  decide

end Intaktok.Admin
