import Mathlib.Data.String.Basic
import Mathlib.Order.OrderDual
import Intaktok.Lib.Like
import Intaktok.Lib.Paging
import Intaktok.Messages.History
import Intaktok.Rooms.View
/-
# Searching users

| here | there |
| --- | --- |
| `SearchUsersDto` | `users/dto/search.dto.ts` |
| `Collation` | the order of ids in the database, for `gt` as for `orderBy` |
| `Folding` | what `lower` of the database makes of a character |
| `Folding.ilike` | `contains` with `mode: 'insensitive'`, which Prisma asks of Postgres as `ILIKE '%q%'` with `q` as it is |
| `SearchUsersDto.found` | the `findMany` of `search` (`users.service.ts:58`) |
| `search` | `UsersService.search` (`:56`) |

A cursor replaces the condition on `userId`, and the new one excludes the requester again; so a
client that follows `nextCursor` gets everybody who matches once, in the order of the ids
(`finds_matching`). But `%`, `_` and `\` mean something to `ILIKE`: those who match are those whose
nickname contains the keyword if it has none of the three, and only then (`search_exact_iff`).
-/

namespace Intaktok.UsersService

open Tables Messages

structure PublicUser where
  id : String
  nickname : String
  avatarUrl : Option String
deriving DecidableEq, Repr

structure SearchUsersDto where
  q : String
  cursor : Option String := none
  limit : Option Nat := none

/-- A total order of the ids, by their places in a linear order. -/
structure Collation (κ : Type) [LinearOrder κ] where
  place : String → κ
  inj : Function.Injective place

structure Folding where
  lower : Char → Char
  keeps : Like.Keeps lower

def Folding.ilike (fold : Folding) (nickname q : String) : Bool :=
  Like.like (nickname.toList.map fold.lower) (('%' :: (q.toList ++ ['%'])).map fold.lower)

section Search
variable {κ : Type} [LinearOrder κ] (ids : Collation κ) (fold : Folding)

/-- The profiles without the condition on `userId`. -/
def matchesQuery (db : Db) (q : String) (p : Profile) : Bool :=
  fold.ilike p.nickname q && p.onboardedAt.isSome &&
    db.users.rows.any fun u => u.id == p.userId && u.status == .ACTIVE

/-- The condition on `userId`; the one of the cursor takes the place of the other. -/
def userIdMatches (requesterId : String) (cursor : Option String) (p : Profile) : Bool :=
  match truthy cursor with
  | none => p.userId != requesterId
  | some cursor => decide (ids.place cursor < ids.place p.userId) && p.userId != requesterId

def SearchUsersDto.found (dto : SearchUsersDto) (requesterId : String) (db : Db) : List Profile :=
  (db.profiles.findMany fun p => matchesQuery fold db dto.q p &&
    userIdMatches ids requesterId dto.cursor p).insertionSort
      fun a b => ids.place a.userId ≤ ids.place b.userId

/-- Postgres takes no U+0000 in what it is asked for either. -/
def SearchUsersDto.storable (dto : SearchUsersDto) : Bool :=
  Messages.storable dto.q && (truthy dto.cursor).all Messages.storable

def avatarIds (page : List Profile) : List String :=
  (page.flatMap fun p => (truthy p.avatarMediaId).toList).eraseDups

/-- The answer, from the rows the database found and the avatars. -/
def searchPage (limit : Nat) (profiles : List Profile) (avatars : List String) :
    Except Failure (Paginated PublicUser) :=
  let page := Paging.page limit profiles
  let items := page.map fun p => ⟨p.userId, p.nickname, Rooms.avatarUrl avatars p.avatarMediaId⟩
  if limit < profiles.length then
    match page.getLast? with
    | some last => .ok ⟨items, some last.userId⟩
    | none => .error .js
  else .ok ⟨items, none⟩

def search (db : Db) (requesterId : String) (dto : SearchUsersDto) :
    Except Failure (Paginated PublicUser) :=
  let limit := dto.limit.getD 50
  if dto.storable then
    let profiles := (dto.found ids fold requesterId db).take (limit + 1)
    searchPage limit profiles
      (MediaService.resolveAvatarUrls db (avatarIds (Paging.page limit profiles)))
  else .error .invalidValue

/-- A client that searches without a cursor first, and then with each `nextCursor`. -/
def searching (db : Db) (requesterId q : String) (limit : Nat) :
    Nat → Paging.Reader String Failure PublicUser :=
  Paging.follow fun _ cursor =>
    (search ids fold db requesterId { q, cursor, limit := some limit }).map
      fun p => (p.items, p.nextCursor)

/-- The client gets to the end, and has then got exactly the others who are active and onboarded and
whose nickname is one of those asked for, each once, in the order of the ids. -/
def FindsAll (asked : String → Prop) (db : Db) (requesterId q : String) (limit : Nat) : Prop :=
  ∃ n items, searching ids fold db requesterId q limit n = .done (.ok items) ∧
    (∀ userId, userId ∈ items.map (·.id) ↔ userId ≠ requesterId ∧
      (∃ r ∈ db.users.rows, r.id = userId ∧ r.status = .ACTIVE) ∧
      ∃ p ∈ db.profiles.rows, p.userId = userId ∧ p.onboardedAt.isSome = true ∧
        asked p.nickname) ∧
    (items.map (·.id)).Nodup ∧ items.Pairwise fun a b => ids.place a.id < ids.place b.id

end Search

/-! ## What a client finds -/

section Search
variable {κ : Type} [LinearOrder κ] {ids : Collation κ} {fold : Folding} {db : Db} {u q : String}
  {limit : Nat}

/-- The profiles that match. -/
def candidates (fold : Folding) (db : Db) (requesterId q : String) : List Profile :=
  db.profiles.findMany fun p => matchesQuery fold db q p && p.userId != requesterId

theorem mem_candidates {p : Profile} : p ∈ candidates fold db u q ↔
    p ∈ db.profiles.rows ∧ fold.ilike p.nickname q = true ∧ p.onboardedAt.isSome = true ∧
      (∃ r ∈ db.users.rows, r.id = p.userId ∧ r.status = .ACTIVE) ∧ p.userId ≠ u := by
  simp [candidates, matchesQuery, and_assoc]

theorem candidates_nodup : ((candidates fold db u q).map (·.userId)).Nodup := by
  refine Table.nodup_findMany (c := ()) (by simp [Row.constraints]) fun a b _ _ he => ?_
  simp [Row.clash, he]

/-- The list goes up in the order of the ids. -/
def listKey (ids : Collation κ) (p : Profile) : κᵒᵈ := OrderDual.toDual (ids.place p.userId)

def publicUser (db : Db) (p : Profile) : PublicUser :=
  ⟨p.userId, p.nickname, (truthy p.avatarMediaId).filter fun i => db.media.rows.any (·.id == i)⟩

/-- The avatars are looked up for the page as a whole. -/
theorem avatarUrl_of_page {page : List Profile} {p : Profile} (hp : p ∈ page) :
    Rooms.avatarUrl (MediaService.resolveAvatarUrls db (avatarIds page)) p.avatarMediaId =
      (truthy p.avatarMediaId).filter fun i => db.media.rows.any (·.id == i) := by
  unfold Rooms.avatarUrl
  cases hm : truthy p.avatarMediaId with
  | none => rfl
  | some i =>
    have hin : i ∈ avatarIds page := by
      rw [avatarIds, List.mem_eraseDups, List.mem_flatMap]
      exact ⟨p, hp, by simp [hm]⟩
    have hiff : i ∈ MediaService.resolveAvatarUrls db (avatarIds page) ↔
        db.media.rows.any (·.id == i) = true := by
      rw [MediaService.resolveAvatarUrls, List.mem_map, List.any_eq_true]
      refine exists_congr fun m => ?_
      rw [Table.mem_findMany, beq_iff_eq, List.contains_iff_mem]
      constructor
      · rintro ⟨⟨hmem, -⟩, he⟩
        exact ⟨hmem, he⟩
      · rintro ⟨hmem, rfl⟩
        exact ⟨⟨hmem, hin⟩, rfl⟩
    simp only [Option.filter_some, List.contains_iff_mem, hiff]

theorem found_ordered (dto : SearchUsersDto) : Paging.Ordered (listKey ids)
    (db.profiles.findMany fun p => matchesQuery fold db dto.q p &&
      userIdMatches ids u dto.cursor p) (dto.found ids fold u db) where
  perm := List.perm_insertionSort ..
  sorted := by
    have : Std.Total fun a b : Profile => ids.place a.userId ≤ ids.place b.userId :=
      ⟨fun a b => le_total (ids.place a.userId) (ids.place b.userId)⟩
    have : IsTrans Profile fun a b => ids.place a.userId ≤ ids.place b.userId :=
      ⟨fun _ _ _ h h' => h.trans h'⟩
    exact List.pairwise_insertionSort ..

theorem search_eq (hlimit : 0 < limit) (cursor : Option String)
    (hstorable : SearchUsersDto.storable { q, cursor, limit := some limit } = true) :
    let dto : SearchUsersDto := { q, cursor, limit := some limit }
    (search ids fold db u dto).map (fun p => (p.items, p.nextCursor)) =
      .ok (Paging.reply limit (publicUser db) (·.userId)
        (dto.found ids fold u db)) := by
  intro dto
  unfold search searchPage Paging.reply
  rw [if_pos hstorable]
  generalize SearchUsersDto.found ids fold _ u db = found
  have hitems : ∀ page : List Profile, (page.map fun p => ⟨p.userId, p.nickname,
      Rooms.avatarUrl (MediaService.resolveAvatarUrls db (avatarIds page)) p.avatarMediaId⟩) =
      page.map (publicUser db) := by
    intro page
    refine List.map_congr_left fun p hp => ?_
    rw [publicUser, avatarUrl_of_page hp]
  have hsize : dto.limit.getD 50 = limit := rfl
  simp only [hsize, Paging.page_take, Paging.more_take, hitems]
  by_cases hmore : limit < found.length
  · rw [if_pos hmore, if_pos hmore]
    obtain ⟨last, hlast⟩ := Paging.exists_last hlimit hmore
    rw [hlast]
    rfl
  · rw [if_neg hmore, if_neg hmore]
    rfl

/-- A cursor leads to those after it, the requester still being excluded. -/
theorem serves_search (hlimit : 0 < limit) (hq : storable q = true)
    (hids : ∀ r ∈ db.users.rows, r.id ≠ "" ∧ storable r.id = true) :
    Paging.Serves limit (listKey ids) (publicUser db) (·.userId)
      (candidates fold db u q) fun _ cursor =>
        (search ids fold db u { q, cursor, limit := some limit }).map
          fun p => (p.items, p.nextCursor) where
  first _ := ⟨_, found_ordered { q, limit := some limit },
    search_eq hlimit none (by simp [SearchUsersDto.storable, hq, truthy])⟩
  next _ x hx := by
    obtain ⟨-, -, -, ⟨r, hr, hid, -⟩, -⟩ := mem_candidates.1 hx
    have htruthy : truthy (some x.userId) = some x.userId := truthy_some (hid ▸ (hids r hr).1)
    have hcursor : storable x.userId = true := hid ▸ (hids r hr).2
    have hrows : (db.profiles.findMany fun p => matchesQuery fold db q p &&
        userIdMatches ids u (some x.userId) p) = (candidates fold db u q).filter
          fun p => decide (listKey ids p < listKey ids x) := by
      rw [candidates, Table.findMany, Table.findMany, List.filter_filter]
      refine List.filter_congr fun p _ => ?_
      rw [Bool.eq_iff_iff]
      simp only [userIdMatches, htruthy, listKey, Bool.and_eq_true, decide_eq_true_eq,
        OrderDual.toDual_lt_toDual]
      tauto
    refine ⟨_, ?_, search_eq hlimit (some x.userId)
      (by simp [SearchUsersDto.storable, hq, htruthy, hcursor])⟩
    rw [← hrows]
    exact found_ordered { q, cursor := some x.userId, limit := some limit }

/-- A client that follows `nextCursor` finds those whose nickname `ILIKE` matches. -/
theorem finds_matching (hlimit : 1 ≤ limit) (hq : storable q = true)
    (hids : ∀ r ∈ db.users.rows, r.id ≠ "" ∧ storable r.id = true) :
    FindsAll ids fold (fun nickname => fold.ilike nickname q = true) db u q limit := by
  have hserves : Paging.Serves limit (listKey ids) (publicUser db) (·.userId)
      (candidates fold db u q) _ := serves_search hlimit hq hids
  obtain ⟨n, picked, hdone, hsorted, -, hperm⟩ := hserves.reads hlimit
  have hnodup := @candidates_nodup fold db u q
  have hkeys : ((candidates fold db u q).map (listKey ids)).Nodup := by
    have h := hnodup.map (OrderDual.toDual.injective.comp ids.inj)
    rwa [List.map_map] at h
  have hall := hperm.2 (Paging.aligned_of_nodup hkeys)
  have hitems : (picked.map (publicUser db)).map (·.id) = picked.map (·.userId) := by
    rw [List.map_map]
    rfl
  have honce : (picked.map (·.userId)).Nodup := (hall.map _).nodup_iff.2 hnodup
  refine ⟨n, _, hdone, fun userId => ?_, hitems ▸ honce, ?_⟩
  · rw [hitems, (hall.map _).mem_iff, List.mem_map]
    constructor
    · rintro ⟨p, hp, rfl⟩
      obtain ⟨hp, hname, honboarded, hactive, hne⟩ := mem_candidates.1 hp
      exact ⟨hne, hactive, p, hp, rfl, honboarded, hname⟩
    · rintro ⟨hne, hactive, p, hp, rfl, honboarded, hname⟩
      exact ⟨p, mem_candidates.2 ⟨hp, hname, honboarded, hactive, hne⟩, rfl⟩
  · rw [List.pairwise_map]
    refine hsorted.imp₂ (fun a b hle hne => ?_) (List.pairwise_map.1 honce)
    exact lt_of_le_of_ne hle fun he => hne (ids.inj he)

/-! ## What was asked for -/

/-- The nickname contains the keyword, whatever the case. -/
def Folding.contains (fold : Folding) (nickname q : String) : Prop :=
  q.toList.map fold.lower <:+: nickname.toList.map fold.lower

/-- A keyword that stands for itself. -/
def literal (q : String) : Bool := storable q && !q.toList.any Like.special

theorem literal_iff : literal q = true ↔ storable q = true ∧ q.toList.any Like.special = false := by
  simp [literal]

theorem ilike_eq (nickname : String) : fold.ilike nickname q =
    Like.like (nickname.toList.map fold.lower) ('%' :: (q.toList.map fold.lower ++ ['%'])) := by
  rw [Folding.ilike, List.map_cons, List.map_append, List.map_singleton, fold.keeps.kept '%' rfl]

theorem ilike_of_literal (hq : literal q = true) (nickname : String) :
    fold.ilike nickname q = true ↔ fold.contains nickname q := by
  rw [ilike_eq]
  exact Like.like_between ((fold.keeps.any_special _).trans (literal_iff.1 hq).2) _

/-- Two answers to one question. -/
theorem asked_of_finds {asked asked' : String → Prop} (h : FindsAll ids fold asked db u q limit)
    (h' : FindsAll ids fold asked' db u q limit) {p : Profile} (hp : p ∈ db.profiles.rows)
    (hne : p.userId ≠ u) (hactive : ∃ r ∈ db.users.rows, r.id = p.userId ∧ r.status = .ACTIVE)
    (honboarded : p.onboardedAt.isSome = true) (hasked : asked p.nickname) :
    asked' p.nickname := by
  obtain ⟨n, items, hdone, hall, -⟩ := h
  obtain ⟨n', items', hdone', hall', -⟩ := h'
  have hitems : items' = items := Except.ok.inj (Paging.follow_unique hdone' hdone)
  subst hitems
  have hmem := (hall p.userId).2 ⟨hne, hactive, p, hp, rfl, honboarded, hasked⟩
  obtain ⟨-, -, p', hp', hid, -, hasked'⟩ := (hall' p.userId).1 hmem
  have hsame : p' = p := by
    refine Table.unique db.profiles hp' hp (c := ()) (by simp [Row.constraints]) ?_
    simp [Row.clash, hid]
  exact hsame ▸ hasked'

/-- A keyword the database does not take finds nobody, nor that there is nobody. -/
theorem not_finds_of_unstorable (hq : storable q = false) {asked : String → Prop} :
    ¬ FindsAll ids fold asked db u q limit := by
  rintro ⟨n, items, hdone, -⟩
  have hrefused : searching ids fold db u q limit 1 = .done (.error .invalidValue) := by
    simp [searching, Paging.follow, search, SearchUsersDto.storable, hq, Except.map,
      Paging.Reader.turn]
  cases Paging.follow_unique hdone hrefused

/-- The users `a` and `b`, of whom `b` is called `nickname`. -/
def usersNamed (nickname : String) : Db where
  users := usersAB
  profiles := ⟨[⟨"b", nickname, none, none, some 0⟩], List.pairwise_singleton ..⟩

theorem usersAB_ids : ∀ r ∈ usersAB.rows, r.id ≠ "" ∧ storable r.id = true := by decide

theorem usersAB_b : ∃ r ∈ usersAB.rows, r.id = "b" ∧ r.status = .ACTIVE := by decide

/-- `a` is shown `b`, if `ILIKE` matches him, and has to have asked for him. -/
theorem contains_of_finds (hq : storable q = true) {nickname : String}
    (h : FindsAll ids fold (fold.contains · q) (usersNamed nickname) "a" q 1)
    (hlike : fold.ilike nickname q = true) : fold.contains nickname q :=
  asked_of_finds (finds_matching (Nat.le_refl 1) hq usersAB_ids) h
    (p := ⟨"b", nickname, none, none, some 0⟩) (List.mem_singleton_self _)
    (show "b" ≠ "a" by decide) usersAB_b rfl hlike

/-- **User search finds what was asked for.** A client that follows `nextCursor` from the start gets
to the end, and has then got exactly the others who are active and onboarded and whose nickname
contains the keyword, each once, in the order of the ids, on every database if and only if the
keyword has none of `%`, `_` and `\`, and no U+0000. -/
theorem search_exact_iff {κ : Type} [LinearOrder κ] (ids : Collation κ) (fold : Folding)
    (q : String) : (∀ (db : Db) (requesterId : String) (limit : Nat), 1 ≤ limit →
      (∀ r ∈ db.users.rows, r.id ≠ "" ∧ storable r.id = true) →
      FindsAll ids fold (fold.contains · q) db requesterId q limit) ↔ literal q = true := by
  constructor
  · intro h
    have hstorable : storable q = true := by
      by_contra hno
      exact not_finds_of_unstorable (Bool.eq_false_iff.2 hno)
        (h (usersNamed "") "a" 1 (Nat.le_refl 1) usersAB_ids)
    refine literal_iff.2 ⟨hstorable, ?_⟩
    by_contra hspecial
    obtain ⟨s, hlike, hno⟩ := fold.keeps.exists_like (Bool.eq_true_of_not_eq_false hspecial)
    have hcontains : fold.contains (String.ofList s) q :=
      contains_of_finds hstorable (h _ "a" 1 (Nat.le_refl 1) usersAB_ids)
        (by rw [ilike_eq]; simpa using hlike)
    exact hno (by simpa [Folding.contains] using hcontains)
  · intro hq db requesterId limit hlimit hids
    have hfinds : FindsAll ids fold _ db requesterId q limit :=
      finds_matching hlimit (literal_iff.1 hq).1 hids
    simpa only [ilike_of_literal hq] using hfinds

end Search

/-! ### A keyword that stands for others -/

/-- The order of the collation `C`. -/
def byteOrder : Collation String := ⟨id, Function.injective_id⟩

theorem toLower_cases (c : Char) :
    c.toLower = c ∨ 97 ≤ c.toLower.toNat ∧ c.toLower.toNat ≤ 122 := by
  unfold Char.toLower
  split
  · rename_i h
    have hlow : 65 ≤ c.val.toNat := UInt32.le_iff_toNat_le.1 h.1
    have hhigh : c.val.toNat ≤ 90 := UInt32.le_iff_toNat_le.1 h.2
    have hshift : ('a'.val - 'A'.val).toNat = 32 := rfl
    right
    simp only [Char.toNat, UInt32.toNat_add]
    omega
  · exact .inl rfl

/-- What `lower` makes of ASCII. -/
def ascii : Folding where
  lower := Char.toLower
  keeps :=
    { kept := fun c hc => by
        simp only [Like.special, Bool.or_eq_true, beq_iff_eq] at hc
        rcases hc with (rfl | rfl) | rfl <;> rfl
      made := fun c hc => by
        rcases toLower_cases c with h | h
        · rwa [h] at hc
        · simp only [Like.special, Bool.or_eq_true, beq_iff_eq] at hc
          rcases hc with (hc | hc) | hc <;> rw [hc] at h <;> exact absurd h (by decide) }

/-- **An underscore finds everybody.** -/
theorem search_underscore : ¬ FindsAll byteOrder ascii (ascii.contains · "_")
    (usersNamed "Jimin") "a" "_" 1 := by
  intro h
  have hcontains := contains_of_finds (by decide) h (by decide)
  exact absurd hcontains (by unfold Folding.contains; decide)

end Intaktok.UsersService
