import Intaktok.Messages.History
import Intaktok.Rooms.Ownership
/-
# How many have not read a message

`listMessages` counts the active members other than the sender who have read a message, and clients
are told (`README.md`, sections 5 and 6) to take that from the number of active members less one.
The one is the sender: where he is no active member any more, the result is one less than the
number of those who have not read it (`unread_by`), and less than nothing if all have
(`unread_by_nobody`).
-/

namespace Intaktok.Messages

open Interleave Tables Rooms

/-- The active members of a room. -/
def activeMembers (db : Db) (roomId : String) : List RoomMember :=
  db.roomMembers.findMany fun m => m.roomId == roomId && m.leftAt.isNone

/-- What a client shows as the number of those who have not read the message. -/
def shownUnread (db : Db) (roomId : String) (x : ListedMessage) : Int :=
  ((activeMembers db roomId).length : Int) - 1 - x.readCount

/-- The active members other than the sender who have not read it. -/
def unreadBy (db : Db) (roomId : String) (x : ListedMessage) : List RoomMember :=
  (activeMembers db roomId).filter fun m => m.userId != x.senderId && decide (m.lastReadSeq < x.seq)

section Count
variable {db : Db} {r : String}

theorem mem_activeMembers {m : RoomMember} {u : String} :
    m ∈ activeMembers db r ∧ m.userId = u ↔ crew db.roomMembers r u = some m := by
  rw [crew_eq_some, activeMembers, Table.mem_findMany]
  simp only [Bool.and_eq_true, beq_iff_eq, Option.isNone_iff_eq_none]
  tauto

theorem activeMembers_nodup : (activeMembers db r).Nodup := by
  refine List.Nodup.of_map (·.userId) ?_
  refine Table.nodup_findMany (c := ()) (by simp [Row.constraints]) fun a b ha hb he => ?_
  simp only [Bool.and_eq_true, beq_iff_eq] at ha hb
  simp [Row.clash, ha.1, hb.1, he]

/-- A user is active at most once. -/
theorem countP_active (u : String) :
    (activeMembers db r).countP (fun m => m.userId == u) =
      if (crew db.roomMembers r u).isSome then 1 else 0 := by
  cases hc : crew db.roomMembers r u with
  | none =>
    refine List.countP_eq_zero.2 fun m hm hu => ?_
    rw [mem_activeMembers.1 ⟨hm, by simpa using hu⟩] at hc
    cases hc
  | some m =>
    obtain ⟨hm, hmu⟩ := mem_activeMembers.2 hc
    have hsame : ∀ x ∈ activeMembers db r, (x.userId == u) = (x == m) := by
      intro x hx
      rw [Bool.eq_iff_iff, beq_iff_eq, beq_iff_eq]
      constructor
      · intro hxu
        have hxc := mem_activeMembers.1 ⟨hx, hxu⟩
        rw [hc] at hxc
        exact (Option.some.inj hxc).symm
      · rintro rfl
        exact hmu
    rw [List.countP_congr fun x hx => by rw [hsame x hx]]
    exact List.count_eq_one_of_mem activeMembers_nodup hm

/-- Who is active is the sender, has read the message, or has not. -/
theorem active_split (m : Message) :
    (activeMembers db r).length =
      (activeMembers db r).countP (fun mem => mem.userId == m.senderId) +
      readCount (activeMembers db r) m +
      (unreadBy db r (listed (activeMembers db r) m)).length := by
  have hseq : (listed (activeMembers db r) m).seq = m.seq := rfl
  have hsender : (listed (activeMembers db r) m).senderId = m.senderId := rfl
  rw [readCount, unreadBy, hseq, hsender, ← List.countP_eq_length_filter,
    ← List.countP_eq_length_filter]
  generalize activeMembers db r = members
  induction members with
  | nil => rfl
  | cons x members ih =>
    simp only [List.length_cons, List.countP_cons, ih]
    by_cases hx : x.userId = m.senderId
    · simp [hx]
      omega
    · by_cases hread : m.seq ≤ x.lastReadSeq
      · have hnot : ¬ x.lastReadSeq < m.seq := Nat.not_lt.2 hread
        simp [hx, hread, hnot]
        omega
      · have hlt : x.lastReadSeq < m.seq := Nat.lt_of_not_le hread
        simp [hx, hread, hlt]
        omega

/-- The documented number is right where the sender is an active member, else one too low. -/
theorem shownUnread_listed (m : Message) :
    shownUnread db r (listed (activeMembers db r) m) =
      (unreadBy db r (listed (activeMembers db r) m)).length -
        if (crew db.roomMembers r m.senderId).isSome then 0 else 1 := by
  have hsplit : (activeMembers db r).length = _ := active_split m
  rw [countP_active] at hsplit
  have hread : (listed (activeMembers db r) m).readCount = readCount (activeMembers db r) m := rfl
  rw [shownUnread, hread]
  split at hsplit <;> simp only [*] <;> push_cast <;> simp <;> omega

end Count

/-! ## What the client shows -/

/-- An answer lists rows it has found, counted over the members it reads last. -/
theorem listStep_items {other : String → Numeric} {r : String} {cursor : Option String}
    {limit : Nat} {w : World} {rows : List Message} {page : Paginated ListedMessage}
    (h : listStep other r cursor limit w (.members rows) = some (.done (.ok page))) :
    ∀ x ∈ page.items, ∃ m ∈ rows, x = listed (activeMembers w.db r) m := by
  have hpage : listPage limit rows (activeMembers w.db r) = .ok page := by
    simpa [listStep, activeMembers] using h
  have hitems : page.items = (Paging.page limit rows).map (listed (activeMembers w.db r)) := by
    dsimp only [listPage] at hpage
    split at hpage
    · split at hpage
      · obtain rfl := Except.ok.inj hpage
        rfl
      · cases hpage
    · obtain rfl := Except.ok.inj hpage
      rfl
  have hsub : Paging.page limit rows ⊆ rows := by
    unfold Paging.page
    split
    · exact List.take_subset _ _
    · exact List.Subset.refl _
  intro x hx
  rw [hitems, List.mem_map] at hx
  obtain ⟨m, hm, rfl⟩ := hx
  exact ⟨m, hsub hm, rfl⟩

/-- **The documented number of those who have not read a message.** For every message of an answer
it is right exactly if the sender is an active member when the members are read. -/
theorem unread_by (other : String → Numeric) (r : String) (cursor : Option String) (limit : Nat)
    (w : World) (rows : List Message) (page : Paginated ListedMessage)
    (hpage : listStep other r cursor limit w (.members rows) = some (.done (.ok page)))
    (x : ListedMessage) (hx : x ∈ page.items) :
    shownUnread w.db r x = (unreadBy w.db r x).length ↔
      (crew w.db.roomMembers r x.senderId).isSome = true := by
  obtain ⟨m, -, rfl⟩ := listStep_items hpage x hx
  have hsender : (listed (activeMembers w.db r) m).senderId = m.senderId := rfl
  rw [shownUnread_listed, hsender]
  by_cases hc : (crew w.db.roomMembers r m.senderId).isSome = true
  · rw [if_pos hc]
    simp [hc]
  · rw [if_neg hc]
    constructor
    · intro he
      omega
    · intro hs
      exact absurd hs hc

/-- `b` has not read the message of `a`. -/
theorem unread_by_b :
    let w := worldR1 ⟨[messageR1 "m1" 1], by decide⟩
    shownUnread w.db "r1" (listed (activeMembers w.db "r1") (messageR1 "m1" 1)) = 1 := by
  intro w
  let page : Paginated ListedMessage :=
    ⟨[listed (activeMembers w.db "r1") (messageR1 "m1" 1)], none⟩
  have hpage : listStep (fun _ => .notFinite) "r1" none 50 w (.members [messageR1 "m1" 1]) =
      some (.done (.ok page)) := by rfl
  exact (unread_by _ "r1" none 50 w _ page hpage _ (List.mem_singleton_self _)).2 (by decide)

/-! ### The notice of a departure -/

/-- The answer of `listMessages` in one state. -/
def answer (other : String → Numeric) (r : String) (cursor : Option String) (limit : Nat)
    (w : World) : Option (List Message × Paginated ListedMessage) :=
  match listStep other r cursor limit w .rows with
  | some (.members rows) => match listStep other r cursor limit w (.members rows) with
    | some (.done (.ok page)) => some (rows, page)
    | _ => none
  | _ => none

theorem answer_eq_some {other : String → Numeric} {r : String} {cursor : Option String}
    {limit : Nat} {w : World} {x : List Message × Paginated ListedMessage}
    (h : answer other r cursor limit w = some x) :
    listStep other r cursor limit w .rows = some (.members x.1) ∧
      listStep other r cursor limit w (.members x.1) = some (.done (.ok x.2)) := by
  unfold answer at h
  split at h
  · rename_i rows hrows
    split at h
    · rename_i page hpage
      cases h
      exact ⟨hrows, hpage⟩
    · cases h
  · cases h

/-- `b` leaves the group, and `a` reads that he has. -/
def leaveAndRead : Bool → ChatCall
  | false => .inr (.inl (.removeMember "r1" "b" "b"))
  | true => .inl (.markRead (.str "r1") (.str "a") (.int 1))

/-- **One less than nobody.** `b` has left, the message that says so is his, and `a` has read it. -/
theorem unread_by_nobody : ¬ ∀ (ι : Type) [DecidableEq ι] (cfg : AppConfig) (json : Json)
    (calls : ι → ChatCall) (w : World) (P : Pool World ChatPc ι),
    Run (chat cfg json) Discipline.free calls ((chat cfg json).initial calls w) P →
    ∀ (other : String → Numeric) (r : String) (cursor : Option String) (limit : Nat)
      (rows : List Message) (page : Paginated ListedMessage),
      listStep other r cursor limit P.shared .rows = some (.members rows) →
      listStep other r cursor limit P.shared (.members rows) = some (.done (.ok page)) →
      ∀ x ∈ page.items, 0 ≤ shownUnread P.shared.db r x ∧
        shownUnread P.shared.db r x = (unreadBy P.shared.db r x).length := by
  intro h
  have hexec : ((chat {} noJson).exec always leaveAndRead
      ((chat {} noJson).initial leaveAndRead groupR1)
      (turns false 8 ++ announce false "m1" 3 ++ turns true 2)).any (fun P =>
        (answer (fun _ => .notFinite) "r1" none 50 P.shared).any fun found =>
          found.2.items.any fun x => decide (shownUnread P.shared.db "r1" x < 0)) = true := by
    decide
  obtain ⟨P, hrun, hP⟩ := Machine.exec_reaches_free hexec
  obtain ⟨found, hfound, hany⟩ := (Option.any_eq_true _ _).1 hP
  obtain ⟨x, hx, hneg⟩ := List.any_eq_true.1 hany
  obtain ⟨hrows, hpage⟩ := answer_eq_some hfound
  have hle := (h Bool {} noJson leaveAndRead groupR1 P hrun _ "r1" none 50 _ _ hrows hpage x hx).1
  exact absurd hle (by simpa using hneg)

end Intaktok.Messages
