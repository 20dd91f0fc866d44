import Intaktok.Rooms.Notices
import Intaktok.Rooms.Unread
/-
# Do read positions only advance?

`markRead` compares within its update. `addMembers` does not: it writes to a departed user's row the
newest number it has read (`rooms.service.ts:287`), from a look at the memberships some awaits ago
(`:293`). If nothing moves the user past that number meanwhile, his position never decreases
(`positions_advance`); another `addMembers` that takes him back in, and a `markRead` of his own, can
(`position_lost`).
-/

namespace Intaktok.Rooms

open Interleave Tables Messages

/-- How far a user has read in a room. -/
def position (t : Table RoomMember) (r u : String) : Option Nat :=
  (row t r u).map (·.lastReadSeq)

/-- A loop of `addMembers` that has found `u` departed, and is to write `n` as his position. -/
def Pc.Returns (u : String) (n : Nat) : Pc → Prop
  | .write n' found todo _ => n' = n ∧ u ∈ todo ∧ ∃ m ∈ found, m.userId = u ∧ m.leftAt ≠ none
  | _ => False

/-- The same for a request to the room `r`. -/
def Returns (r u : String) (n : Nat) : ChatCall → ChatPc → Prop
  | .inr (.inl (.addMembers roomId _ _)), .inr (.inl pc) => roomId = r ∧ pc.Returns u n
  | _, _ => False

/-- The next action stores `n` as the position of `u` in `r`. -/
def Stores (r u : String) (n : Nat) : ChatCall → World → ChatPc → Prop
  | .inl (.markRead roomId userId (.int k)), w, .inl (.read .update) => k.toNat = n ∧
      advances roomId userId w.db (.int k) = true ∧
      (row w.db.roomMembers r u).any (reads roomId userId n) = true
  | .inr (.inl (.addMembers roomId _ _)), _, .inr (.inl (.write head existing (userId :: _) _)) =>
      roomId = r ∧ userId = u ∧ head = n ∧ existing.any (·.userId == u) = true
  | _, _, _ => False

/-- When an `addMembers` looks at the memberships, a departed user it is to add has not read past
the number it has read. -/
def FoundBehind (r u : String) : ChatCall → World → ChatPc → Prop
  | .inr (.inl (.addMembers roomId _ userIds)), w, .inr (.inl (.existing head)) =>
      roomId = r → u ∈ userIds → ∀ m, row w.db.roomMembers r u = some m → m.leftAt ≠ none →
        m.lastReadSeq ≤ head
  | _, _, _ => True

/-- From its look at the newest number until it writes a departed user's row, nothing moves that
user past this number. -/
def Unovertaken (r u : String) : Discipline World ChatCall ChatPc where
  alone := FoundBehind r u
  beside k w pc k₂ pc₂ := ∀ n n₂, Stores r u n k w pc → Returns r u n₂ k₂ pc₂ → n ≤ n₂

/-! ## What a write does to a position -/

section Writes
variable {t t' : Table RoomMember} {r u : String} {n : Nat}

theorem position_updateMember {r' u' : String} {d : MemberData}
    (h : updateMember t r' u' d = some t') (hd : d.lastReadSeq = none) :
    position t' r u = position t r u := by
  unfold position
  rw [row, find_updateMember h]
  split
  · rename_i hk
    obtain ⟨rfl, rfl⟩ := hk
    rw [Option.map_map]
    refine Option.map_congr fun m _ => ?_
    simp [MemberData.apply, hd]
  · rfl

theorem position_setRole {r' a u' : String} {role : MemberRole}
    (h : setRole t r' a u' role = some t') : position t' r u = position t r u := by
  obtain ⟨t₁, h₁, h₂⟩ := Option.bind_eq_some_iff.1 h
  split at h₂
  · exact (position_updateMember h₂ rfl).trans (position_updateMember h₁ rfl)
  · cases h₂
    exact position_updateMember h₁ rfl

theorem position_reactivate (r' : String) (userIds : List String) :
    position (reactivateMembers t r' userIds) r u = position t r u := by
  have hfind := Table.find_updateWhere t
    (fun m => m.roomId == r' && userIds.contains m.userId && m.leftAt.isSome) (isMember r u)
    ({ leftAt := some none : MemberData }).apply (fun _ _ _ => rfl) fun _ => rfl
  refine (congrArg (Option.map (·.lastReadSeq)) hfind).trans ?_
  rw [Option.map_map]
  refine Option.map_congr fun m _ => ?_
  simp only [Function.comp_apply]
  split <;> rfl

theorem position_setLastReadSeq (p : RoomMember → Bool) (k : Nat) :
    position (setLastReadSeq t p k) r u =
      (row t r u).map fun m => if p m then k else m.lastReadSeq := by
  have hfind := Table.find_updateWhere t p (isMember r u)
    (fun m => { m with lastReadSeq := k }) (fun _ _ _ => rfl) fun _ => rfl
  refine (congrArg (Option.map fun m : RoomMember => m.lastReadSeq) hfind).trans ?_
  rw [Option.map_map]
  refine Option.map_congr fun m _ => ?_
  simp only [Function.comp_apply]
  split <;> rfl

theorem position_append {ms : List RoomMember} (h : t'.rows = t.rows ++ ms)
    (hn : position t r u = some n) : position t' r u = some n := by
  obtain ⟨m, hm, rfl⟩ := Option.map_eq_some_iff.1 hn
  have hm' : row t' r u = some m := by
    rw [row, find_isMember] at hm ⊢
    exact ⟨h ▸ List.mem_append_left _ hm.1, hm.2⟩
  rw [position, hm']
  rfl

/-- A join stores the head it comes with, if it finds a row. -/
theorem position_joinMember {r' u' : String} {head : Nat} {existing : List RoomMember} {w : World}
    (h : joinMember r' u' head existing w = .ok t') (hn : position w.db.roomMembers r u = some n) :
    ∃ n', position t' r u = some n' ∧
      (n' = n ∨ r' = r ∧ u' = u ∧ head = n' ∧ existing.any (·.userId == u) = true) := by
  simp only [joinMember] at h
  split at h
  · rename_i hex
    split at h <;> cases h
    rename_i hu
    by_cases hk : r = r' ∧ u = u'
    · obtain ⟨rfl, rfl⟩ := hk
      obtain ⟨m, hm, -⟩ := Option.map_eq_some_iff.1 hn
      refine ⟨head, ?_, .inr ⟨rfl, rfl, rfl, hex⟩⟩
      rw [position, row, find_updateMember hu, if_pos ⟨rfl, rfl⟩]
      rw [row] at hm
      rw [hm]
      rfl
    · refine ⟨n, ?_, .inl rfl⟩
      rw [position, row, find_updateMember hu, if_neg hk]
      exact hn
  · split at h
    · cases h
    · rename_i hi
      split at h <;> cases h
      exact ⟨n, position_append (Table.insert_ok hi).2 hn, .inl rfl⟩

theorem position_newRoom {room : Room} {ms : List RoomMember} {w w' : World}
    (h : insertRoom room ms w = .ok w') (hn : position w.db.roomMembers r u = some n) :
    position w'.db.roomMembers r u = some n := by
  obtain ⟨rooms, roomMembers, -, hrows, rfl⟩ := insertRoom_ok h
  exact position_append (insertMembers_ok hrows) hn

end Writes

/-! ## What an action does to a position -/

section Step
variable {cfg : AppConfig} {json : Json} {c : Choice} {w w' : World} {r u : String} {n : Nat}

theorem position_read {roomId userId : WhereString} {k : JsNumber} {pc pc' : ReadPc}
    (h : readStep roomId userId k w pc = some (w', pc'))
    (hn : position w.db.roomMembers r u = some n) :
    ∃ n', position w'.db.roomMembers r u = some n' ∧
      (n' = n ∨ Stores r u n' (.inl (.markRead roomId userId k)) w (.inl (.read pc))) := by
  cases pc <;> simp only [readStep] at h
  case update =>
    split at h
    · cases h; exact ⟨n, hn, .inl rfl⟩
    · rename_i k
      split at h
      · cases h; exact ⟨n, hn, .inl rfl⟩
      · rename_i hvalid
        split at h
        · rename_i hany
          cases h
          obtain ⟨m, hm, rfl⟩ := Option.map_eq_some_iff.1 hn
          have hadv : advances roomId userId w.db (.int k) = true := by
            simp only [advances, Bool.and_eq_true, Bool.not_eq_true']
            exact ⟨by simpa using hvalid, hany⟩
          have hrow : row w.db.roomMembers r u = some m := hm
          refine ⟨_, (position_setLastReadSeq _ _).trans (congrArg _ hrow), ?_⟩
          dsimp only
          split
          · rename_i hreads
            exact .inr ⟨rfl, hadv, by rw [hrow]; exact hreads⟩
          · exact .inl rfl
        · cases h; exact ⟨n, hn, .inl rfl⟩
  case members l => cases h; exact ⟨n, hn, .inl rfl⟩
  case done x => cases h

theorem stores_of_acts {call : Call} {pc pc' : Pc} (h : Acts c call w pc w' pc')
    (hn : position w.db.roomMembers r u = some n) :
    ∃ n', position w'.db.roomMembers r u = some n' ∧
      (n' = n ∨ Stores r u n' (.inr (.inl call)) w (.inr (.inl pc))) := by
  have same : ∃ n', position w.db.roomMembers r u = some n' ∧
      (n' = n ∨ Stores r u n' (.inr (.inl call)) w (.inr (.inl pc))) := ⟨n, hn, .inl rfl⟩
  cases call with
  | createRoom creatorId dto =>
    cases h with
    | insertedDirect _ _ _ _ hins => exact ⟨n, position_newRoom hins hn, .inl rfl⟩
    | insertedGroup _ _ _ _ hins => exact ⟨n, position_newRoom hins hn, .inl rfl⟩
    | reactivated => exact ⟨n, (position_reactivate _ _).trans hn, .inl rfl⟩
    | _ => exact same
  | addMembers roomId a userIds =>
    cases h with
    | joined hj =>
      obtain ⟨n', hn', hor⟩ := position_joinMember hj hn
      exact ⟨n', hn', hor⟩
    | _ => exact same
  | updateMemberRole roomId a t role =>
    cases h with
    | set hs => exact ⟨n, (position_setRole hs).trans hn, .inl rfl⟩
    | _ => exact same
  | removeMember roomId a t =>
    cases h with
    | left hu => exact ⟨n, (position_updateMember hu rfl).trans hn, .inl rfl⟩
    | promoted hu => exact ⟨n, (position_updateMember hu rfl).trans hn, .inl rfl⟩
    | _ => exact same

/-- Who has a position keeps it, but for an action that stores one. -/
theorem position_step {k : ChatCall} {pc pc' : ChatPc}
    (h : (chat cfg json).step c k w pc = some (w', pc'))
    (hn : position w.db.roomMembers r u = some n) :
    ∃ n', position w'.db.roomMembers r u = some n' ∧ (n' = n ∨ Stores r u n' k w pc) := by
  have kept : w'.db.roomMembers = w.db.roomMembers →
      ∃ n', position w'.db.roomMembers r u = some n' ∧ (n' = n ∨ Stores r u n' k w pc) :=
    fun he => ⟨n, he ▸ hn, .inl rfl⟩
  cases acts_of_chat h with
  | create hc => exact kept (kept_of_createActs hc).members
  | read hr => exact position_read hr hn
  | delete hd =>
    obtain ⟨⟨messages, hdb⟩, -⟩ := deleteStep_db hd
    exact kept (by rw [hdb])
  | room hr =>
    rcases step_cases hr with ⟨-, -, hk⟩ | hacts
    · exact kept hk.members
    · exact stores_of_acts hacts hn
  | update hup =>
    cases acts_of_updateRoom hup with
    | after ht => exact kept (tail_step ht).1.members
    | _ => exact kept rfl

end Step

/-! ## Nobody is overtaken -/

/-- What a request to add `u` knows of his position. -/
structure Following (r u : String) (k : ChatCall) (w : World) (pc : ChatPc) : Prop where
  behind : ∀ n, Returns r u n k pc → ∃ n', position w.db.roomMembers r u = some n' ∧ n' ≤ n
  departed : ∀ roomId a userIds head existing userId todo added,
    k = .inr (.inl (.addMembers roomId a userIds)) →
    pc = .inr (.inl (.write head existing (userId :: todo) added)) →
    ∀ m ∈ existing, m.userId = userId → m.leftAt ≠ none

theorem following_of_other {r u : String} {k : ChatCall} {w : World} {pc : ChatPc}
    (h : ∀ roomId a userIds, k ≠ .inr (.inl (.addMembers roomId a userIds))) :
    Following r u k w pc where
  behind n hr := by
    unfold Returns at hr
    split at hr
    · exact absurd rfl (h _ _ _)
    · cases hr
  departed roomId a userIds head existing userId todo added hk := absurd hk (h _ _ _)

theorem following_of_not_write {r u roomId a : String} {userIds : List String} {w : World} {pc : Pc}
    (h : ∀ n existing todo added, pc ≠ .write n existing todo added) :
    Following r u (.inr (.inl (.addMembers roomId a userIds))) w (.inr (.inl pc)) where
  behind n hr := by
    obtain ⟨-, hr⟩ := hr
    unfold Pc.Returns at hr
    split at hr
    · exact absurd rfl (h _ _ _ _)
    · cases hr
  departed _ _ _ head existing userId todo added _ he :=
    absurd (Sum.inl.inj (Sum.inr.inj he)) (h _ _ _ _)

section Following
variable {json : Json} {w w' : World} {r u : String} {n : Nat}

theorem returns_nextWrite {a : String} {head : Nat} {existing : List RoomMember}
    {todo added : List String} (h : (nextWrite json r a head existing todo added).Returns u n) :
    head = n ∧ u ∈ todo ∧ ∃ m ∈ existing, m.userId = u ∧ m.leftAt ≠ none := by
  unfold nextWrite at h
  split at h
  · rename_i hdone
    generalize (if added.isEmpty then [Task.view a] else _) = tasks at h
    cases tasks <;> cases h
  · obtain ⟨hhead, hu, hm⟩ := h
    exact ⟨hhead, (List.dropWhile_sublist _).subset hu, hm⟩

/-- A loop that starts has found `u` departed, and one that goes on was about to write his row. -/
theorem returns_addStep {a : String} {userIds : List String} {pc pc' : Pc}
    (h : addStep json r a userIds w pc = some (w', pc')) (hr : pc'.Returns u n) :
    (pc = .existing n ∧ u ∈ userIds ∧ ∃ m, row w.db.roomMembers r u = some m ∧ m.leftAt ≠ none) ∨
      pc.Returns u n := by
  have hfail : ∀ {α : Type} {x : Except AppException α} {next : α → Pc},
      (∀ a, ¬ (next a).Returns u n) → ¬ (orFail x next).Returns u n := by
    intro α x next hnext
    cases x with
    | ok a => exact hnext a
    | error e => exact id
  cases pc <;> simp only [addStep] at h
  case guard => cases h; exact absurd hr (hfail fun _ => id)
  case room role => cases h; exact absurd hr (hfail fun _ => hfail fun _ => id)
  case activeUsers => cases h; exact absurd hr (hfail fun _ => id)
  case head => cases h; cases hr
  case existing head =>
    cases h
    obtain ⟨rfl, -, m, hm, rfl, hl⟩ := returns_nextWrite hr
    simp only [Table.mem_findMany, Bool.and_eq_true, beq_iff_eq, List.contains_iff_mem] at hm
    exact .inl ⟨rfl, hm.2.2, m, find_isMember.2 ⟨hm.1, hm.2.1, rfl⟩, hl⟩
  case write head existing todo added =>
    split at h
    · cases h
    · split at h <;> cases h
      · obtain ⟨rfl, hu, hm⟩ := returns_nextWrite hr
        exact .inr ⟨rfl, List.mem_cons_of_mem _ hu, hm⟩
      · cases hr
  all_goals cases h

/-- The position a request is about to store is no lower than the one that is there. -/
theorem Following.stores {k : ChatCall} {pc : ChatPc} {n' : Nat} (hf : Following r u k w pc)
    (hs : Stores r u n' k w pc) (hn : position w.db.roomMembers r u = some n) : n ≤ n' := by
  unfold Stores at hs
  split at hs
  · obtain ⟨-, -, hany⟩ := hs
    obtain ⟨m, hm, hreads⟩ := (Option.any_eq_true _ _).1 hany
    rw [position, hm] at hn
    obtain rfl := Option.some.inj hn
    simp only [reads, Bool.and_eq_true, decide_eq_true_eq] at hreads
    exact hreads.2.le
  · rename_i roomId a userIds _ head existing userId todo added
    obtain ⟨rfl, rfl, rfl, hany⟩ := hs
    obtain ⟨m, hm, hu⟩ := List.any_eq_true.1 hany
    have hu := beq_iff_eq.1 hu
    have hl := hf.departed _ _ _ _ _ _ _ _ rfl rfl m hm hu
    obtain ⟨n'', hn'', hle⟩ := hf.behind head ⟨rfl, rfl, List.mem_cons_self, m, hm, hu, hl⟩
    rw [hn] at hn''
    exact (Option.some.inj hn'') ▸ hle
  · cases hs

theorem stores_eq_returns {k : ChatCall} {pc : ChatPc} {n' : Nat} (hs : Stores r u n' k w pc)
    (hr : Returns r u n k pc) : n' = n := by
  unfold Stores at hs
  split at hs
  · cases hr
  · obtain ⟨-, -, rfl, -⟩ := hs
    exact hr.2.1
  · cases hs

theorem Following.step {cfg : AppConfig} {c : Choice} {k : ChatCall} {pc pc' : ChatPc}
    (hf : Following r u k w pc) (hb : FoundBehind r u k w pc)
    (hs : (chat cfg json).step c k w pc = some (w', pc')) : Following r u k w' pc' := by
  have hacts := acts_of_chat hs
  cases hacts with
  | @room call pc w' pc' hroom =>
    cases call with
    | addMembers roomId a userIds =>
      unfold Rooms.step at hroom
      split at hroom
      · -- a tail writes to no membership
        refine following_of_not_write fun n existing todo added he => ?_
        have hpast := (tail_step hroom).2
        rw [he] at hpast
        cases hpast
      · rename_i pc _
        refine ⟨fun n hr => ?_, ?_⟩
        · obtain ⟨rfl, hr⟩ := hr
          rcases returns_addStep hroom hr with ⟨rfl, hu, m, hm, hl⟩ | hbefore
          · cases hroom
            exact ⟨m.lastReadSeq, congrArg (Option.map _) hm, hb rfl hu m hm hl⟩
          · obtain ⟨n₀, hn₀, hle⟩ := hf.behind n ⟨rfl, hbefore⟩
            obtain ⟨n', hn', rfl | hst⟩ := position_step hs hn₀
            · exact ⟨n', hn', hle⟩
            · exact ⟨n', hn', (stores_eq_returns hst ⟨rfl, hbefore⟩).le⟩
        · intro r' a' ids head existing userId todo added _ hpc m hm hu
          obtain rfl := Sum.inl.inj (Sum.inr.inj hpc)
          have hloop : ∀ {found todo'},
              Looping found todo' (.write head existing (userId :: todo) added) →
                m.leftAt ≠ none := by
            rintro found todo' (hp | ⟨_, _, _, _, he, -, hne⟩)
            · cases hp
            · cases he
              exact hne m hm hu
          cases acts_of_addMembers hroom with
          | existing hl => exact hloop hl
          | joined hj hl => exact hloop hl
    | _ => exact following_of_other fun _ _ _ => by rintro ⟨⟩
  | _ => exact following_of_other fun _ _ _ => by rintro ⟨⟩

/-- The request of another process does not get past it. -/
theorem Following.keep {cfg : AppConfig} {c : Choice} {k k₂ : ChatCall} {pc pc' pc₂ : ChatPc}
    (hf : Following r u k₂ w pc₂)
    (hbeside : ∀ n n₂, Stores r u n k w pc → Returns r u n₂ k₂ pc₂ → n ≤ n₂)
    (hs : (chat cfg json).step c k w pc = some (w', pc')) : Following r u k₂ w' pc₂ where
  departed := hf.departed
  behind n hr := by
    obtain ⟨n₀, hn₀, hle⟩ := hf.behind n hr
    obtain ⟨n', hn', rfl | hst⟩ := position_step hs hn₀
    · exact ⟨n', hn', hle⟩
    · exact ⟨n', hn', hbeside n' n hst hr⟩

end Following

/-! ## Runs -/

section Runs
variable {ι : Type} [DecidableEq ι] {cfg : AppConfig} {json : Json} {calls : ι → ChatCall}

theorem following_start (r u : String) (k : ChatCall) (w : World) :
    Following r u k w ((chat cfg json).start k) := by
  rcases k with k | k | k
  · exact following_of_other fun _ _ _ => by rintro ⟨⟩
  · cases k with
    | addMembers roomId a userIds => exact following_of_not_write fun _ _ _ _ => by rintro ⟨⟩
    | _ => exact following_of_other fun _ _ _ => by rintro ⟨⟩
  · exact following_of_other fun _ _ _ => by rintro ⟨⟩

def followingOutline (r u : String) : Outline World ChatCall ChatPc where
  glob _ := True
  own := Following r u
  apart _ _ _ _ := True

theorem followingOutline_valid (cfg : AppConfig) (json : Json) (r u : String) :
    (followingOutline r u).Valid (chat cfg json) (Unovertaken r u) .top where
  move ha := ⟨trivial, ha.own.step ha.alone ha.step⟩
  keep ha hw := ⟨hw.own.keep hw.beside ha.step, trivial⟩
  symm _ := trivial
  env _ _ _ := ⟨trivial, fun h => ⟨h.behind, h.departed⟩⟩

theorem following_run {w : World} {r u : String} {P : Pool World ChatPc ι}
    (h : Run (chat cfg json) (Unovertaken r u) calls ((chat cfg json).initial calls w) P) (i : ι) :
    Following r u (calls i) P.shared (P.pcs i) := by
  have h0 : (followingOutline r u).Holds calls ((chat cfg json).initial calls w) :=
    ⟨trivial, fun i => following_start r u (calls i) w, fun _ _ _ => trivial⟩
  exact ((followingOutline_valid cfg json r u).run (fun _ => Outline.top_holds _ _) h0 h).own i

end Runs

/-- **Read positions only advance**, where nothing overtakes a join: between any two states of a run
the position of a user in a room does not decrease. -/
theorem positions_advance {ι : Type} [DecidableEq ι] (cfg : AppConfig) (json : Json)
    (calls : ι → ChatCall) (w : World) (r u : String) (P Q : Pool World ChatPc ι)
    (hP : Run (chat cfg json) (Unovertaken r u) calls ((chat cfg json).initial calls w) P)
    (hQ : Run (chat cfg json) (Unovertaken r u) calls P Q) (n : Nat)
    (hn : position P.shared.db.roomMembers r u = some n) :
    ∃ n', position Q.shared.db.roomMembers r u = some n' ∧ n ≤ n' := by
  induction hQ with
  | refl => exact ⟨n, hn, le_rfl⟩
  | env e _ ih => exact ih
  | @move R i c w' pc' hr ha hs ih =>
    obtain ⟨n₁, hn₁, hle⟩ := ih
    obtain ⟨n', hn', rfl | hst⟩ := position_step hs hn₁
    · exact ⟨n', hn', hle⟩
    · exact ⟨n', hn', hle.trans ((following_run (hP.trans hr) i).stores hst hn₁)⟩

/-! ### One who left comes back -/

/-- `b` has left the group `r1` of `a`, and a message says so. -/
def departedR1 : World where
  db.users := usersAB
  db.rooms := roomsR1
  db.roomMembers :=
    ⟨[{ roomId := "r1", userId := "a", role := .OWNER, joinedAt := 0 },
      { roomId := "r1", userId := "b", joinedAt := 0, leftAt := some 0 }], by decide⟩
  db.messages := ⟨[{ messageR1 "m1" 1 with senderId := "b", type := .SYSTEM }], by decide⟩

/-- `a` takes `b` back in. -/
def takeBack : ChatCall := .inr (.inl (.addMembers "r1" "a" ["b"]))

/-- `FoundBehind` for a schedule of `takeBack`. -/
def foundBehindOk (P : Pool World ChatPc Unit) : Bool :=
  match P.pcs () with
  | .inr (.inl (.existing head)) =>
    (row P.shared.db.roomMembers "r1" "b").all fun m => decide (m.lastReadSeq ≤ head)
  | _ => true

theorem foundBehindOk_allows {P : Pool World ChatPc Unit} {i : Unit}
    (h : foundBehindOk P = true) : (Unovertaken "r1" "b").allows (fun _ => takeBack) P i := by
  refine ⟨?_, fun j hj => absurd (Subsingleton.elim j i) hj⟩
  revert h
  unfold foundBehindOk
  change _ → FoundBehind "r1" "b" takeBack P.shared (P.pcs ())
  generalize P.pcs () = pc
  intro h
  unfold FoundBehind
  split
  · intro _ _ m hm _
    simp only [hm, Option.all_some, decide_eq_true_eq] at h
    exact h
  · trivial

/-- `b` is back, and has read what there is. -/
theorem positions_advance_r1 : ∃ P n, Run (chat {} noJson) (Unovertaken "r1" "b")
      (fun _ : Unit => takeBack) ((chat {} noJson).initial (fun _ => takeBack) departedR1) P ∧
    (crew P.shared.db.roomMembers "r1" "b").isSome = true ∧
    position P.shared.db.roomMembers "r1" "b" = some n ∧ 0 ≤ n := by
  have hexec : ((chat {} noJson).exec (fun P _ => foundBehindOk P) (fun _ : Unit => takeBack)
      ((chat {} noJson).initial (fun _ => takeBack) departedR1) (turns () 6)).any (fun P =>
        (crew P.shared.db.roomMembers "r1" "b").isSome) = true := by decide
  obtain ⟨P, hrun, hP⟩ :=
    Machine.exec_reaches (D := Unovertaken "r1" "b") foundBehindOk_allows hexec
  obtain ⟨n, hn, hle⟩ := positions_advance {} noJson (fun _ : Unit => takeBack) departedR1 "r1" "b"
    _ P .refl hrun 0 rfl
  exact ⟨P, n, hrun, hP, hn, hle⟩

/-- Two requests of `a` to take `b` back in, and a message of his between them. -/
def takeBackTwice : Option Bool → ChatCall
  | none => .inl (say "a")
  | some _ => takeBack

/-- What the requests are promised: nobody reads past the newest message. -/
def withinRooms : Discipline World ChatCall ChatPc where
  alone k w pc := pc = .inl (.read .update) → WithinRoom k w
  beside _ _ _ _ _ := True

/-- **A position lost.** The first request has read the newest number when `a` writes a message; the
second takes `b` back in, up to this message; the first sets him back to the one before. -/
theorem position_lost : ¬ ∀ (ι : Type) [DecidableEq ι] (cfg : AppConfig) (json : Json)
    (calls : ι → ChatCall) (w : World) (r u : String) (P Q : Pool World ChatPc ι),
    (∀ m ∈ w.db.roomMembers.rows, m.lastReadSeq ≤ dbMaxSeq w.db m.roomId) →
    Run (chat cfg json) withinRooms calls ((chat cfg json).initial calls w) P →
    Run (chat cfg json) withinRooms calls P Q →
    ∀ n, position P.shared.db.roomMembers r u = some n →
      ∃ n', position Q.shared.db.roomMembers r u = some n' ∧ n ≤ n' := by
  intro h
  have hallows : ∀ {P : Pool World ChatPc (Option Bool)} {i : Option Bool}, always P i = true →
      withinRooms.allows takeBackTwice P i := by
    rintro P (_ | _) _ <;> exact ⟨fun _ => trivial, fun _ _ => trivial⟩
  have hexec : ((chat {} noJson).exec always takeBackTwice
      ((chat {} noJson).initial takeBackTwice departedR1)
      (turns (some false) 5 ++ turns none 5 ++ [turn none { id := "m2" }] ++
        turns (some true) 6)).any (fun P =>
          position P.shared.db.roomMembers "r1" "b" == some 2 &&
            ((chat {} noJson).exec always takeBackTwice P [turn (some false)]).any fun Q =>
              position Q.shared.db.roomMembers "r1" "b" == some 1) = true := by decide
  obtain ⟨P, hP, hp⟩ := Machine.exec_reaches (D := withinRooms) hallows hexec
  simp only [Bool.and_eq_true, beq_iff_eq] at hp
  obtain ⟨Q, hQ, hq⟩ := Machine.exec_reaches (D := withinRooms) hallows hp.2
  obtain ⟨n', hn', hle⟩ := h (Option Bool) {} noJson takeBackTwice departedR1 "r1" "b" P Q
    (by decide) hP hQ 2 hp.1
  rw [beq_iff_eq.1 hq] at hn'
  cases hn'
  exact absurd hle (by decide)

end Intaktok.Rooms
