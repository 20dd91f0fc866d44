import Intaktok.Rooms.Chat
import Intaktok.Rooms.Enrolment
import Intaktok.Messages.Numbers
import Intaktok.Messages.Effects
import Intaktok.Lib.Serial
/-
# Is a new message unread?

Complete requests one after the other, while Redis keeps the counters. Joins and re-joins write the
head of the room as the position of who joins; `markRead` writes whatever number the client names.
Where it names none past the end of the room, nobody's position is past it, and a new message is
unread for everybody but its sender (`newly_unread`); else it may have been read before it is sent
(`read_in_advance`).
-/

namespace Intaktok.Rooms

open Interleave Tables Messages

/-- The counters are in order, and nobody has read past the end of a room. -/
structure Unspoilt (w : World) : Prop where
  counters : ∀ r, CounterOk r w
  positions : ∀ m ∈ w.db.roomMembers.rows, m.lastReadSeq ≤ dbMaxSeq w.db m.roomId

/-- No `markRead` goes past the end of a room. -/
def WithinRoom : ChatCall → World → Prop
  | .inl (.markRead r u (.int n)), w => advances r u w.db (.int n) = true →
      ∀ m ∈ w.db.roomMembers.rows, reads r u n.toNat m = true → n.toNat ≤ dbMaxSeq w.db m.roomId
  | _, _ => True

/-! ## Positions -/

/-- The same position in the same room. -/
def SamePlace (m₀ m : RoomMember) : Prop :=
  m₀.roomId = m.roomId ∧ m₀.lastReadSeq = m.lastReadSeq

/-- Where the position of a member comes from that an action leaves. -/
inductive Position (call : Call) (w : World) (pc : Pc) (m : RoomMember) : Prop
  | kept {m₀} : m₀ ∈ w.db.roomMembers.rows → SamePlace m₀ m → Position call w pc m
  | new : m.lastReadSeq = 0 → Position call w pc m
  | head {r a userIds existing todo added} : call = .addMembers r a userIds →
      pc = .write m.lastReadSeq existing todo added → m.roomId = r → Position call w pc m

section Positions
variable {call : Call} {w w' : World} {pc pc' : Pc} {c : Choice} {m : RoomMember}

theorem samePlace_of_updateMember {t t' : Table RoomMember} {r u : String} {d : MemberData}
    (hu : updateMember t r u d = some t') (hd : d.lastReadSeq = none) (hm : m ∈ t'.rows) :
    ∃ m₀ ∈ t.rows, SamePlace m₀ m := by
  unfold updateMember at hu
  split at hu <;> cases hu
  obtain ⟨m₀, hm₀, rfl⟩ := Table.mem_updateWhere.1 hm
  refine ⟨m₀, hm₀, ?_⟩
  split <;> simp [SamePlace, MemberData.apply, hd]

theorem samePlace_of_reactivate {t : Table RoomMember} {r : String} {userIds : List String}
    (hm : m ∈ (reactivateMembers t r userIds).rows) : ∃ m₀ ∈ t.rows, SamePlace m₀ m := by
  obtain ⟨m₀, hm₀, rfl⟩ := Table.mem_updateWhere.1 hm
  refine ⟨m₀, hm₀, ?_⟩
  split <;> exact ⟨rfl, rfl⟩

theorem samePlace_of_setRole {t t' : Table RoomMember} {r a u : String} {role : MemberRole}
    (hs : setRole t r a u role = some t') (hm : m ∈ t'.rows) : ∃ m₀ ∈ t.rows, SamePlace m₀ m := by
  obtain ⟨t₁, h₁, h₂⟩ := Option.bind_eq_some_iff.1 hs
  split at h₂
  · obtain ⟨m₁, hm₁, hr₁, hs₁⟩ := samePlace_of_updateMember h₂ rfl hm
    obtain ⟨m₀, hm₀, hr₀, hs₀⟩ := samePlace_of_updateMember h₁ rfl hm₁
    exact ⟨m₀, hm₀, hr₀.trans hr₁, hs₀.trans hs₁⟩
  · cases h₂
    exact samePlace_of_updateMember h₁ rfl hm

theorem place_of_joinMember {r u : String} {head : Nat} {existing : List RoomMember}
    {t : Table RoomMember} (hj : joinMember r u head existing w = .ok t) (hm : m ∈ t.rows) :
    (∃ m₀ ∈ w.db.roomMembers.rows, SamePlace m₀ m) ∨ m.roomId = r ∧ m.lastReadSeq = head := by
  simp only [joinMember] at hj
  split at hj
  · split at hj <;> cases hj
    rename_i hu
    unfold updateMember at hu
    split at hu <;> cases hu
    obtain ⟨m₀, hm₀, rfl⟩ := Table.mem_updateWhere.1 hm
    split
    · rename_i his
      exact .inr ⟨(isMember_iff.1 his).1, rfl⟩
    · exact .inl ⟨m₀, hm₀, rfl, rfl⟩
  · split at hj
    · cases hj
    · rename_i hi
      split at hj <;> cases hj
      rcases (Table.mem_insert hi).1 hm with hm | rfl
      · exact .inl ⟨m, hm, rfl, rfl⟩
      · exact .inr ⟨rfl, rfl⟩

theorem position_insertRoom {room : Room} {ms : List RoomMember}
    (hins : insertRoom room ms w = .ok w') (hms : ∀ m ∈ ms, m.lastReadSeq = 0)
    (hm : m ∈ w'.db.roomMembers.rows) : Position call w pc m := by
  obtain ⟨rooms, roomMembers, -, hrows, rfl⟩ := insertRoom_ok hins
  rw [insertMembers_ok hrows, List.mem_append] at hm
  rcases hm with hm | hm
  · exact .kept hm ⟨rfl, rfl⟩
  · exact .new (hms m hm)

/-- Only a join writes a position, and it writes the head it has read. -/
theorem Acts.position (h : Acts c call w pc w' pc') (hm : m ∈ w'.db.roomMembers.rows) :
    Position call w pc m := by
  have same : m ∈ w.db.roomMembers.rows → Position call w pc m := fun hm => .kept hm ⟨rfl, rfl⟩
  have kept : (∃ m₀ ∈ w.db.roomMembers.rows, SamePlace m₀ m) → Position call w pc m :=
    fun ⟨_, hm₀, hs⟩ => .kept hm₀ hs
  cases call with
  | createRoom creatorId dto =>
    cases h with
    | insertedDirect _ _ _ _ hins =>
      refine position_insertRoom hins (fun m hm => ?_) hm
      obtain ⟨u, -, rfl⟩ := List.mem_map.1 hm
      rfl
    | insertedGroup _ _ _ _ hins =>
      refine position_insertRoom hins (fun m hm => ?_) hm
      obtain ⟨u, -, rfl⟩ := List.mem_map.1 hm
      rfl
    | reactivated => exact kept (samePlace_of_reactivate hm)
    | _ => exact same hm
  | addMembers r a userIds =>
    cases h with
    | joined hj =>
      rcases place_of_joinMember hj hm with hs | ⟨hr, rfl⟩
      · exact kept hs
      · exact .head rfl rfl hr
    | _ => exact same hm
  | updateMemberRole r a t role =>
    cases h with
    | set hs => exact kept (samePlace_of_setRole hs hm)
    | _ => exact same hm
  | removeMember r a t =>
    cases h with
    | left hu => exact kept (samePlace_of_updateMember hu rfl hm)
    | promoted hu => exact kept (samePlace_of_updateMember hu rfl hm)
    | _ => exact same hm

end Positions

/-! ## One action -/

/-- The head an `addMembers` has read. -/
def headOf : Pc → Option Nat
  | .existing n | .write n _ _ _ => some n
  | _ => none

theorem headOf_proceed (json : Json) (r : String) (result : Option RoomView) (todo : List Task) :
    headOf (proceed json r result todo) = none := by cases todo <;> rfl

theorem headOf_nextWrite {json : Json} {r a : String} {head n : Nat} {existing : List RoomMember}
    {todo added : List String}
    (h : headOf (nextWrite json r a head existing todo added) = some n) : n = head := by
  unfold nextWrite at h
  split at h
  · rw [headOf_proceed] at h
    cases h
  · exact (Option.some.inj h).symm

theorem headOf_addStep {json : Json} {r a : String} {userIds : List String} {w w' : World}
    {pc pc' : Pc} {n : Nat} (h : addStep json r a userIds w pc = some (w', pc'))
    (hn : headOf pc' = some n) : n = dbMaxSeq w.db r ∨ headOf pc = some n := by
  have hfail : ∀ {α : Type} {x : Except AppException α} {next : α → Pc},
      (∀ a, headOf (next a) = none) → headOf (orFail x next) = none := by
    intro α x next hnext
    cases x with
    | ok a => exact hnext a
    | error e => rfl
  cases pc <;> simp only [addStep] at h
  case guard => cases h; rw [hfail fun _ => rfl] at hn; cases hn
  case room role => cases h; rw [hfail fun _ => hfail fun _ => rfl] at hn; cases hn
  case activeUsers => cases h; rw [hfail fun _ => rfl] at hn; cases hn
  case head => cases h; exact .inl (Option.some.inj hn).symm
  case existing head => cases h; exact .inr (by rw [headOf_nextWrite hn]; rfl)
  case write head existing todo added =>
    split at h
    · cases h
    · split at h <;> cases h
      · exact .inr (by rw [headOf_nextWrite hn]; rfl)
      · cases hn
  all_goals cases h

/-- What a message that is about to do `q` knows of its room: its number is past all others. -/
def Next (r : String) (w : World) (q : CreatePc) : Prop :=
  Numbered r w q ∧ ∀ a s, q = .insert a s → dbMaxSeq w.db r < s

theorem next_createStart (r : String) (w : World) (p : CreateMessageParams) :
    Next r w (Messages.createStart p) :=
  ⟨numbered_of_idle (idle_createStart p), fun a s h =>
    absurd h (ne_insert_of_idle (idle_createStart p) a s)⟩

/-- A message that is about to start knows nothing yet. -/
theorem next_of_begins {pc : Pc} {w : World} (hb : pc.Begins) (r : String) (q : CreatePc)
    (hc : pc.creates = some (r, q)) : Next r w q := by
  obtain ⟨p, rfl⟩ := hb _ (creation_of_creates hc)
  exact next_createStart r w p

/-- What a request knows that is about to do `pc`. -/
structure Aware (k : ChatCall) (w : World) (pc : ChatPc) : Prop where
  unspoilt : Unspoilt w
  read : pc = .inl (.read .update) → WithinRoom k w
  head : ∀ r a userIds pc₁ n, k = .inr (.inl (.addMembers r a userIds)) → pc = .inr (.inl pc₁) →
    headOf pc₁ = some n → n ≤ dbMaxSeq w.db r
  next : ∀ r q, creates k pc = some (r, q) → Next r w q

theorem dbMaxSeq_mono {db db' : Db} {r : String} (h : ∀ s ∈ seqs db r, s ∈ seqs db' r) :
    dbMaxSeq db r ≤ dbMaxSeq db' r := dbMaxSeq_le fun s hs => le_dbMaxSeq (h s hs)

section Step
variable {cfg : AppConfig} {json : Json} {c : Choice} {w w' : World}

/-- An action of a message keeps what is in order. -/
theorem Unspoilt.created {p : CreateMessageParams} {q q' : CreatePc}
    (hw : Unspoilt w) (hn : Next p.roomId w q) (h : CreateActs json c p w q w' q') :
    Unspoilt w' ∧ Next p.roomId w' q' := by
  have hadv := h.advance rfl (hw.counters p.roomId) hn.1
  have hmono : ∀ r, dbMaxSeq w.db r ≤ dbMaxSeq w'.db r := fun r => dbMaxSeq_mono fun s hs => by
    obtain ⟨x, hx, hr⟩ := mem_seqs.1 hs
    exact mem_seqs.2 ⟨x, h.stubs_mono x hx, hr⟩
  refine ⟨⟨fun r => ?_, fun m hm => ?_⟩, hadv.own, fun a s hq' => ?_⟩
  · by_cases hr : p.roomId = r
    · exact hr ▸ hadv.ok
    · exact (h.still hr).ok (hw.counters r)
  · rw [(kept_of_createActs h).members] at hm
    exact (hw.positions m hm).trans (hmono _)
  · -- the number has been taken just now, from a counter that is ahead
    subst hq'
    obtain ⟨rfl, hi⟩ := h.origin
    obtain ⟨⟨redis, rfl⟩, -, -, hcase, -⟩ := World.incr_spec hi
    rcases hcase with ⟨hnone, -⟩ | ⟨n, hl, rfl⟩
    · exact absurd hnone hn.1
    · obtain ⟨n', hnum, hle⟩ := (hw.counters p.roomId).ahead _ hl
      cases hnum
      exact Nat.lt_succ_of_le (dbMaxSeq_le hle)

/-- An action that leaves the numbers alone. -/
theorem Unspoilt.aside (hw : Unspoilt w) (hredis : w'.redis = w.redis) (hnow : w'.now = w.now)
    (hlog : stubs w'.db = stubs w.db)
    (hpos : ∀ m ∈ w'.db.roomMembers.rows, m.lastReadSeq ≤ dbMaxSeq w.db m.roomId) :
    Unspoilt w' where
  counters r := Still.ok ⟨by rw [World.lookup, World.lookup, hredis, hnow], hredis ▸ id,
    seqs_congr hlog r⟩ (hw.counters r)
  positions m hm := by
    rw [dbMaxSeq_congr hlog]
    exact hpos m hm

/-- A tail writes but its messages. -/
theorem Unspoilt.tail {r : String} {task : Task} {todo : List Task} {result : Option RoomView}
    {q : TailPc} {pc' : Pc} (hw : Unspoilt w)
    (hn : ∀ r' q', (Pc.tail r task todo q result).creates = some (r', q') → Next r' w q')
    (h : TailActs json c r task todo result w q w' pc') :
    Unspoilt w' ∧ ∀ r' q', pc'.creates = some (r', q') → Next r' w' q' := by
  cases h with
  | @created actorId payload q w' q' _ hc =>
    obtain ⟨hw', hn'⟩ := hw.created (p := systemParams json r actorId payload) (hn r q rfl) hc
    refine ⟨hw', fun r' q₂ hq₂ => ?_⟩
    rcases creates_afterCreate hq₂ with ⟨rfl, rfl⟩ | ⟨p, rfl⟩
    · exact hn'
    · exact next_createStart r' w' p
  | read hp => exact ⟨hw, next_of_begins hp.2⟩
  | emitted hp => exact ⟨hw.aside rfl rfl rfl hw.positions, next_of_begins hp.2⟩

/-- An action before the tail writes positions no further than the head. -/
theorem Unspoilt.acts {call : Call} {pc pc' : Pc} (hw : Unspoilt w)
    (hhead : ∀ r a userIds n, call = .addMembers r a userIds → headOf pc = some n →
      n ≤ dbMaxSeq w.db r) (h : Acts c call w pc w' pc') : Unspoilt w' := by
  obtain ⟨rooms, roomMembers, rfl⟩ := h.db
  refine hw.aside rfl rfl rfl fun m hm => ?_
  cases h.position hm with
  | @kept m₀ hm₀ hs =>
    rw [← hs.1, ← hs.2]
    exact hw.positions m₀ hm₀
  | new h0 => rw [h0]; exact Nat.zero_le _
  | @head r a userIds existing todo added hcall hpc hr =>
    rw [hr]
    exact hhead r a userIds _ hcall (by rw [hpc]; rfl)

theorem unspoilt_read {r u : WhereString} {n : JsNumber} {pc pc' : ReadPc} (hw : Unspoilt w)
    (hin : pc = .update → WithinRoom (.inl (.markRead r u n)) w)
    (h : readStep r u n w pc = some (w', pc')) : Unspoilt w' := by
  have ha := aside_of_readStep h
  refine hw.aside ha.redis ha.now ha.log fun m hm => ?_
  cases pc <;> simp only [readStep] at h
  case update =>
    split at h
    · cases h; exact hw.positions m hm
    · split at h
      · cases h; exact hw.positions m hm
      · rename_i k hvalid
        split at h
        · rename_i hany
          cases h
          simp only [setLastReadSeq] at hm
          obtain ⟨m₀, hm₀, rfl⟩ := Table.mem_updateWhere.1 hm
          split
          · rename_i hreads
            have hadv : advances r u w.db (.int k) = true := by
              simp only [advances, Bool.and_eq_true, Bool.not_eq_true']
              exact ⟨by simpa using hvalid, hany⟩
            exact hin rfl hadv m₀ hm₀ hreads
          · exact hw.positions m₀ hm₀
        · cases h; exact hw.positions m hm
  case members l => cases h; exact hw.positions m hm
  case done x => cases h

theorem headOf_step {r a : String} {userIds : List String} {pc pc' : Pc} {n : Nat}
    (h : step json c (.addMembers r a userIds) w pc = some (w', pc')) (hn : headOf pc' = some n) :
    (n = dbMaxSeq w.db r ∨ headOf pc = some n) ∧ w'.db.messages = w.db.messages := by
  unfold step at h
  split at h
  · -- a tail has no head
    have hpast := (tail_step h).2
    unfold past at hpast
    split at hpast
    · cases hn
    · cases hn
    · cases hpast
  · have hacts : Acts c (.addMembers r a userIds) w _ w' pc' := acts_of_addMembers h
    refine ⟨headOf_addStep h hn, ?_⟩
    obtain ⟨rooms, roomMembers, rfl⟩ := hacts.db
    rfl

/-- An action of a request on a room. -/
theorem Unspoilt.room {call : Call} {pc pc' : Pc} (hw : Unspoilt w)
    (hhead : ∀ r a userIds n, call = .addMembers r a userIds → headOf pc = some n →
      n ≤ dbMaxSeq w.db r)
    (hnext : ∀ r q, pc.creates = some (r, q) → Next r w q)
    (h : step json c call w pc = some (w', pc')) :
    Unspoilt w' ∧ ∀ r q, pc'.creates = some (r, q) → Next r w' q := by
  rcases step_acts h with ⟨r, task, todo, q, result, rfl, htail⟩ | ⟨hacts, hopening⟩
  · exact hw.tail hnext htail
  · exact ⟨hw.acts hhead hacts, next_of_begins hopening.begins⟩

theorem Unspoilt.update {r a : String} {dto : UpdateRoomDto} {pc pc' : UpdatePc} (hw : Unspoilt w)
    (hnext : ∀ q, pc = .after q → ∀ r' q', q.creates = some (r', q') → Next r' w q')
    (h : updateStep json c r a dto w pc = some (w', pc')) :
    Unspoilt w' ∧ ∀ q, pc' = .after q → ∀ r' q', q.creates = some (r', q') → Next r' w' q' := by
  cases acts_of_updateRoom h with
  | after ht =>
    obtain ⟨hw', hn'⟩ := hw.tail (hnext _ rfl) (acts_of_tailStep ht)
    exact ⟨hw', by rintro q ⟨⟩; exact hn'⟩
  | updated hp =>
    refine ⟨hw.aside rfl rfl rfl hw.positions, ?_⟩
    rintro q ⟨⟩
    exact next_of_begins hp.2
  | refused => exact ⟨hw, by rintro q ⟨⟩ r' q' hq'; cases hq'⟩
  | group =>
    refine ⟨hw, fun q hq => ?_⟩
    unfold afterChecks at hq
    split at hq <;> cases hq
  | entered | owned => exact ⟨hw, by rintro q ⟨⟩⟩

/-- Every action of a request keeps what is in order. -/
theorem Aware.step {k : ChatCall} {pc pc' : ChatPc} (h : Aware k w pc)
    (hs : (chat cfg json).step c k w pc = some (w', pc')) : Aware k w' pc' := by
  obtain ⟨hw, hread, hhead, hnext⟩ := h
  cases acts_of_chat hs with
  | create hc =>
    obtain ⟨hw', hn'⟩ := hw.created (hnext _ _ rfl) hc
    refine ⟨hw', ?_, ?_, ?_⟩
    · intro hpc; cases hpc
    · intro _ _ _ _ _ hk; cases hk
    · intro r q hq; cases hq; exact hn'
  | @read r u n pc w' pc' hr =>
    refine ⟨unspoilt_read hw (fun hpc => hread (by rw [hpc])) hr, ?_, ?_, ?_⟩
    · intro hpc
      cases hpc
      cases pc <;> simp only [readStep] at hr
      case update => split at hr <;> (try split at hr) <;> (try split at hr) <;> cases hr
      all_goals cases hr
    · intro _ _ _ _ _ hk; cases hk
    · intro _ _ hq; cases hq
  | @delete r m u pc w' pc' hd =>
    have ha := aside_of_deleteStep hd
    obtain ⟨⟨messages, hdb⟩, -⟩ := deleteStep_db hd
    refine ⟨hw.aside ha.redis ha.now ha.log (by rw [hdb]; exact hw.positions), ?_, ?_, ?_⟩
    · intro hpc; cases hpc
    · intro _ _ _ _ _ hk; cases hk
    · intro _ _ hq; cases hq
  | @room call pc w' pc' hr =>
    obtain ⟨hw', hn'⟩ := hw.room (fun r a userIds n hcall hn =>
      hhead r a userIds pc n (by rw [hcall]) rfl hn) hnext hr
    refine ⟨hw', ?_, ?_, hn'⟩
    · intro hpc; cases hpc
    · intro r a userIds pc₁ n hk hpc hn
      cases hk
      cases hpc
      obtain ⟨hn, hmessages⟩ := headOf_step hr hn
      have hsame : dbMaxSeq w'.db r = dbMaxSeq w.db r := by
        rw [dbMaxSeq, dbMaxSeq, seqs, seqs, hmessages]
      rw [hsame]
      rcases hn with rfl | hn
      · exact le_rfl
      · exact hhead r a userIds pc n rfl rfl hn
  | @update r a dto pc w' pc' hu =>
    obtain ⟨hw', hn'⟩ := hw.update (fun q hq r' q' hc => hnext r' q' (by subst hq; exact hc)) hu
    refine ⟨hw', ?_, ?_, ?_⟩
    · intro hpc; cases hpc
    · intro _ _ _ _ _ hk; cases hk
    · intro r q hq
      cases pc' with
      | after q₁ => exact hn' q₁ rfl r q hq
      | _ => cases hq

end Step

/-! ## Runs -/

section Runs
variable {cfg : AppConfig} {json : Json} {w₀ w w' : World}

theorem aware_start {k : ChatCall} (hw : Unspoilt w) (hin : WithinRoom k w) :
    Aware k w ((chat cfg json).start k) := by
  refine ⟨hw, fun _ => hin, ?_, ?_⟩
  · rintro r a userIds pc n rfl hpc hn
    cases hpc
    cases hn
  · intro r q hq
    rcases k with (p | _ | _) | (call | call)
    · cases hq
      exact next_createStart p.roomId w p
    · cases hq
    · cases hq
    · cases call with
      | createRoom creatorId dto =>
        have hq' : (createStart creatorId dto).creates = some (r, q) := hq
        rcases createStart_cases creatorId dto with h | ⟨e, h⟩ <;> rw [h] at hq' <;> cases hq'
      | _ => cases hq
    · cases hq

theorem aware_tick {k : ChatCall} {pc : ChatPc} (h : Aware k w pc) (ms : Nat) :
    Aware k (w.tick ms) pc where
  unspoilt := ⟨fun r => (still_tick (h.unspoilt.counters r) ms).ok (h.unspoilt.counters r),
    h.unspoilt.positions⟩
  read hpc := by
    have hin := h.read hpc
    unfold WithinRoom at hin ⊢
    split
    · exact hin
    · trivial
  head := h.head
  next r q hq := ⟨(still_tick (h.unspoilt.counters r) ms).numbered (h.next r q hq).1,
    (h.next r q hq).2⟩

theorem aware_serving {k : ChatCall} {pc : ChatPc} (h0 : Unspoilt w₀)
    (h : Serving (chat cfg json) Ended WithinRoom w₀ k w pc) : Aware k w pc :=
  h.invariant Unspoilt Aware h0 aware_start Aware.step (fun hJ _ => hJ.unspoilt)
    (fun ms _ hI => ⟨fun r => (still_tick (hI.counters r) ms).ok (hI.counters r), hI.positions⟩)
    fun ms _ _ _ hJ => aware_tick hJ ms

theorem unspoilt_serial (h0 : Unspoilt w₀)
    (h : Serial (chat cfg json) Ended WithinRoom w₀ w) : Unspoilt w := by
  have hserving : Serving (chat cfg json) Ended WithinRoom w₀ (.inl (.softDelete "" "" "")) w _ :=
    ⟨w, h, trivial, .refl⟩
  exact (aware_serving h0 hserving).unspoilt

/-! ## One message -/

/-- What a request to `RoomsService` is about to do. -/
def request : ChatPc → Option Pc
  | .inr (.inl pc) | .inr (.inr (.after pc)) => some pc
  | _ => none

/-- `createMessage` is called in `w`: by a client between two requests, or by the request that is
being served. -/
inductive CallsCreate (cfg : AppConfig) (json : Json) (may : ChatCall → World → Prop)
    (w₀ w : World) : CreateMessageParams → Prop
  | client {p} : Serial (chat cfg json) Ended may w₀ w → CallsCreate cfg json may w₀ w p
  | service {k pc r actorId payload todo result} : Serving (chat cfg json) Ended may w₀ k w pc →
      request pc = some (.tail r (.system actorId payload) todo
        (.system (Messages.createStart (systemParams json r actorId payload))) result) →
      CallsCreate cfg json may w₀ w (systemParams json r actorId payload)

theorem CallsCreate.unspoilt {p : CreateMessageParams} (h0 : Unspoilt w₀)
    (h : CallsCreate cfg json WithinRoom w₀ w p) : Unspoilt w := by
  cases h with
  | client hs => exact unspoilt_serial h0 hs
  | service hs => exact (aware_serving h0 hs).unspoilt

/-- The call may have inserted its row. -/
def late : CreatePc → Bool
  | .roomUpdate _ | .fetch _ _ | .done _ => true
  | _ => false

/-- How far a call that started in `w` has come. -/
structure Sending (p : CreateMessageParams) (w w' : World) (q : CreatePc) : Prop where
  unspoilt : Unspoilt w'
  next : Next p.roomId w' q
  members : w'.db.roomMembers = w.db.roomMembers
  rows : w'.db.messages = w.db.messages ∧ won q = false ∨ late q = true ∧
    ∃ m, w'.db.messages.rows = w.db.messages.rows ++ [m] ∧ m.roomId = p.roomId ∧
      m.senderId = p.senderId ∧ m.deletedAt = none ∧ dbMaxSeq w.db p.roomId < m.seq

theorem won_eq (q : CreatePc) : won q = !unstored q := by
  cases q with
  | done x => rcases x with e | ⟨m, _ | _⟩ <;> rfl
  | _ => rfl

/-- An action that inserts nothing, and the row is not there yet. -/
theorem messages_before {p : CreateMessageParams} {w₁ w₂ : World} {q q' : CreatePc} {c : Choice}
    (hc : CreateActs json c p w₁ q w₂ q') (hp : won q = false) :
    w₂.db.messages = w₁.db.messages ∧ won q' = false ∨
      ∃ a seq m, q = .insert a seq ∧ q' = .roomUpdate m ∧
        createRow p c.id seq w₁ = .ok (w₂, m) := by
  cases hc.effect with
  | redis _ _ hq' => exact .inl ⟨rfl, by rw [won_eq, hq']; rfl⟩
  | inserted =>
    obtain ⟨_, _, hpc, -, hcr⟩ := hc.origin
    cases hpc
    exact .inr ⟨_, _, _, rfl, rfl, hcr⟩
  | _ => cases hp

/-- Once the row is there, nothing is inserted any more. -/
theorem messages_after {p : CreateMessageParams} {w₁ w₂ : World} {q q' : CreatePc} {c : Choice}
    (hc : CreateActs json c p w₁ q w₂ q') (hl : late q = true) :
    w₂.db.messages = w₁.db.messages ∧ late q' = true := by
  cases hc with
  | roomUpdate | noRoom => exact ⟨rfl, rfl⟩
  | @fetch dto got got' hf =>
    rcases emitCreated_cases json dto got' w₁ with ⟨h, hw⟩ | ⟨_, _, _, h⟩ | h
    · rw [h, hw]; exact ⟨rfl, rfl⟩
    · rw [h]; exact ⟨rfl, rfl⟩
    · rw [h]; exact ⟨rfl, rfl⟩
  | _ => cases hl

theorem Sending.step {p : CreateMessageParams} {w₁ w₂ : World} {q q' : CreatePc} {c : Choice}
    (h : Sending p w w₁ q) (hc : CreateActs json c p w₁ q w₂ q') : Sending p w w₂ q' := by
  obtain ⟨hw, hn, hmembers, hrows⟩ := h
  obtain ⟨hw', hn'⟩ := hw.created hn hc
  refine ⟨hw', hn', (kept_of_createActs hc).members.trans hmembers, ?_⟩
  rcases hrows with ⟨hrows, hp⟩ | ⟨hl, hm⟩
  · rcases messages_before hc hp with ⟨hsame, hp'⟩ | ⟨a, seq, m, rfl, rfl, hcr⟩
    · exact .inl ⟨hsame.trans hrows, hp'⟩
    · obtain ⟨type, t, -, rfl, ht, rfl, -⟩ := createRow_ok hcr
      have hseq := hn.2 a seq rfl
      have hmax : dbMaxSeq w₁.db p.roomId = dbMaxSeq w.db p.roomId := by
        rw [dbMaxSeq, dbMaxSeq, seqs, seqs, hrows]
      exact .inr ⟨rfl, _, by rw [(Table.insert_ok ht).2, hrows], rfl, rfl, rfl, hmax ▸ hseq⟩
  · obtain ⟨hsame, hl'⟩ := messages_after hc hl
    exact .inr ⟨hl', by rw [hsame]; exact hm⟩

/-- A call that ends without having found a duplicate has inserted one message. -/
theorem sent_row {p : CreateMessageParams} {dto : SerializedMessage} (hw : Unspoilt w)
    (h : Solo (Messages.machine cfg json) (.createMessage p) w (Messages.start (.createMessage p))
      w' (.create (.done (.ok ⟨dto, false⟩)))) :
    w'.db.roomMembers = w.db.roomMembers ∧
      ∃ m, w'.db.messages.rows = w.db.messages.rows ++ [m] ∧ m.roomId = p.roomId ∧
        m.senderId = p.senderId ∧ m.deletedAt = none ∧ dbMaxSeq w.db p.roomId < m.seq := by
  have hsending := h.invariant (fun w₁ pc => ∃ q, pc = .create q ∧ Sending p w w₁ q) ?_ ?_ ?_
  · obtain ⟨q, hq, hs⟩ := hsending
    cases hq
    exact ⟨hs.members, (hs.rows.resolve_left fun hp => by cases hp.2).2⟩
  · exact ⟨_, rfl, hw, next_createStart _ _ p, rfl,
      .inl ⟨rfl, by rw [won_eq, unstored_of_checking (checking_createStart p)]; rfl⟩⟩
  · rintro c w₁ _ w₂ pc₂ ⟨q, rfl, hq⟩ hs
    obtain ⟨⟨w₃, q'⟩, hstep, he⟩ := Option.map_eq_some_iff.1 hs
    cases he
    exact ⟨q', rfl, hq.step (acts_of_createStep hstep)⟩
  · rintro ms w₁ _ ⟨q, rfl, hq⟩
    refine ⟨q, rfl, ⟨fun r => (still_tick (hq.unspoilt.counters r) ms).ok (hq.unspoilt.counters r),
      hq.unspoilt.positions⟩, ⟨?_, hq.next.2⟩, hq.members, hq.rows⟩
    exact (still_tick (hq.unspoilt.counters p.roomId) ms).numbered hq.next.1

theorem countUnread_append {db db' : Db} {m : Message} {r u : String} {n : Nat}
    (h : db'.messages.rows = db.messages.rows ++ [m]) (hr : m.roomId = r)
    (hd : m.deletedAt = none) (hn : n < m.seq) :
    countUnread db' r u n = countUnread db r u n + if u = m.senderId then 0 else 1 := by
  have hkeep : (m.roomId == r && decide (n < m.seq) && m.deletedAt.isNone && m.senderId != u) =
      decide (u ≠ m.senderId) := by
    by_cases hu : u = m.senderId <;> simp [hr, hd, hn, hu, bne, beq_eq_decide, eq_comm]
  simp only [countUnread, unread, Table.findMany, h, List.filter_append, List.length_append,
    List.filter_singleton, hkeep]
  by_cases hu : u = m.senderId <;> simp [hu]

/-- The counts of the unread can be trusted. -/
structure Trusted (cfg : AppConfig) (json : Json) (may : ChatCall → World → Prop) (w₀ : World) :
    Prop where
  /-- A new message is unread for every other active member, and for nobody else. -/
  sends : ∀ {w p w' dto}, CallsCreate cfg json may w₀ w p →
    Solo (Messages.machine cfg json) (.createMessage p) w (Messages.start (.createMessage p)) w'
      (.create (.done (.ok ⟨dto, false⟩))) →
    ∀ u m, crew w.db.roomMembers p.roomId u = some m → crew w'.db.roomMembers p.roomId u = some m ∧
      countUnread w'.db p.roomId u m.lastReadSeq =
        countUnread w.db p.roomId u m.lastReadSeq + if u = p.senderId then 0 else 1
  /-- No active member has read past the end of his room. -/
  positions : ∀ {k w pc}, Serving (chat cfg json) Ended may w₀ k w pc →
    ∀ r u m, crew w.db.roomMembers r u = some m → m.lastReadSeq ≤ dbMaxSeq w.db r

/-- **A new message is unread for the others**, as long as nobody marks messages as read that are
not there. -/
theorem newly_unread (cfg : AppConfig) (json : Json) (w₀ : World) (h0 : Unspoilt w₀) :
    Trusted cfg json WithinRoom w₀ where
  sends hcall hsolo u m hm := by
    have hw := hcall.unspoilt h0
    obtain ⟨hmembers, x, hrows, hr, hs, hd, hseq⟩ := sent_row hw hsolo
    obtain ⟨hmem, hmr, -, -⟩ := crew_eq_some.1 hm
    have hpos := hw.positions m hmem
    rw [hmr] at hpos
    exact ⟨by rw [hmembers]; exact hm, hs ▸ countUnread_append hrows hr hd (hpos.trans_lt hseq)⟩
  positions hserving r u m hm := by
    obtain ⟨hmem, hmr, -, -⟩ := crew_eq_some.1 hm
    exact hmr ▸ (aware_serving h0 hserving).unspoilt.positions m hmem

end Runs

/-! ### Read before it is sent -/

theorem worldR1_unspoilt : Unspoilt (worldR1) where
  counters r := by
    constructor
    · intro _ h; cases h
    · intro _ h; cases h
  positions m hm := by
    rcases List.mem_cons.1 hm with rfl | hm
    · exact Nat.zero_le _
    · rw [List.mem_singleton.1 hm]
      exact Nat.zero_le _

/-- `a` writes to `r1`. -/
def greeting : CreateMessageParams where
  roomId := "r1"
  senderId := "a"
  type := some .TEXT
  content := some "hi"

/-- The message a call has ended with that is no duplicate. -/
def sent : Messages.Pc → Option SerializedMessage
  | .create (.done (.ok ⟨dto, false⟩)) => some dto
  | _ => none

theorem sent_eq {pc : Messages.Pc} {dto : SerializedMessage} (h : sent pc = some dto) :
    pc = .create (.done (.ok ⟨dto, false⟩)) := by
  unfold sent at h
  split at h <;> cases h
  rfl

/-- The message of `a` is unread for `b`. -/
theorem newly_unread_r1 : ∃ w' dto,
    Solo (Messages.machine {} noJson) (.createMessage greeting) worldR1
      (Messages.start (.createMessage greeting)) w' (.create (.done (.ok ⟨dto, false⟩))) ∧
    countUnread w'.db "r1" "b" 0 = 1 ∧ countUnread w'.db "r1" "a" 0 = 0 := by
  have hexec : ((Messages.machine {} noJson).exec always (fun _ : Unit => .createMessage greeting)
      ((Messages.machine {} noJson).initial (fun _ => .createMessage greeting) worldR1)
      (turns () 5 ++ [turn () { id := "m1" }, turn (), turn (), turn () { pick := 1 },
        turn () { pick := 2 }])).any (fun P => (sent (P.pcs ())).isSome) = true := by decide
  obtain ⟨P, hrun, hP⟩ := Machine.exec_reaches_free hexec
  obtain ⟨dto, hdto⟩ := Option.isSome_iff_exists.1 hP
  have hsolo := hrun.solo
  rw [sent_eq hdto] at hsolo
  have htrust := newly_unread {} noJson worldR1 worldR1_unspoilt
  have hcount := fun u m hm => (htrust.sends (.client .refl) hsolo u m hm).2
  exact ⟨P.shared, dto, hsolo, hcount "b" _ rfl, hcount "a" _ rfl⟩

/-- What `ReadDto` lets through. -/
def Admitted : ChatCall → World → Prop
  | .inl (.markRead r u n), _ => ∃ roomId userId k, r = .str roomId ∧ u = .str userId ∧
      n = .int k ∧ 0 ≤ k
  | _, _ => True

/-- **Read in advance.** `b` reads up to 10 in a room without a message. -/
theorem read_in_advance : ¬ ∀ (cfg : AppConfig) (json : Json) (w₀ : World), Unspoilt w₀ →
    Trusted cfg json Admitted w₀ := by
  intro h
  let call : ChatCall := .inl (.markRead (.str "r1") (.str "b") (.int 10))
  have hexec : ((chat {} noJson).exec always (fun _ : Unit => call)
      ((chat {} noJson).initial (fun _ => call) worldR1) (turns () 2)).any (fun P =>
        (crew P.shared.db.roomMembers "r1" "b").any fun m =>
          decide (dbMaxSeq P.shared.db "r1" < m.lastReadSeq)) = true := by decide
  obtain ⟨P, hrun, hP⟩ := Machine.exec_reaches_free hexec
  obtain ⟨m, hm, hlt⟩ := (Option.any_eq_true _ _).1 hP
  have hserving : Serving (chat {} noJson) Ended Admitted worldR1 call P.shared (P.pcs ()) :=
    ⟨worldR1, .refl, ⟨"r1", "b", 10, rfl, rfl, rfl, by decide⟩, hrun.solo⟩
  have hle := (h {} noJson worldR1 worldR1_unspoilt).positions hserving "r1" "b" m hm
  exact absurd hle (Nat.not_le.2 (by simpa using hlt))

end Intaktok.Rooms
