import Intaktok.Messages.Numbers
/-
# Does a room know when its last message was?

`createMessage` inserts its message and then, in a statement of its own and without looking, writes
the message's `createdAt` to the room (`messages.service.ts:111`, `:126`); `listRooms` sorts by what
it finds there. If the sends of a room update it in the order of their messages (`OldestFirst`), the
room's `lastMessageAt` never decreases, and whenever no send is under way it is the latest
`createdAt` (`last_message_at`); two sends that update it in the other order set it back
(`last_message_lost`).
-/

namespace Intaktok.Messages

open Interleave Tables

/-- The times of the messages of a room. -/
def times (db : Db) (r : String) : List Nat :=
  (db.messages.findMany (·.roomId == r)).map (·.createdAt)

/-- The greatest of them. -/
def newest (db : Db) (r : String) : Option Nat := (times db r).max?

def lastMessageAt (db : Db) (r : String) : Option Nat :=
  (db.rooms.find (·.id == r)).bind (·.lastMessageAt)

/-- The message a send is about to note in the room `r`. -/
def updating (r : String) : Call → Pc → Option Message
  | .createMessage p, .create (.roomUpdate m) => if p.roomId = r then some m else none
  | _, _ => none

/-- No send notes its message while one whose message is older has still to. -/
def OldestFirst (r : String) : Discipline World Call Pc where
  alone _ _ _ := True
  beside call _ pc call₂ pc₂ := ∀ m m₂, updating r call pc = some m →
    updating r call₂ pc₂ = some m₂ → m.createdAt ≤ m₂.createdAt

/-! ## One action -/

section Step
variable {cfg : AppConfig} {json : Json} {c : Choice} {r : String} {w w' : World}

theorem times_eq_stubs (db : Db) (r : String) :
    times db r = ((stubs db).filter (·.roomId == r)).map (·.createdAt) := by
  rw [times, Table.findMany, stubs, List.filter_map, List.map_map]
  rfl

theorem times_congr {db db' : Db} (h : stubs db' = stubs db) (r : String) :
    times db' r = times db r := by
  rw [times_eq_stubs, times_eq_stubs, h]

theorem updating_eq_some {call : Call} {pc : Pc} {m : Message} : updating r call pc = some m ↔
    ∃ p, call = .createMessage p ∧ pc = .create (.roomUpdate m) ∧ p.roomId = r := by
  constructor
  · intro h
    unfold updating at h
    split at h
    · split at h
      · rename_i hr
        cases h
        exact ⟨_, rfl, rfl, hr⟩
      · cases h
    · cases h
  · rintro ⟨p, rfl, rfl, hr⟩
    simp [updating, hr]

def RoomKnown (r : String) (db : Db) : Prop := (db.rooms.find (·.id == r)).isSome = true

theorem find_setLastMessageAt (t : Table Room) (r' r : String) (n : Nat) :
    (setLastMessageAt t r' n).find (·.id == r) = (t.find (·.id == r)).map fun x =>
      if x.id == r' then { x with lastMessageAt := some n } else x :=
  Table.find_updateWhere t (·.id == r') (·.id == r) (fun x => { x with lastMessageAt := some n })
    (fun c _ _ => by cases c <;> rfl) fun _ => rfl

theorem lastMessageAt_set_self {db : Db} {n : Nat} (h : RoomKnown r db) :
    lastMessageAt { db with rooms := setLastMessageAt db.rooms r n } r = some n := by
  obtain ⟨x, hx⟩ := Option.isSome_iff_exists.1 h
  have hid := (Table.find_some hx).2
  rw [lastMessageAt, find_setLastMessageAt, hx]
  simp [beq_iff_eq.1 hid]

theorem lastMessageAt_set_ne {db : Db} {r' : String} {n : Nat} (h : r ≠ r') :
    lastMessageAt { db with rooms := setLastMessageAt db.rooms r' n } r = lastMessageAt db r := by
  rw [lastMessageAt, lastMessageAt, find_setLastMessageAt]
  cases hx : db.rooms.find (·.id == r) with
  | none => rfl
  | some x =>
    have hid := beq_iff_eq.1 (Table.find_some hx).2
    have hne : x.id ≠ r' := hid ▸ h
    simp [hne]

theorem RoomKnown.set {db : Db} {r' : String} {n : Nat} (h : RoomKnown r db) :
    RoomKnown r { db with rooms := setLastMessageAt db.rooms r' n } := by
  unfold RoomKnown
  rw [find_setLastMessageAt, Option.isSome_map]
  exact h

/-- What an action means for the times of a room: nothing, a new message, or a message noted. -/
inductive Dates (r : String) (w : World) (call : Call) (pc : Pc) (w' : World) (pc' : Pc) : Prop
  | aside : times w'.db r = times w.db r → lastMessageAt w'.db r = lastMessageAt w.db r →
      updating r call pc = none → updating r call pc' = none → Dates r w call pc w' pc'
  | inserted {m} : times w'.db r = times w.db r ++ [w.now] →
      lastMessageAt w'.db r = lastMessageAt w.db r → RoomKnown r w'.db →
      updating r call pc = none → updating r call pc' = some m → m.createdAt = w.now →
      Dates r w call pc w' pc'
  | noted {m} : times w'.db r = times w.db r → updating r call pc = some m →
      lastMessageAt w'.db r = some m.createdAt → updating r call pc' = none →
      Dates r w call pc w' pc'

theorem updating_none {call : Call} {pc : Pc} (h : ∀ m, pc ≠ .create (.roomUpdate m)) :
    updating r call pc = none := by
  rw [Option.eq_none_iff_forall_not_mem]
  intro m hm
  obtain ⟨p, -, rfl, -⟩ := updating_eq_some.1 hm
  exact h m rfl

theorem ne_roomUpdate_of_unstored {pc : CreatePc} (h : unstored pc = true) (m : Message) :
    pc ≠ .roomUpdate m := by
  rintro rfl
  cases h

theorem dates_of_acts {p : CreateMessageParams} {pc pc' : CreatePc}
    (hk : ∀ m, updating r (.createMessage p) (.create pc) = some m → RoomKnown r w.db)
    (h : CreateActs json c p w pc w' pc') :
    Dates r w (.createMessage p) (.create pc) w' (.create pc') := by
  have aside : times w'.db r = times w.db r → lastMessageAt w'.db r = lastMessageAt w.db r →
      (∀ m, pc ≠ .roomUpdate m) → (∀ m, pc' ≠ .roomUpdate m) →
      Dates r w (.createMessage p) (.create pc) w' (.create pc') := fun ht hl hpc hpc' =>
    .aside ht hl (updating_none fun m he => hpc m (Pc.create.inj he))
      (updating_none fun m he => hpc' m (Pc.create.inj he))
  cases h.effect with
  | redis _ hpc hpc' =>
    exact aside rfl rfl (ne_roomUpdate_of_unstored hpc) (ne_roomUpdate_of_unstored hpc')
  | @inserted a seq type t hid htype ht hfk =>
    have htimes : times { w.db with messages := t } r =
        times w.db r ++ if p.roomId = r then [w.now] else [] := by
      rw [times, Table.findMany, (Table.insert_ok ht).2, List.filter_append, List.map_append]
      by_cases hr : p.roomId = r <;>
        simp [times, Table.findMany, CreateMessageParams.row, hr]
    have hnone : updating r (.createMessage p) (.create (.insert a seq)) = none :=
      updating_none fun _ => by rintro ⟨⟩
    by_cases hr : p.roomId = r
    · rw [if_pos hr] at htimes
      refine .inserted htimes rfl ?_ hnone (updating_eq_some.2 ⟨p, rfl, rfl, hr⟩) rfl
      simp only [Db.messageFk, Bool.and_eq_true] at hfk
      obtain ⟨x, hx, hid⟩ := List.any_eq_true.1 hfk.1.1.1
      exact List.find?_isSome.2 ⟨x, hx, hr ▸ hid⟩
    · rw [if_neg hr, List.append_nil] at htimes
      exact .aside htimes rfl hnone (by simp [updating, hr])
  | @noted m =>
    by_cases hr : p.roomId = r
    · subst hr
      have hup : updating p.roomId (.createMessage p) (.create (.roomUpdate m)) = some m :=
        updating_eq_some.2 ⟨p, rfl, rfl, rfl⟩
      exact .noted rfl hup (lastMessageAt_set_self (hk m hup)) (updating_none fun _ => by rintro ⟨⟩)
    · exact .aside rfl (lastMessageAt_set_ne fun he => hr he.symm) (by simp [updating, hr])
        (updating_none fun _ => by rintro ⟨⟩)
  | @noRoom m hno =>
    by_cases hr : p.roomId = r
    · obtain ⟨x, hx, hid⟩ := List.find?_isSome.1 (hk m (updating_eq_some.2 ⟨p, rfl, rfl, hr⟩))
      exact absurd (hr ▸ hid) (List.any_eq_false.1 hno x hx)
    · exact .aside rfl rfl (by simp [updating, hr]) (updating_none fun _ => by rintro ⟨⟩)
  | _ => exact aside rfl rfl (fun _ => by rintro ⟨⟩) fun _ => by rintro ⟨⟩

theorem dates_of_step {call : Call} {pc pc' : Pc}
    (hk : ∀ m, updating r call pc = some m → RoomKnown r w.db)
    (h : step cfg json c call w pc = some (w', pc')) : Dates r w call pc w' pc' := by
  rcases step_cases h with ⟨p, pc₁, pc₁', rfl, rfl, rfl, hacts⟩ | ⟨hne, haside⟩
  · exact dates_of_acts hk hacts
  · have hnone : ∀ pc, updating r call pc = none := by
      intro pc
      rw [Option.eq_none_iff_forall_not_mem]
      intro m hm
      obtain ⟨p, hp, -⟩ := updating_eq_some.1 hm
      exact hne p hp
    exact .aside (times_congr haside.log r) (by rw [lastMessageAt, lastMessageAt, haside.rooms])
      (hnone pc) (hnone pc')

/-- Rooms stay, and the clock stands still. -/
theorem roomKnown_of_step {call : Call} {pc pc' : Pc}
    (h : step cfg json c call w pc = some (w', pc')) :
    (RoomKnown r w.db → RoomKnown r w'.db) ∧ w'.now = w.now := by
  rcases step_cases h with ⟨p, pc₁, pc₁', rfl, rfl, rfl, hacts⟩ | ⟨-, haside⟩
  · cases hacts.effect with
    | noted => exact ⟨fun hk => hk.set, rfl⟩
    | _ => exact ⟨id, rfl⟩
  · rw [RoomKnown, RoomKnown, haside.rooms]
    exact ⟨id, haside.now⟩

end Step

/-! ## Oldest first -/

/-- A room has the time of one of its messages, and no message is from the future. -/
structure Dated (r : String) (w : World) : Prop where
  last : ∀ n, lastMessageAt w.db r = some n → n ∈ times w.db r
  past : ∀ t ∈ times w.db r, t ≤ w.now

/-- The message a send is about to note is there, and no older than the last one noted. -/
structure Noting (r : String) (w : World) (m : Message) : Prop where
  room : RoomKnown r w.db
  there : m.createdAt ∈ times w.db r
  newer : ∀ n, lastMessageAt w.db r = some n → n ≤ m.createdAt

def dating (r : String) : Outline World Call Pc where
  glob := Dated r
  own call w pc := ∀ m, updating r call pc = some m → Noting r w m
  apart _ _ _ _ := True

theorem dating_valid {cfg : AppConfig} {json : Json} {r : String} :
    (dating r).Valid (machine cfg json) (OldestFirst r) .top where
  move {c call w pc w' pc'} a := by
    obtain ⟨hroom, hnow⟩ := roomKnown_of_step (r := r) a.step
    have hg : Dated r w := a.glob
    cases dates_of_step (fun m hm => (a.own m hm).room) a.step with
    | aside ht hl _ hpc' =>
      refine ⟨⟨?_, ?_⟩, fun m hm => ?_⟩
      · rw [ht, hl]; exact hg.last
      · rw [ht, hnow]; exact hg.past
      · rw [hpc'] at hm; cases hm
    | @inserted m₀ ht hl hknown _ hpc' hat =>
      refine ⟨⟨fun n hn => ?_, fun t hin => ?_⟩, fun m hm => ?_⟩
      · rw [hl] at hn
        rw [ht]
        exact List.mem_append_left _ (hg.last n hn)
      · rw [ht, List.mem_append, List.mem_singleton] at hin
        rw [hnow]
        rcases hin with hin | rfl
        · exact hg.past t hin
        · exact le_rfl
      · rw [hpc'] at hm
        cases hm
        refine ⟨hknown, ?_, fun n hn => ?_⟩
        · rw [ht, hat]
          exact List.mem_append_right _ (List.mem_singleton_self _)
        · rw [hl] at hn
          rw [hat]
          exact hg.past n (hg.last n hn)
    | @noted m₀ ht hpc hl hpc' =>
      refine ⟨⟨fun n hn => ?_, ?_⟩, fun m hm => ?_⟩
      · rw [hl] at hn
        cases hn
        rw [ht]
        exact (a.own m₀ hpc).there
      · rw [ht, hnow]; exact hg.past
      · rw [hpc'] at hm; cases hm
  keep {c call w pc w' pc' call₂ pc₂} a b := by
    refine ⟨fun m₂ hm₂ => ?_, trivial⟩
    obtain ⟨hroom, hthere, hnewer⟩ := b.own m₂ hm₂
    have hroom' := (roomKnown_of_step a.step).1 hroom
    cases dates_of_step (fun m hm => (a.own m hm).room) a.step with
    | aside ht hl => exact ⟨hroom', by rwa [ht], by rwa [hl]⟩
    | inserted ht hl =>
      exact ⟨hroom', by rw [ht]; exact List.mem_append_left _ hthere, by rwa [hl]⟩
    | @noted m ht hpc hl _ =>
      refine ⟨hroom', by rwa [ht], fun n hn => ?_⟩
      rw [hl] at hn
      cases hn
      exact b.beside m m₂ hpc hm₂
  symm _ := trivial
  env ms {w} hg := by
    have hlater : w.now ≤ ((machine cfg json).env ms w).now := Nat.le_add_right w.now ms
    exact ⟨⟨hg.last, fun t ht => (hg.past t ht).trans hlater⟩,
      fun ho m hm => ⟨(ho m hm).room, (ho m hm).there, (ho m hm).newer⟩⟩

/-! ## Runs -/

section Runs
variable {ι : Type} [DecidableEq ι] {cfg : AppConfig} {json : Json} {calls : ι → Call} {r : String}
  {w : World} {P Q : Pool World Pc ι}

theorem updating_start (r : String) (call : Call) : updating r call (start call) = none := by
  refine updating_none fun m he => ?_
  cases call with
  | createMessage p =>
    have hc := checking_createStart p
    rw [Pc.create.inj he] at hc
    cases hc
  | _ => cases he

theorem dating_run (hlast : lastMessageAt w.db r = newest w.db r)
    (hpast : ∀ t ∈ times w.db r, t ≤ w.now)
    (h : Run (machine cfg json) (OldestFirst r) calls ((machine cfg json).initial calls w) P) :
    (dating r).Holds calls P := by
  have hnone : ∀ i, updating r (calls i) (((machine cfg json).initial calls w).pcs i) = none :=
    fun i => updating_start r (calls i)
  have h0 : (dating r).Holds calls ((machine cfg json).initial calls w) := by
    refine ⟨⟨fun n hn => List.max?_mem (hlast.symm.trans hn), hpast⟩, fun i m hm => ?_,
      fun _ _ _ => trivial⟩
    rw [hnone i] at hm
    cases hm
  exact dating_valid.run (fun _ => Outline.top_holds _ _) h0 h

/-- A message later than the one the room knows of is about to be noted. -/
theorem later_noted (hlast : lastMessageAt w.db r = newest w.db r)
    (hpast : ∀ t ∈ times w.db r, t ≤ w.now)
    (h : Run (machine cfg json) (OldestFirst r) calls ((machine cfg json).initial calls w) P)
    {t : Nat} (ht : t ∈ times P.shared.db r)
    (hlt : ∀ n, lastMessageAt P.shared.db r = some n → n < t) :
    ∃ i m, updating r (calls i) (P.pcs i) = some m ∧ t ≤ m.createdAt := by
  refine h.owed (fun s => t ∈ times s.db r ∧ ∀ n, lastMessageAt s.db r = some n → n < t)
    (fun call pc => ∃ m, updating r call pc = some m ∧ t ≤ m.createdAt) ?_ ?_ ?_ ⟨ht, hlt⟩
  · rintro ⟨hin, hno⟩
    change t ∈ times w.db r at hin
    cases hnew : newest w.db r with
    | none =>
      rw [newest, List.max?_eq_none_iff] at hnew
      rw [hnew] at hin
      cases hin
    | some n =>
      have hle := (List.max?_eq_some_iff.1 hnew).2 t hin
      exact absurd (hno n (hlast.trans hnew)) (Nat.not_lt.2 hle)
  · intro Q i c s' l' hr ha hs hdebt
    obtain ⟨hin, hno⟩ := hdebt
    have hown := (dating_run hlast hpast hr).own i
    cases dates_of_step (fun m hm => (hown m hm).room) hs with
    | aside ht hl hpc _ =>
      refine .inr ⟨⟨ht ▸ hin, fun n hn => hno n (hl.trans hn)⟩, ?_⟩
      rintro ⟨m, hm, -⟩
      rw [hpc] at hm
      cases hm
    | @inserted m ht hl _ hpc hpc' hat =>
      rw [ht, List.mem_append, List.mem_singleton] at hin
      rcases hin with hin | rfl
      · refine .inr ⟨⟨hin, fun n hn => hno n (hl.trans hn)⟩, ?_⟩
        rintro ⟨m, hm, -⟩
        rw [hpc] at hm
        cases hm
      · exact .inl ⟨m, hpc', hat.ge⟩
    | @noted m ht hpc hl _ =>
      have hlt := hno _ hl
      refine .inr ⟨⟨ht ▸ hin, fun n hn => ((hown m hpc).newer n hn).trans_lt hlt⟩, ?_⟩
      rintro ⟨m', hm', hle⟩
      rw [hpc] at hm'
      cases hm'
      exact absurd hlt (Nat.not_lt.2 hle)
  · exact fun _ hd => hd

end Runs

/-- **A room knows when its last message was**, if its sends update it oldest first: its
`lastMessageAt` does not decrease between any two states of a run, and where no send is under way it
is the latest `createdAt` of the room. -/
theorem last_message_at {ι : Type} [DecidableEq ι] (cfg : AppConfig) (json : Json)
    (calls : ι → Call) (r : String) (w : World) (P Q : Pool World Pc ι)
    (hlast : lastMessageAt w.db r = newest w.db r) (hpast : ∀ t ∈ times w.db r, t ≤ w.now)
    (hP : Run (machine cfg json) (OldestFirst r) calls ((machine cfg json).initial calls w) P)
    (hQ : Run (machine cfg json) (OldestFirst r) calls P Q) :
    ((∀ i p, calls i = .createMessage p →
        P.pcs i = start (calls i) ∨ ∃ x, P.pcs i = .create (.done x)) →
      lastMessageAt P.shared.db r = newest P.shared.db r) ∧
    ∀ n, lastMessageAt P.shared.db r = some n →
      ∃ n', lastMessageAt Q.shared.db r = some n' ∧ n ≤ n' := by
  refine ⟨fun hquiet => ?_, fun n hn => ?_⟩
  · have hnone : ∀ i, updating r (calls i) (P.pcs i) = none := by
      intro i
      rw [Option.eq_none_iff_forall_not_mem]
      intro m hm
      obtain ⟨p, hp, hpc, -⟩ := updating_eq_some.1 hm
      rcases hquiet i p hp with h | ⟨x, h⟩
      · rw [h, updating_start] at hm
        cases hm
      · rw [h] at hpc
        cases hpc
    have hcovered :
        ∀ t ∈ times P.shared.db r, ∃ n, lastMessageAt P.shared.db r = some n ∧ t ≤ n := by
      intro t ht
      by_contra hno
      push Not at hno
      obtain ⟨i, m, hm, -⟩ := later_noted hlast hpast hP ht hno
      rw [hnone i] at hm
      cases hm
    have hglob := (dating_run hlast hpast hP).glob
    cases hl : lastMessageAt P.shared.db r with
    | none =>
      have hempty : times P.shared.db r = [] := List.eq_nil_iff_forall_not_mem.2 fun t ht => by
        obtain ⟨n, hn, -⟩ := hcovered t ht
        rw [hl] at hn
        cases hn
      rw [newest, hempty]
      rfl
    | some n =>
      refine (List.max?_eq_some_iff.2 ⟨hglob.last n hl, fun t ht => ?_⟩).symm
      obtain ⟨n', hn', hle⟩ := hcovered t ht
      rw [hl] at hn'
      exact (Option.some.inj hn') ▸ hle
  · induction hQ with
    | refl => exact ⟨n, hn, le_rfl⟩
    | env e _ ih => exact ih
    | @move R i c w' pc' hr ha hs ih =>
      obtain ⟨n₁, hn₁, hle⟩ := ih
      have hown := (dating_run hlast hpast (hP.trans hr)).own i
      cases dates_of_step (fun m hm => (hown m hm).room) hs with
      | aside _ hl => exact ⟨n₁, hl.trans hn₁, hle⟩
      | inserted _ hl => exact ⟨n₁, hl.trans hn₁, hle⟩
      | @noted m _ hpc hl _ => exact ⟨_, hl, hle.trans ((hown m hpc).newer n₁ hn₁)⟩

/-! ### Two sends -/

/-- `OldestFirst` for a schedule of two. -/
def oldestFirstOk (r : String) (calls : Bool → Call) (P : Pool World Pc Bool) (i : Bool) : Bool :=
  (updating r (calls i) (P.pcs i)).all fun m =>
    (updating r (calls !i) (P.pcs !i)).all fun m₂ => decide (m.createdAt ≤ m₂.createdAt)

theorem oldestFirstOk_allows {r : String} {calls : Bool → Call} {P : Pool World Pc Bool} {i : Bool}
    (h : oldestFirstOk r calls P i = true) : (OldestFirst r).allows calls P i := by
  refine ⟨trivial, fun j hj m m₂ hm hm₂ => ?_⟩
  have hnot : j = !i := by cases i <;> cases j <;> simp_all
  rw [hnot] at hm₂
  simpa [oldestFirstOk, hm, hm₂] using h

/-- The first inserts and the second, five milliseconds later. -/
def bothInserted : List (Move Bool Choice Nat) :=
  turns false 5 ++ [turn false { id := "m1" }, .env 5] ++ turns true 3 ++ [turn true { id := "m2" }]

/-- A send notes its message and announces it. -/
def noted (i : Bool) : List (Move Bool Choice Nat) :=
  turn i :: [0, 1, 2].map fun pick => turn i { pick }

def isSent : Pc → Bool
  | .create (.done _) => true
  | _ => false

theorem isSent_eq {pc : Pc} (h : isSent pc = true) : ∃ x, pc = .create (.done x) := by
  unfold isSent at h
  split at h
  · exact ⟨_, rfl⟩
  · cases h

theorem last_message_at_r1 : ∃ P, Run (machine {} noJson) (OldestFirst "r1") twoTexts
      ((machine {} noJson).initial twoTexts worldR1) P ∧
    newest P.shared.db "r1" = some 5 ∧
      lastMessageAt P.shared.db "r1" = newest P.shared.db "r1" := by
  have hexec : ((machine {} noJson).exec (oldestFirstOk "r1" twoTexts) twoTexts
      ((machine {} noJson).initial twoTexts worldR1)
      (bothInserted ++ noted false ++ noted true)).any (fun P =>
        isSent (P.pcs false) && isSent (P.pcs true) &&
          newest P.shared.db "r1" == some 5) = true := by
    decide
  obtain ⟨P, hrun, hP⟩ := Machine.exec_reaches (D := OldestFirst "r1") oldestFirstOk_allows hexec
  simp only [Bool.and_eq_true, beq_iff_eq] at hP
  refine ⟨P, hrun, hP.2, (last_message_at {} noJson twoTexts "r1" worldR1 P P rfl
    (fun _ h => nomatch h) hrun .refl).1 fun i p _ => .inr ?_⟩
  cases i
  · exact isSent_eq hP.1.1
  · exact isSent_eq hP.1.2

/-- **A last message lost.** The send that inserts first updates the room last. -/
theorem last_message_lost : ¬ ∀ (ι : Type) [DecidableEq ι] (cfg : AppConfig) (json : Json)
    (calls : ι → Call) (r : String) (w : World) (P Q : Pool World Pc ι),
    lastMessageAt w.db r = newest w.db r → (∀ t ∈ times w.db r, t ≤ w.now) →
    Run (machine cfg json) Discipline.free calls ((machine cfg json).initial calls w) P →
    Run (machine cfg json) Discipline.free calls P Q →
    ((∀ i p, calls i = .createMessage p →
        P.pcs i = start (calls i) ∨ ∃ x, P.pcs i = .create (.done x)) →
      lastMessageAt P.shared.db r = newest P.shared.db r) ∧
    ∀ n, lastMessageAt P.shared.db r = some n →
      ∃ n', lastMessageAt Q.shared.db r = some n' ∧ n ≤ n' := by
  intro h
  have hexec : ((machine {} noJson).exec always twoTexts
      ((machine {} noJson).initial twoTexts worldR1)
      (bothInserted ++ noted true ++ noted false)).any (fun P =>
        isSent (P.pcs false) && isSent (P.pcs true) &&
          lastMessageAt P.shared.db "r1" != newest P.shared.db "r1") = true := by decide
  obtain ⟨P, hrun, hP⟩ := Machine.exec_reaches_free hexec
  simp only [Bool.and_eq_true, bne_iff_ne] at hP
  refine hP.2 ((h Bool {} noJson twoTexts "r1" worldR1 P P rfl (fun _ h => nomatch h) hrun .refl).1
    fun i p _ => .inr ?_)
  cases i
  · exact isSent_eq hP.1.1
  · exact isSent_eq hP.1.2

end Intaktok.Messages
