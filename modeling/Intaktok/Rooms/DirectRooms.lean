import Mathlib.Data.List.Lex
import Intaktok.Rooms.Enrolment
import Intaktok.Messages.Numbers
/-
# One direct room for a pair

`Room.directKey` is unique, so a pair has one room if the key tells pairs apart
(`pair_of_directKey`). A leave keeps the row of the one who leaves, so who has a row in a room
(`enrolled`) changes only where a room is made or somebody joins a group, and every direct room
keeps the two rows it was made with (`Paired`). `createDirect` comes to the room of its key on each
of its three ways: it finds it, makes it, or has lost the race and finds it then (`Bound`).
-/

namespace Intaktok.Rooms

open Interleave Tables Messages

/-! ## The key of a pair -/

/-- The units of one character. -/
def units (c : Char) : List Nat :=
  if c.toNat < 0x10000 then [c.toNat]
  else [0xD800 + (c.toNat - 0x10000) / 0x400, 0xDC00 + (c.toNat - 0x10000) % 0x400]

theorem utf16_eq (s : String) : utf16 s = s.toList.flatMap units := rfl

theorem units_ne_nil (c : Char) : units c ≠ [] := by
  unfold units
  split <;> exact List.cons_ne_nil _ _

theorem toNat_valid (c : Char) : (c.toNat < 0xD800 ∨ 0xDFFF < c.toNat) ∧ c.toNat < 0x110000 := by
  rcases c.valid with h | h
  · exact ⟨.inl h, Nat.lt_trans h (by decide)⟩
  · exact ⟨.inr h.1, h.2⟩

/-- The first character can be told from the first unit: half of a surrogate pair is none. -/
theorem units_append_inj {c d : Char} {l r : List Nat} (h : units c ++ l = units d ++ r) :
    c = d ∧ l = r := by
  have hinj : c.toNat = d.toNat → c = d := fun he => Char.ext (UInt32.toNat_inj.1 he)
  have hc := toNat_valid c
  have hd := toNat_valid d
  unfold units at h
  split at h <;> split at h <;>
    simp only [List.cons_append, List.nil_append, List.cons.injEq] at h
  · exact ⟨hinj h.1, h.2⟩
  · omega
  · omega
  · exact ⟨hinj (by omega), h.2.2⟩

theorem flatMap_units_inj {cs ds : List Char} (h : cs.flatMap units = ds.flatMap units) :
    cs = ds := by
  induction cs generalizing ds with
  | nil =>
    cases ds with
    | nil => rfl
    | cons d ds => exact absurd (List.append_eq_nil_iff.1 h.symm).1 (units_ne_nil d)
  | cons c cs ih =>
    cases ds with
    | nil => exact absurd (List.append_eq_nil_iff.1 h).1 (units_ne_nil c)
    | cons d ds =>
      obtain ⟨rfl, hrest⟩ := units_append_inj h
      rw [ih hrest]

theorem utf16_inj : Function.Injective utf16 := by
  intro s t h
  rw [utf16_eq, utf16_eq] at h
  exact String.toList_inj.1 (flatMap_units_inj h)

/-- A side without a colon ends at the first one, and the other side is what is left. -/
theorem append_colon_inj {l₁ r₁ l₂ r₂ : List Char} (hl : ':' ∉ l₁) (hr : ':' ∉ r₁)
    (h : l₂ ++ ':' :: r₂ = l₁ ++ ':' :: r₁) : l₂ = l₁ ∧ r₂ = r₁ := by
  induction l₁ generalizing l₂ with
  | nil =>
    cases l₂ with
    | nil => simpa using h
    | cons x xs =>
      simp only [List.cons_append, List.nil_append, List.cons.injEq] at h
      exact absurd (h.2 ▸ by simp) hr
  | cons x xs ih =>
    cases l₂ with
    | nil =>
      simp only [List.cons_append, List.nil_append, List.cons.injEq] at h
      exact absurd (h.1 ▸ List.mem_cons_self) hl
    | cons y ys =>
      simp only [List.cons_append, List.cons.injEq] at h
      obtain ⟨hys, hrs⟩ := ih (fun hin => hl (List.mem_cons_of_mem _ hin)) h.2
      exact ⟨by rw [h.1, hys], hrs⟩

theorem directKey_cases (a b : String) :
    directKey a b = a ++ ":" ++ b ∨ directKey a b = b ++ ":" ++ a := by
  unfold directKey
  split
  · exact .inr rfl
  · exact .inl rfl

theorem sides_of_key {a b c d : String} (ha : ':' ∉ a.toList) (hb : ':' ∉ b.toList)
    (h : c ++ ":" ++ d = a ++ ":" ++ b) : c = a ∧ d = b := by
  have hl := congrArg String.toList h
  simp only [String.toList_append, List.append_assoc] at hl
  obtain ⟨hca, hdb⟩ := append_colon_inj ha hb hl
  exact ⟨String.toList_inj.1 hca, String.toList_inj.1 hdb⟩

/-- No other pair has the key of two users whose ids are free of colons. -/
theorem pair_of_directKey {a b c d : String} (ha : ':' ∉ a.toList) (hb : ':' ∉ b.toList)
    (h : directKey c d = directKey a b) : c = a ∧ d = b ∨ c = b ∧ d = a := by
  rcases directKey_cases a b with hk | hk <;> rw [hk] at h <;>
    rcases directKey_cases c d with hk' | hk' <;> rw [hk'] at h
  · exact .inl (sides_of_key ha hb h)
  · exact .inr (sides_of_key ha hb h).symm
  · exact .inr (sides_of_key hb ha h)
  · exact .inl (sides_of_key hb ha h).symm

/-- The key does not depend on who asks. -/
theorem directKey_comm (a b : String) : directKey a b = directKey b a := by
  by_cases hab : utf16 a = utf16 b
  · rw [utf16_inj hab]
  · unfold directKey
    rcases lt_or_gt_of_ne hab with hlt | hlt
    · rw [if_pos hlt, if_neg (lt_asymm hlt)]
    · rw [if_pos hlt, if_neg (lt_asymm hlt)]

/-! ## Direct rooms keep their two rows -/

/-- Every membership is one of a room, and every room that is direct or has a key is the direct
room of two users: it has their key, and they have the rows. -/
structure Paired (db : Db) : Prop where
  housed : ∀ p ∈ enrolled db.roomMembers, ∃ x ∈ roomStubs db, x.id = p.1
  direct : ∀ x ∈ roomStubs db, x.type = .DIRECT ∨ x.directKey ≠ none → x.type = .DIRECT ∧
    ∃ a b, x.directKey = some (directKey a b) ∧
      ∀ u, (x.id, u) ∈ enrolled db.roomMembers ↔ u = a ∨ u = b

/-- Nobody has a row in a room that does not exist yet. -/
theorem Paired.fresh {db : Db} (h : Paired db) {id : String} (hid : freshRoomId db id = true)
    (u : String) : (id, u) ∉ enrolled db.roomMembers := by
  intro hin
  obtain ⟨x, hx, hxid⟩ := h.housed _ hin
  exact ne_of_freshRoomId hid hx hxid

/-- A new room with its rows, in which everything else is as it was. -/
theorem Paired.grown {db db' : Db} (h : Paired db) {room : Room} (ids : List String)
    (hfresh : freshRoomId db room.id = true)
    (hroom : room.type = .DIRECT ∨ room.directKey ≠ none → room.type = .DIRECT ∧
      ∃ a b, room.directKey = some (directKey a b) ∧ ∀ u, u ∈ ids ↔ u = a ∨ u = b)
    (he : enrolled db'.roomMembers = enrolled db.roomMembers ++ ids.map (room.id, ·))
    (hs : roomStubs db' = roomStubs db ++ [roomStub room]) : Paired db' where
  housed p hp := by
    rw [he, List.mem_append] at hp
    rw [hs]
    rcases hp with hp | hp
    · obtain ⟨x, hx, hid⟩ := h.housed p hp
      exact ⟨x, List.mem_append_left _ hx, hid⟩
    · obtain ⟨u, -, rfl⟩ := List.mem_map.1 hp
      exact ⟨roomStub room, by simp, rfl⟩
  direct x hx hd := by
    rw [hs, List.mem_append, List.mem_singleton] at hx
    rcases hx with hx | rfl
    · obtain ⟨ht, a, b, hk, hiff⟩ := h.direct x hx hd
      refine ⟨ht, a, b, hk, fun u => ?_⟩
      rw [he, List.mem_append, ← hiff, or_iff_left]
      rintro hin
      obtain ⟨v, -, hv⟩ := List.mem_map.1 hin
      exact ne_of_freshRoomId hfresh hx (congrArg Prod.fst hv).symm
    · obtain ⟨ht, a, b, hk, hiff⟩ := hroom hd
      refine ⟨ht, a, b, hk, fun u => ?_⟩
      have hid : (roomStub room).id = room.id := rfl
      rw [hid, he, List.mem_append, or_iff_right (h.fresh hfresh u), ← hiff]
      simp

/-- Whoever joins joins a group. -/
def Grouped (call : Call) (db : Db) (pc : Pc) : Prop :=
  ∀ r a userIds, call = .addMembers r a userIds → pc ≠ .guard → (∀ role, pc ≠ .room role) →
    past pc = false → HasType db r .GROUP

theorem Paired.step {json : Json} {c : Choice} {call : Call} {w w' : World} {pc pc' : Pc}
    (h : Paired w.db) (hg : Grouped call w.db pc)
    (hs : step json c call w pc = some (w', pc')) : Paired w'.db := by
  cases enrols_of_step hs with
  | nobody he hstubs =>
    constructor
    · rw [he, hstubs]; exact h.housed
    · rw [he, hstubs]; exact h.direct
  | @joined r a u userIds head existing todo added hcall hpc he hstubs =>
    subst hcall hpc
    obtain ⟨g, hgin, hgid, htype⟩ := hg r a userIds rfl Pc.noConfusion (fun _ => Pc.noConfusion) rfl
    constructor
    · intro p hp
      rw [he, List.mem_append, List.mem_singleton] at hp
      rw [hstubs]
      rcases hp with hp | rfl
      · exact h.housed p hp
      · exact ⟨g, hgin, hgid⟩
    · intro x hx hd
      rw [hstubs] at hx
      obtain ⟨ht, a, b, hk, hiff⟩ := h.direct x hx hd
      have hne : x.id ≠ r := by
        rintro rfl
        rw [roomStubs_eq_of_id hgin hx hgid, ht] at htype
        cases htype
      exact ⟨ht, a, b, hk, fun v => by rw [he, List.mem_append, ← hiff]; simp [hne]⟩
  | @direct room a b hfresh ht hk he hstubs =>
    exact h.grown [a, b] hfresh (fun _ => ⟨ht, a, b, hk, by simp⟩) he hstubs
  | group ids hfresh ht hk he hstubs =>
    refine h.grown ids hfresh (fun hd => ?_) he hstubs
    simp [ht, hk] at hd

theorem grouped_step {json : Json} {c : Choice} {call : Call} {w w' : World} {pc pc' : Pc}
    (hg : Grouped call w.db pc) (hs : step json c call w pc = some (w', pc')) :
    Grouped call w'.db pc' := by
  rintro r a userIds rfl hguard hroom hpast
  have hbefore : past pc = false := by
    by_contra hp
    have hp' := (step_past hs (by simpa using hp)).2
    rw [hp'] at hpast
    cases hpast
  have hadd : addStep json r a userIds w pc = some (w', pc') := by
    cases pc with
    | tail => cases hbefore
    | _ => exact hs
  have htype : HasType w.db r .GROUP := by
    cases acts_of_addMembers hadd with
    | refused => cases hpast
    | entered hm => exact absurd rfl (hroom _)
    | group ht _ => exact ht
    | _ => exact hg r a userIds rfl Pc.noConfusion (fun _ => Pc.noConfusion) rfl
  obtain ⟨x, hx, hid, ht⟩ := htype
  exact ⟨x, (enrols_of_step hs).stubs_mono hx, hid, ht⟩

/-! ## Three ways to the room -/

/-- The room exists and has the key. -/
def HasKey (db : Db) (r key : String) : Prop :=
  ∃ x ∈ roomStubs db, x.id = r ∧ x.directKey = some key

/-- The view under way is one of the room. -/
def ViewOf (r : String) : ViewPc → Prop
  | .room => True
  | .avatars room _ => room.room.id = r
  | .unread room _ _ => room.room.id = r
  | .done (.ok view) => view.id = r
  | .done (.error e) => ∀ t, e ≠ .uniqueConstraint t

theorem viewOf_built {json : Json} {r : String} {room : RoomWithMembers} (h : room.room.id = r)
    (found : List String) (n : Nat) : ViewOf r (built json room found n) := by
  unfold built buildView
  cases room.last with
  | none => exact h
  | some m =>
    cases hp : (if m.deletedAt.isSome then some "삭제된 메시지입니다."
      else messagePreview json m.type m.content) with
    | none => simp only [hp, Option.map_none]; exact fun _ => Failure.noConfusion
    | some preview => simp only [hp, Option.map_some]; exact h

theorem viewOf_step {json : Json} {r u : String} {w : World} {pc pc' : ViewPc} (h : ViewOf r pc)
    (hs : viewStep json r u w pc = some pc') : ViewOf r pc' := by
  have hafter : ∀ {room : RoomWithMembers} {found : List String}, room.room.id = r →
      ViewOf r (afterAvatars json u room found) := by
    intro room found hid
    unfold afterAvatars
    split
    · exact hid
    · exact viewOf_built hid _ _
  cases pc with
  | room =>
    simp only [viewStep, Option.some.injEq] at hs
    subst hs
    split
    · exact fun _ => Failure.noConfusion
    · rename_i room hl
      obtain ⟨x, hf, rfl⟩ := Option.map_eq_some_iff.1 hl
      have hid : x.id = r := by simpa using (Table.find_some hf).2
      split
      · exact hafter hid
      · exact hid
  | avatars room ids => cases hs; exact hafter h
  | unread room found n => cases hs; exact viewOf_built h _ _
  | done x => cases hs

def Task.isSystem : Task → Bool
  | .system _ _ => true
  | _ => false

/-- What is left of a request about a direct room: nothing is announced in the room, and its view
is on the way or there. -/
structure Homeward (r : String) (tasks : List Task) (result : Option RoomView) : Prop where
  silent : ∀ task ∈ tasks, task.isSystem = false
  shown : result = none → ∃ u, .view u ∈ tasks
  here : ∀ view, result = some view → view.id = r

/-- The task under way is about the room. -/
def TailOf (r : String) : TailPc → Prop
  | .system _ => False
  | .recipients => True
  | .lifecycle _ pc => ViewOf r pc
  | .view pc => ViewOf r pc

/-- What a request knows of the room with the key. -/
inductive Bound (key : String) (db : Db) : Pc → Prop
  | activeUsers : Bound key db .activeUsers
  | directRoom : Bound key db .directRoom
  | insertDirect : Bound key db .insertDirect
  | winner {e r} : HasKey db r key → Bound key db (.winner e)
  | reactivate {r} : HasKey db r key → Bound key db (.reactivate r)
  | tail {r task todo pc result} : HasKey db r key → Homeward r (task :: todo) result →
      TailOf r pc → Bound key db (.tail r task todo pc result)
  | returned {view : RoomView} : HasKey db view.id key → Bound key db (.done (.ok (some view)))
  | failed {e} : (∀ t, e ≠ .uniqueConstraint t) → Bound key db (.done (.error e))

theorem HasKey.mono {db db' : Db} {r key : String} (h : HasKey db r key)
    (hm : ∀ x ∈ roomStubs db, x ∈ roomStubs db') : HasKey db' r key := by
  obtain ⟨x, hx, hid, hk⟩ := h
  exact ⟨x, hm x hx, hid, hk⟩

theorem Bound.mono {key : String} {db db' : Db} {pc : Pc} (h : Bound key db pc)
    (hm : ∀ x ∈ roomStubs db, x ∈ roomStubs db') : Bound key db' pc := by
  cases h with
  | activeUsers => exact .activeUsers
  | directRoom => exact .directRoom
  | insertDirect => exact .insertDirect
  | winner hk => exact .winner (hk.mono hm)
  | reactivate hk => exact .reactivate (hk.mono hm)
  | tail hk ht hp => exact .tail (hk.mono hm) ht hp
  | returned hk => exact .returned (hk.mono hm)
  | failed he => exact .failed he

theorem bound_proceed {json : Json} {key : String} {db : Db} {r : String} {todo : List Task}
    {result : Option RoomView} (hk : HasKey db r key) (h : Homeward r todo result) :
    Bound key db (proceed json r result todo) := by
  cases todo with
  | nil =>
    cases result with
    | none => exact absurd (h.shown rfl).choose_spec (by simp)
    | some view => exact .returned (h.here view rfl ▸ hk)
  | cons task todo =>
    refine .tail hk h ?_
    cases task with
    | system a p => exact absurd (h.silent _ List.mem_cons_self) (by simp [Task.isSystem])
    | lifecycle e recipients => cases recipients <;> trivial
    | view u => trivial

theorem bound_tail {json : Json} {c : Choice} {key r : String} {task : Task} {todo : List Task}
    {result : Option RoomView} {w w' : World} {pc : TailPc} {pc' : Pc} (hk : HasKey w.db r key)
    (h : Homeward r (task :: todo) result) (hp : TailOf r pc)
    (hs : tailStep json c r task todo result w pc = some (w', pc')) : Bound key w.db pc' := by
  have hsilent : ∀ t ∈ todo, t.isSystem = false := fun t ht =>
    h.silent t (List.mem_cons_of_mem _ ht)
  cases move_of_tailStep hs with
  | created => exact hp.elim
  | addressed => exact .tail hk h trivial
  | shows hv | views hv => exact .tail hk h (viewOf_step hp hv)
  | emitted hv =>
    refine bound_proceed hk ⟨hsilent, fun hn => ?_, h.here⟩
    obtain ⟨u, hu⟩ := h.shown hn
    exact ⟨u, (List.mem_cons.1 hu).resolve_left Task.noConfusion⟩
  | viewed hv =>
    exact bound_proceed hk ⟨hsilent, fun hn => (Option.some_ne_none _ hn).elim,
      fun view hview => Option.some.inj hview ▸ viewOf_step hp hv⟩
  | unshown hv | unviewed hv => exact .failed (viewOf_step hp hv)

theorem hasKey_of_find {db : Db} {key : String} {x : Room}
    (h : db.rooms.find (·.directKey == some key) = some x) : HasKey db x.id key := by
  obtain ⟨hx, hk⟩ := Table.find_some h
  exact ⟨roomStub x, roomStub_mem hx, rfl, (by simpa using hk : x.directKey = some key)⟩

theorem HasKey.find {db : Db} {r key : String} (h : HasKey db r key) :
    db.rooms.find (·.directKey == some key) ≠ none := by
  obtain ⟨x, hx, -, hk⟩ := h
  obtain ⟨y, hy, rfl⟩ := List.mem_map.1 hx
  intro hn
  have hno := Table.find_none.1 hn y hy
  have hyk : y.directKey = some key := hk
  simp [hyk] at hno

/-- Only the room of the pair keeps another one from being made. -/
theorem hasKey_of_lost {w : World} {id a b : String} {target : List String} (hp : Paired w.db)
    (hne : a ≠ b) (hfresh : freshRoomId w.db id = true)
    (h : insertRoom (directRow id a b w.now) (directMembers id w.now a b) w =
      .error (.uniqueConstraint target)) : ∃ r, HasKey w.db r (directKey a b) := by
  unfold insertRoom at h
  split at h
  · rename_i hk
    obtain ⟨x, hx, hclash⟩ := Table.violated_some (Table.insert_error hk)
    have hid : id = x.id := by simpa [Row.clash, directRow] using hclash
    exact (ne_of_freshRoomId hfresh (roomStub_mem hx) hid.symm).elim
  · rename_i hk
    obtain ⟨x, hx, hclash⟩ := Table.violated_some (Table.insert_error hk)
    simp only [Row.clash, sameKey, directRow, Bool.and_eq_true, beq_iff_eq] at hclash
    exact ⟨x.id, roomStub x, roomStub_mem hx, rfl, hclash.2.symm⟩
  · obtain ⟨t, ht⟩ := @insertMembers_fresh w.db.roomMembers (directMembers id w.now a b)
      (by simp [directMembers, hne]) (by simp [directMembers, hp.fresh hfresh])
    rw [ht] at h
    simp only at h
    split at h <;> cases h

/-- The call asks for the direct room of `a` with `b`. -/
def Asks (call : Call) (a b : String) : Prop :=
  ∃ dto : CreateRoomDto, call = .createRoom a dto ∧ dto.type = .DIRECT ∧ dto.memberUserIds = [b]

theorem bound_start {a b : String} {call : Call} (h : Asks call a b) (hne : a ≠ b) (key : String)
    (db : Db) : Bound key db (start call) := by
  obtain ⟨dto, rfl, htype, hids⟩ := h
  simp only [start, createStart, htype, hids, if_neg hne.symm]
  exact .activeUsers

theorem bound_step {json : Json} {c : Choice} {call : Call} {a b : String} {w w' : World}
    {pc pc' : Pc} (hcall : Asks call a b) (hne : a ≠ b) (hp : Paired w.db)
    (h : Bound (directKey a b) w.db pc) (hs : step json c call w pc = some (w', pc')) :
    Bound (directKey a b) w'.db pc' := by
  have hmono := fun {x} => (enrols_of_step hs).stubs_mono (x := x)
  obtain ⟨dto, rfl, htype, hids⟩ := hcall
  have hother : dto.otherId = b := by simp [CreateRoomDto.otherId, hids]
  cases h with
  | activeUsers =>
    cases hs
    simp only [htype, hother, orFail]
    split
    · exact .directRoom
    · exact .failed fun _ => Failure.noConfusion
  | directRoom =>
    cases hs
    simp only [hother]
    split
    · rename_i hf; exact .reactivate (hasKey_of_find hf)
    · exact .insertDirect
  | insertDirect =>
    obtain ⟨hfresh, ⟨hins, rfl⟩ | ⟨rfl, e, hins, ⟨⟨t, rfl⟩, rfl⟩ | ⟨he, rfl⟩⟩⟩ :=
      insertDirect_cases hs
    · rw [hother] at hins
      have hk : HasKey w'.db c.id (directKey a b) :=
        ⟨roomStub (directRow c.id a b w.now), by simp [roomStubs_insertRoom hins], rfl, rfl⟩
      refine bound_proceed hk ⟨?_, ?_, nofun⟩
      · simp [Task.isSystem]
      · exact fun _ => ⟨a, List.mem_cons_self⟩
    · rw [hother] at hins
      exact .winner (hasKey_of_lost hp hne hfresh hins).choose_spec
    · exact .failed he
  | winner hk =>
    cases hs
    simp only [hother]
    split
    · rename_i hf; exact .reactivate (hasKey_of_find hf)
    · rename_i hf; exact absurd hf hk.find
  | reactivate hk =>
    have hk' := hk.mono fun _ => hmono
    cases hs
    exact bound_proceed hk' ⟨by simp [Task.isSystem], fun _ => ⟨a, List.mem_cons_self⟩, nofun⟩
  | tail hk ht hpc => exact (bound_tail hk ht hpc hs).mono fun _ => hmono
  | returned _ => cases hs
  | failed _ => cases hs

/-! ## Runs -/

/-- The direct rooms are in order, and every request for one is bound for the room of its key. -/
def pairing : Outline World Call Pc where
  glob w := Paired w.db
  own call w pc := Grouped call w.db pc ∧
    ∀ a b, Asks call a b → a ≠ b → Bound (directKey a b) w.db pc
  apart _ _ _ _ := True

theorem pairing_valid {json : Json} {D : Discipline World Call Pc} :
    pairing.Valid (machine json) D Outline.top where
  move {c call w pc w' pc'} h := by
    obtain ⟨hgroup, hbound⟩ := h.own
    have hp : Paired w.db := h.glob
    exact ⟨hp.step hgroup h.step, grouped_step hgroup h.step, fun a b hcall hne =>
      bound_step hcall hne hp (hbound a b hcall hne) h.step⟩
  keep {c call w pc w' pc' call₂ pc₂} h h₂ := by
    obtain ⟨hgroup, hbound⟩ := h₂.own
    have hmono := fun {x} => (enrols_of_step h.step).stubs_mono (x := x)
    refine ⟨⟨fun r a userIds hcall h₁ h₂ h₃ => ?_, fun a b hcall hne => ?_⟩, trivial⟩
    · obtain ⟨x, hx, hid, ht⟩ := hgroup r a userIds hcall h₁ h₂ h₃
      exact ⟨x, hmono hx, hid, ht⟩
    · exact (hbound a b hcall hne).mono fun _ => hmono
  symm _ := trivial
  env _ {_} h := ⟨h, fun ho => ho⟩

theorem grouped_start (call : Call) (db : Db) : Grouped call db (start call) := by
  rintro r a userIds rfl hguard
  exact absurd rfl hguard

/-- The room is direct and has rows of both, or it has their key. -/
def DirectRoom (db : Db) (a b r : String) : Prop :=
  ∃ x ∈ db.rooms.rows, x.id = r ∧ (x.directKey = some (directKey a b) ∨
    x.type = .DIRECT ∧ a ∈ rowIds db.roomMembers r ∧ b ∈ rowIds db.roomMembers r)

section Pair
variable {db : Db} {a b : String}

/-- A direct room in which both have rows is the one with their key. -/
theorem Paired.hasKey_iff (h : Paired db) (hne : a ≠ b) {r : String} :
    DirectRoom db a b r ↔ HasKey db r (directKey a b) := by
  constructor
  · rintro ⟨x, hx, hid, hk | ⟨ht, ha, hb⟩⟩
    · exact ⟨roomStub x, roomStub_mem hx, hid, hk⟩
    · subst hid
      obtain ⟨-, c, d, hk, hiff⟩ := h.direct _ (roomStub_mem hx) (.inl ht)
      refine ⟨roomStub x, roomStub_mem hx, rfl, hk.trans (congrArg some ?_)⟩
      rcases (hiff a).1 (mem_rowIds.1 ha) with rfl | rfl <;>
        rcases (hiff b).1 (mem_rowIds.1 hb) with rfl | rfl
      · exact absurd rfl hne
      · rfl
      · exact directKey_comm _ _
      · exact absurd rfl hne
  · rintro ⟨y, hy, hid, hk⟩
    obtain ⟨x, hx, rfl⟩ := List.mem_map.1 hy
    exact ⟨x, hx, hid, .inl hk⟩

/-- In it are the rows of the two. -/
theorem Paired.rowIds_perm (h : Paired db) (ha : ':' ∉ a.toList) (hb : ':' ∉ b.toList)
    (hne : a ≠ b) {x : Room} (hx : x ∈ roomStubs db) (hk : x.directKey = some (directKey a b)) :
    x.type = .DIRECT ∧ (rowIds db.roomMembers x.id).Perm [a, b] := by
  obtain ⟨ht, c, d, hk', hiff⟩ := h.direct x hx (.inr (hk ▸ Option.some_ne_none _))
  refine ⟨ht, (List.perm_ext_iff_of_nodup (nodup_rowIds _ _) (by simp [hne])).2 fun u => ?_⟩
  rw [mem_rowIds, hiff]
  rcases pair_of_directKey ha hb (Option.some.inj (hk'.symm.trans hk)) with ⟨rfl, rfl⟩ | ⟨rfl, rfl⟩
  · simp
  · simp [or_comm]

theorem HasKey.unique {db : Db} {key r r' : String} (h : HasKey db r key) (h' : HasKey db r' key) :
    r' = r := by
  obtain ⟨y, hy, rfl, hk⟩ := h
  obtain ⟨z, hz, rfl, hk'⟩ := h'
  obtain ⟨x, hx, rfl⟩ := List.mem_map.1 hy
  obtain ⟨x', hx', rfl⟩ := List.mem_map.1 hz
  have hxk : x.directKey = some key := hk
  have hxk' : x'.directKey = some key := hk'
  have heq : x' = x := db.rooms.unique hx' hx (c := .directKey) (by decide)
    (by simp [Row.clash, sameKey, hxk, hxk'])
  rw [heq]

end Pair

section Runs
variable {ι : Type} [DecidableEq ι] {json : Json} {calls : ι → Call} {w : World} {a b : String}
  {P Q R : Pool World Pc ι}

theorem pairing_run (hp : Paired w.db)
    (hrun : Run (machine json) Discipline.free calls ((machine json).initial calls w) Q) :
    pairing.Holds calls Q := by
  have h0 : pairing.Holds calls ((machine json).initial calls w) :=
    ⟨hp, fun i => ⟨grouped_start (calls i) w.db, fun _ _ hcall hne => bound_start hcall hne _ _⟩,
      fun _ _ _ => trivial⟩
  exact pairing_valid.run (fun _ => Outline.top_holds calls _) h0 hrun

/-- A room is never deleted. -/
theorem stubs_run (hrun : Run (machine json) Discipline.free calls P Q) {x : Room}
    (hx : x ∈ roomStubs P.shared.db) : x ∈ roomStubs Q.shared.db :=
  hrun.invariant (fun Q => x ∈ roomStubs Q.shared.db) hx
    (fun _ hI _ hs => (enrols_of_step hs).stubs_mono hI)
    fun {Q} _ (hI : x ∈ roomStubs Q.shared.db) => hI

/-- What becomes of the direct room of a pair: `Q` is a state on the way to `R`. -/
structure OneRoom (calls : ι → Call) (a b : String) (Q R : Pool World Pc ι) : Prop where
  same : ∀ {r r'}, DirectRoom Q.shared.db a b r → DirectRoom R.shared.db a b r' → r' = r
  rows : ∀ {x}, x ∈ R.shared.db.rooms.rows → DirectRoom R.shared.db a b x.id →
    x.type = .DIRECT ∧ (rowIds R.shared.db.roomMembers x.id).Perm [a, b]
  alone : ∀ {x c d}, x ∈ R.shared.db.rooms.rows → DirectRoom R.shared.db a b x.id →
    x.directKey = some (directKey c d) → c = a ∧ d = b ∨ c = b ∧ d = a
  returned : ∀ {i result}, Asks (calls i) a b ∨ Asks (calls i) b a →
    R.pcs i = .done (.ok result) → ∃ view, result = some view ∧ DirectRoom R.shared.db a b view.id
  accepted : ∀ {i}, Asks (calls i) a b ∨ Asks (calls i) b a →
    ∀ target, R.pcs i ≠ .done (.error (.uniqueConstraint target))

/-- **One direct room for a pair.** Whatever requests overlap, two users have at most one direct
room, which is theirs alone and has one row of each, and whoever asks for it gets it. -/
theorem one_direct_room (ha : ':' ∉ a.toList) (hb : ':' ∉ b.toList) (hne : a ≠ b)
    (hp : Paired w.db)
    (hQ : Run (machine json) Discipline.free calls ((machine json).initial calls w) Q)
    (hR : Run (machine json) Discipline.free calls Q R) : OneRoom calls a b Q R := by
  have holds := pairing_run hp (hQ.trans hR)
  have hpQ : Paired Q.shared.db := (pairing_run hp hQ).glob
  have hpR : Paired R.shared.db := holds.glob
  have hbound : ∀ {i}, Asks (calls i) a b ∨ Asks (calls i) b a →
      Bound (directKey a b) R.shared.db (R.pcs i) := by
    rintro i (hc | hc)
    · exact (holds.own i).2 a b hc hne
    · rw [directKey_comm]; exact (holds.own i).2 b a hc hne.symm
  have hkey : ∀ {x}, x ∈ R.shared.db.rooms.rows → DirectRoom R.shared.db a b x.id →
      x.directKey = some (directKey a b) := by
    intro x hx hd
    obtain ⟨y, hy, hid, hk⟩ := (hpR.hasKey_iff hne).1 hd
    have heq : y = roomStub x := roomStubs_eq_of_id hy (roomStub_mem hx) hid
    rw [heq] at hk
    exact hk
  constructor
  · intro r r' h h'
    have hkQ := ((hpQ.hasKey_iff hne).1 h).mono fun _ hx => stubs_run hR hx
    exact hkQ.unique ((hpR.hasKey_iff hne).1 h')
  · intro x hx hd
    exact @Paired.rowIds_perm _ _ _ hpR ha hb hne (roomStub x) (roomStub_mem hx) (@hkey x hx hd)
  · intro x c d hx hd hk
    exact pair_of_directKey ha hb (Option.some.inj (hk.symm.trans (hkey hx hd)))
  · intro i result hc hdone
    have h := hbound hc
    rw [hdone] at h
    cases h with
    | returned hk => exact ⟨_, rfl, (hpR.hasKey_iff hne).2 hk⟩
  · intro i hc target hdone
    have h := hbound hc
    rw [hdone] at h
    cases h with
    | failed he => exact he target rfl

end Runs

/-- Two users and no room. -/
def strangers : World where
  db.users := usersAB

def direct (other : String) : CreateRoomDto := { type := .DIRECT, memberUserIds := [other] }

/-- Both ask for their room at once, and `b` leaves it. -/
def crossing : Fin 3 → Call
  | 0 => .createRoom "a" (direct "b")
  | 1 => .createRoom "b" (direct "a")
  | 2 => .removeMember "r1" "b" "b"

theorem strangers_paired : Paired strangers.db :=
  ⟨fun _ h => (List.not_mem_nil h).elim, fun _ h => (List.not_mem_nil h).elim⟩

/-- A request for a room has been answered with one. -/
def answered : Pc → Bool
  | .done (.ok (some _)) => true
  | _ => false

/-- `b` has lost the race to `a`, has left the room of `a` meanwhile, and comes back to it. -/
theorem one_direct_room_crossing : ∃ Q R : Pool World Pc (Fin 3),
    OneRoom crossing "a" "b" Q R ∧
    Run (machine noJson) Discipline.free crossing ((machine noJson).initial crossing strangers) R ∧
    Q.shared.db.roomMembers.rows.any (·.leftAt.isSome) = true ∧
    R.shared.db.roomMembers.rows.any (·.leftAt.isSome) = false ∧
    answered (R.pcs 0) = true ∧ answered (R.pcs 1) = true := by
  have hexec : ((machine noJson).exec always crossing ((machine noJson).initial crossing strangers)
      (turns 0 2 ++ turns 1 2 ++ [turn 0 { id := "r1" }] ++ turns 2 4)).any (fun Q =>
        Q.shared.db.roomMembers.rows.any (·.leftAt.isSome) &&
        ((machine noJson).exec always crossing Q
          ([turn 1 { id := "r2" }] ++ turns 1 4 ++ turns 0 4)).any fun R =>
            (!R.shared.db.roomMembers.rows.any (·.leftAt.isSome)) &&
            answered (R.pcs 0) && answered (R.pcs 1)) = true := by decide
  obtain ⟨Q, hQ, hleft⟩ := Machine.exec_reaches_free hexec
  rw [Bool.and_eq_true] at hleft
  obtain ⟨R, hR, hback⟩ := Machine.exec_reaches_free hleft.2
  simp only [Bool.and_eq_true, Bool.not_eq_true'] at hback
  exact ⟨Q, R, one_direct_room (by decide) (by decide) (by decide) strangers_paired hQ hR,
    hQ.trans hR, hleft.1, hback.1.1, hback.1.2, hback.2⟩

end Intaktok.Rooms
