import Intaktok.Messages.Idempotency
/-
# Retrying a send whose awaits fail

A client repeats a send with its key until it is acknowledged. The retry is answered from the row
(`messages.service.ts:97`), whatever has become of the attempt that stored it: if that one broke
off before `room.update` or `emitCreated`, nobody makes up for it. `announced_unless_late` says
that this is the only way: as long as no attempt fails once its row is stored, whatever is
acknowledged has been announced. What is stored and not announced is a debt of the attempt that
stored it (`Run.owed`).
-/

namespace Intaktok.Messages

open Interleave Tables

/-! ## The machine with failing awaits -/

/-- A failing await makes the call reject. -/
def Pc.fail : Pc → Option Pc
  | .create (.done _) | .read (.done _) | .delete (.done _) => none
  | .create _ => some (.create (.done (.error .connection)))
  | .read _ => some (.read (.done (.error .connection)))
  | .delete _ => some (.delete (.done (.error .connection)))

/-- An action that fails in its await emits nothing. -/
def unemitted (w w' : World) : World := { w' with events := w.events }

def failing (cfg : AppConfig) (json : Json) (may : Call → Pc → Bool) :
    Machine World Call Pc (Outcome Choice) Nat :=
  (machine cfg json).faulty Pc.fail unemitted may

/-- A send with the key has its row stored and is not through. -/
def stored (r k : String) : Call → Pc → Bool
  | .createMessage p, .create (.roomUpdate _) | .createMessage p, .create (.fetch _ _) =>
    decide (Keyed r k p)
  | _, _ => false

def Call.keyed (r k : String) : Call → Prop
  | .createMessage p => Keyed r k p
  | _ => False

def Pc.returned : Pc → Prop
  | .create (.done _) => True
  | _ => False

/-- The attempts with the key follow one another. Whatever else is going on, no send takes the
time of the room back. -/
def repeats (r k : String) : Discipline World Call Pc where
  alone call w pc := ∀ p m, call = .createMessage p → pc = .create (.roomUpdate m) → p.roomId = r →
    ∀ room ∈ w.db.rooms.rows, room.id = r → ∀ s, room.lastMessageAt = some s → s ≤ m.createdAt
  beside call _ _ call₂ pc₂ := call.keyed r k → call₂.keyed r k → pc₂ = start call₂ ∨ pc₂.returned

/-! ## What is announced and shown -/

/-- The room has been given a time that is not before `t`. -/
def ShownFrom (w : World) (r : String) (t : Nat) : Prop :=
  ∃ room ∈ w.db.rooms.rows, room.id = r ∧ ∃ s, room.lastMessageAt = some s ∧ t ≤ s

/-- `MESSAGE_CREATED` has been emitted for the message, and the room shows its time or a later
one. -/
def Acknowledged (w : World) (r id : String) (createdAt : Nat) : Prop :=
  (∃ dto ∈ announced w, dto.id = id) ∧ ShownFrom w r createdAt

def KeyRow (r k : String) (x : Message) : Prop := x.roomId = r ∧ x.clientMessageId = some k

/-- `x` is a stored message with the key. -/
def Stored (r k : String) (w : World) (x : Message) : Prop := x ∈ stubs w.db ∧ KeyRow r k x

/-- What an attempt with the key knows when it is about to do `pc`: which checks it has passed and
which row is its own. -/
def Records (r k : String) (p : CreateMessageParams) (w : World) : CreatePc → Prop
  | .lookup k' => k' = k
  | .member => True
  | .roomUpdate m => w.db.rooms.rows.any (·.id == r) = true ∧ Stored r k w (stub m) ∧
      m.type ≠ .SYSTEM
  | .fetch dto _ => ShownFrom w r dto.createdAt ∧ dto.type ≠ .SYSTEM ∧
      ∃ x, Stored r k w x ∧ x.id = dto.id ∧ x.createdAt = dto.createdAt
  | .done (.ok res) =>
      ∃ x, Stored r k w x ∧ x.id = res.message.id ∧ x.createdAt = res.message.createdAt
  | .done (.error _) => True
  | _ => validatePayload p.type p.content p.mediaId = none

def records (r k : String) : Outline World Call Pc where
  glob _ := True
  own call w pc := ∀ p, call = .createMessage p → Keyed r k p → p.isSystem = false ∧
    ∀ pc₁, pc = .create pc₁ → Records r k p w pc₁
  apart _ _ _ _ := True

section Records
variable {r k : String} {p : CreateMessageParams} {w w' : World}

theorem stored_congr (h : stubs w'.db = stubs w.db) (x : Message) :
    Stored r k w' x ↔ Stored r k w x := by
  rw [Stored, h, Stored]

theorem Stored.eq {x y : Message} (hx : Stored r k w x) (hy : Stored r k w y) : x = y :=
  stubs_eq_of_key hx.1 hy.1 (hx.2.1.trans hy.2.1.symm) hx.2.2 hy.2.2

theorem mem_setLastMessageAt {t : Table Room} {id : String} {at_ : Nat} {room : Room} :
    room ∈ (setLastMessageAt t id at_).rows ↔ ∃ x ∈ t.rows,
      (if x.id == id then { x with lastMessageAt := some at_ } else x) = room :=
  Table.mem_updateWhere

/-- Giving a room a time that is not before `t` shows `t`, or what was shown before. -/
theorem shownFrom_setLastMessageAt (id : String) {at_ t : Nat} (h : ShownFrom w r t)
    (hle : id = r → t ≤ at_) :
    ShownFrom { w with db.rooms := setLastMessageAt w.db.rooms id at_ } r t := by
  obtain ⟨room, hroom, hid, s, hs, hts⟩ := h
  refine ⟨_, mem_setLastMessageAt.2 ⟨room, hroom, rfl⟩, ?_⟩
  by_cases hp : (room.id == id) = true
  · rw [if_pos hp]
    exact ⟨hid, at_, rfl, hle ((beq_iff_eq.1 hp).symm.trans hid)⟩
  · rw [if_neg hp]
    exact ⟨hid, s, hs, hts⟩

theorem shownFrom_own {at_ : Nat} (h : w.db.rooms.rows.any (·.id == r) = true) :
    ShownFrom { w with db.rooms := setLastMessageAt w.db.rooms r at_ } r at_ := by
  obtain ⟨room, hroom, hid⟩ := List.any_eq_true.1 h
  refine ⟨_, mem_setLastMessageAt.2 ⟨room, hroom, rfl⟩, ?_⟩
  rw [if_pos hid]
  exact ⟨beq_iff_eq.1 hid, at_, rfl, le_rfl⟩

/-- What an attempt knows lasts while rows and times only grow. -/
theorem Records.mono {pc : CreatePc} (h : Records r k p w pc)
    (hstored : ∀ x, Stored r k w x → Stored r k w' x)
    (hroom : w.db.rooms.rows.any (·.id == r) = true → w'.db.rooms.rows.any (·.id == r) = true)
    (hshown : ∀ t, ShownFrom w r t → ShownFrom w' r t) : Records r k p w' pc := by
  cases pc with
  | roomUpdate m => exact ⟨hroom h.1, hstored _ h.2.1, h.2.2⟩
  | fetch dto got =>
    obtain ⟨hsh, hsys, x, hx, hrest⟩ := h
    exact ⟨hshown _ hsh, hsys, x, hstored x hx, hrest⟩
  | done res =>
    cases res with
    | ok res =>
      obtain ⟨x, hx, hrest⟩ := h
      exact ⟨x, hstored x hx, hrest⟩
    | error e => trivial
  | _ => exact h

theorem records_afterLookup (hclient : p.isSystem = false) : Records r k p w (afterLookup p) := by
  simp [afterLookup, hclient, Records]

theorem records_afterMedia (hv : validatePayload p.type p.content p.mediaId = none) :
    Records r k p w (afterMedia p) := by
  rcases afterMedia_cases p with h | ⟨t, h⟩ <;> rw [h] <;> exact hv

theorem records_afterMember : Records r k p w (afterMember p) := by
  unfold afterMember
  split
  · trivial
  · rename_i hv _; exact hv
  · rename_i hv _; exact records_afterMedia hv

theorem records_start (hk : Keyed r k p) (hclient : p.isSystem = false) :
    Records r k p w (createStart p) := by
  unfold createStart
  split
  · rename_i k' hk'
    have hsome := (truthy_eq_some.1 hk').1
    rw [hk.2] at hsome
    exact (Option.some.inj hsome).symm
  · exact records_afterLookup hclient

/-- A message the key has been found for. -/
theorem stored_of_find {m : Message} (h : findByClientMessageId w.db r k = some m) :
    Stored r k w (stub m) := by
  obtain ⟨hm, hr, hk⟩ := findByClientMessageId_some h
  exact ⟨hm, hr, hk⟩

/-- Each action of an attempt keeps what it knows. -/
theorem CreateActs.records {json : Json} {c : Choice} {pc pc' : CreatePc}
    (h : CreateActs json c p w pc w' pc') (hk : Keyed r k p) (hclient : p.isSystem = false)
    (hrec : Records r k p w pc) : Records r k p w' pc' := by
  obtain ⟨rfl, hkey⟩ := hk
  cases h with
  | found hf =>
    obtain rfl := (hrec : _ = k)
    exact ⟨_, stored_of_find hf, rfl, rfl⟩
  | missed => exact records_afterLookup hclient
  | member => exact records_afterMember
  | owned => exact records_afterMedia hrec
  | inserted hid hcr =>
    obtain ⟨type, t, htype, rfl, ht, rfl, hfk⟩ := createRow_ok hcr
    refine ⟨?_, ⟨?_, rfl, hkey⟩, fun hsys => ?_⟩
    · simp only [Db.messageFk, Bool.and_eq_true] at hfk
      exact hfk.1.1.1
    · rw [stubs_insert ht]
      exact List.mem_append_right _ (List.mem_singleton_self _)
    · have hv : validatePayload p.type p.content p.mediaId = none := hrec
      rw [htype, show type = .SYSTEM from hsys] at hv
      cases hv
  | resyncSet =>
    split
    · exact hrec
    · trivial
  | winner hf =>
    rw [hkey] at hf
    exact ⟨_, stored_of_find hf, rfl, rfl⟩
  | roomUpdate =>
    obtain ⟨hany, hown, hsys⟩ := hrec
    exact ⟨shownFrom_own hany, hsys, _, hown, rfl, rfl⟩
  | @fetch dto got got' hf =>
    rcases emitCreated_cases json dto got' w with ⟨h, hw⟩ | ⟨_, _, _, h⟩ | h
    · rw [h, hw]; exact hrec
    · rw [h]; exact hrec.2.2
    · rw [h]; trivial
  | _ => first | exact hrec | trivial

/-- What an action does to the rooms: the second step of `createMessage` dates its own. -/
theorem CreateActs.rooms {json : Json} {c : Choice} {pc pc' : CreatePc}
    (h : CreateActs json c p w pc w' pc') : w'.db.rooms = w.db.rooms ∨
    ∃ m, pc = .roomUpdate m ∧ pc' = .fetch (serialize m) {} ∧
      w'.db.rooms = setLastMessageAt w.db.rooms p.roomId m.createdAt := by
  cases h.effect with
  | noted => exact .inr ⟨_, rfl, rfl, rfl⟩
  | _ => exact .inl rfl

end Records

/-! ## One action -/

theorem fail_create {pc : CreatePc} {pc' : Pc} (h : (Pc.create pc).fail = some pc') :
    pc' = .create (.done (.error .connection)) := by
  cases pc <;> cases h <;> rfl

theorem fail_eq_create {pc : Pc} {pc₁ : CreatePc} (h : pc.fail = some (.create pc₁)) :
    pc₁ = .done (.error .connection) := by
  unfold Pc.fail at h
  split at h <;> cases h
  rfl

/-- What an action that is none of a send leaves as it is. -/
structure Apart (w w' : World) : Prop where
  log : stubs w'.db = stubs w.db
  rooms : w'.db.rooms = w.db.rooms
  announced : announced w' = announced w

/-- An action of a send, or its failure after the database or Redis has done its part. -/
structure Sends (json : Json) (may : Call → Pc → Bool) (c : Choice) (p : CreateMessageParams)
    (w : World) (pc₁ : CreatePc) (w₁ : World) (pc₂ : CreatePc) (w' : World) (pc' : CreatePc) :
    Prop where
  acts : CreateActs json c p w pc₁ w₁ pc₂
  outcome : w' = w₁ ∧ pc' = pc₂ ∨ w' = unemitted w w₁ ∧ pc' = .done (.error .connection) ∧
    may (.createMessage p) (.create pc₁) = true ∧ may (.createMessage p) (.create pc₂) = true

section Step
variable {cfg : AppConfig} {json : Json} {may : Call → Pc → Bool} {o : Outcome Choice}
  {call : Call} {w w' : World} {pc pc' : Pc} {r k : String}

theorem failing_step (h : (failing cfg json may).step o call w pc = some (w', pc')) :
    (∃ p c pc₁ w₁ pc₂ pc₃, call = .createMessage p ∧ pc = .create pc₁ ∧ pc' = .create pc₃ ∧
      Sends json may c p w pc₁ w₁ pc₂ w' pc₃) ∨
    (w' = w ∧ pc.fail = some pc' ∧ may call pc = true) ∨
    ((∀ p, call ≠ .createMessage p) ∧ Apart w w') := by
  rcases Machine.faulty_step h with ⟨c, hs⟩ | ⟨hfail, hmay, rfl | ⟨c, w₁, pc₂, hs, hmay₂, rfl⟩⟩
  · rcases step_cases hs with ⟨p, pc₁, pc₂, rfl, rfl, rfl, hacts⟩ | ⟨hne, ha⟩
    · exact .inl ⟨p, c, pc₁, _, pc₂, pc₂, rfl, rfl, rfl, hacts, .inl ⟨rfl, rfl⟩⟩
    · exact .inr (.inr ⟨hne, ha.log, ha.rooms, ha.announced⟩)
  · exact .inr (.inl ⟨rfl, hfail, hmay⟩)
  · rcases step_cases hs with ⟨p, pc₁, pc₂, rfl, rfl, rfl, hacts⟩ | ⟨hne, ha⟩
    · exact .inl ⟨p, c, pc₁, w₁, pc₂, _, rfl, rfl, fail_create hfail, hacts,
        .inr ⟨rfl, rfl, hmay, hmay₂⟩⟩
    · exact .inr (.inr ⟨hne, ha.log, ha.rooms, rfl⟩)

section Sends
variable {c : Choice} {p : CreateMessageParams} {w₁ : World} {pc₁ pc₂ pc₃ : CreatePc}

theorem Sends.db (h : Sends json may c p w pc₁ w₁ pc₂ w' pc₃) : w'.db = w₁.db := by
  rcases h.outcome with ⟨rfl, -⟩ | ⟨rfl, -⟩ <;> rfl

theorem Sends.announced_mono (h : Sends json may c p w pc₁ w₁ pc₂ w' pc₃) :
    ∀ dto ∈ announced w, dto ∈ announced w' := by
  intro dto hdto
  rcases h.outcome with ⟨rfl, -⟩ | ⟨rfl, -⟩
  · rcases h.acts.announces with heq | ⟨_, _, -, -, heq⟩ <;> rw [heq]
    · exact hdto
    · exact List.mem_append_left _ hdto
  · exact hdto

theorem Sends.stored_mono (h : Sends json may c p w pc₁ w₁ pc₂ w' pc₃) {x : Message}
    (hx : Stored r k w x) : Stored r k w' x :=
  ⟨h.db ▸ h.acts.grows.stubs x hx.1, hx.2⟩

theorem Sends.records (h : Sends json may c p w pc₁ w₁ pc₂ w' pc₃) (hk : Keyed r k p)
    (hclient : p.isSystem = false) (hrec : Records r k p w pc₁) : Records r k p w' pc₃ := by
  rcases h.outcome with ⟨rfl, rfl⟩ | ⟨-, rfl, -⟩
  · exact h.acts.records hk hclient hrec
  · trivial

/-- A row that is new is the send's own. -/
theorem Sends.new_row (h : Sends json may c p w pc₁ w₁ pc₂ w' pc₃) {x : Message}
    (hx : Stored r k w' x) : Stored r k w x ∨ Keyed r k p ∧ ∃ m, pc₂ = .roomUpdate m := by
  obtain ⟨hx, hkey⟩ := hx
  rw [h.db] at hx
  rcases h.acts.log with hlog | ⟨a, seq, m, -, rfl, -, hcr, hlog⟩
  · exact .inl ⟨hlog ▸ hx, hkey⟩
  · rw [hlog, List.mem_append, List.mem_singleton] at hx
    rcases hx with hx | rfl
    · exact .inl ⟨hx, hkey⟩
    · obtain ⟨type, t, -, rfl, -⟩ := createRow_ok hcr
      exact .inr ⟨hkey, _, rfl⟩

/-- What the room shows is not taken back. -/
theorem Sends.shown_mono (h : Sends json may c p w pc₁ w₁ pc₂ w' pc₃)
    (hd : (repeats r k).alone (.createMessage p) w (.create pc₁)) {t : Nat}
    (hshown : ShownFrom w r t) : ShownFrom w' r t := by
  have hdb : w'.db.rooms = w₁.db.rooms := congrArg Db.rooms h.db
  obtain ⟨room, hroom, hid, s, hs, hts⟩ := hshown
  rcases h.acts.rooms with hrooms | ⟨m, rfl, -, hrooms⟩
  · exact ⟨room, by rw [hdb, hrooms]; exact hroom, hid, s, hs, hts⟩
  · have hle : p.roomId = r → t ≤ m.createdAt := fun hr =>
      hts.trans (hd p m rfl rfl hr room hroom hid s hs)
    obtain ⟨room', hroom', hrest⟩ :=
      shownFrom_setLastMessageAt p.roomId ⟨room, hroom, hid, s, hs, hts⟩ hle
    exact ⟨room', by rw [hdb, hrooms]; exact hroom', hrest⟩

theorem Sends.room_mono (h : Sends json may c p w pc₁ w₁ pc₂ w' pc₃)
    (hany : w.db.rooms.rows.any (·.id == r) = true) : w'.db.rooms.rows.any (·.id == r) = true := by
  rw [h.db, h.acts.grows.rooms]
  exact hany

end Sends

/-- What is stored, shown or announced stays so. -/
structure Lasts (r k : String) (w w' : World) : Prop where
  stored : ∀ x, Stored r k w x → Stored r k w' x
  room : w.db.rooms.rows.any (·.id == r) = true → w'.db.rooms.rows.any (·.id == r) = true
  shown : ∀ t, ShownFrom w r t → ShownFrom w' r t
  announced : ∀ dto ∈ announced w, dto ∈ Messages.announced w'

theorem failing_lasts (hd : (repeats r k).alone call w pc)
    (h : (failing cfg json may).step o call w pc = some (w', pc')) : Lasts r k w w' := by
  rcases failing_step h with ⟨p, c, pc₁, w₁, pc₂, pc₃, rfl, rfl, rfl, hs⟩ | ⟨rfl, -, -⟩ | ⟨-, ha⟩
  · exact ⟨fun _ => hs.stored_mono, hs.room_mono, fun _ => hs.shown_mono hd, hs.announced_mono⟩
  · exact ⟨fun _ => id, id, fun _ => id, fun _ => id⟩
  · exact ⟨fun x => (stored_congr ha.log x).2, fun h => by rw [ha.rooms]; exact h,
      fun t ht => by rw [ShownFrom, ha.rooms]; exact ht, fun _ h => by rw [ha.announced]; exact h⟩

/-- What an attempt knows is not disturbed by the others. -/
theorem records_valid : (records r k).Valid (failing cfg json may) (repeats r k) .top where
  move := by
    intro o call w pc w' pc' h
    refine ⟨trivial, fun p hp hk => ⟨(h.own p hp hk).1, fun pc₄ hpc₄ => ?_⟩⟩
    obtain ⟨hclient, hown⟩ := h.own p hp hk
    rcases failing_step h.step with ⟨p', c, pc₁, w₁, pc₂, pc₃, rfl, rfl, rfl, hs⟩ |
      ⟨-, hfail, -⟩ | ⟨hne, -⟩
    · cases hp
      cases hpc₄
      exact hs.records hk hclient (hown pc₁ rfl)
    · subst hpc₄
      rw [fail_eq_create hfail]
      trivial
    · exact absurd hp (hne p)
  keep := by
    intro o call w pc w' pc' call₂ pc₂ h hw
    refine ⟨fun p hp hk => ⟨(hw.own p hp hk).1, fun pc₁ hpc₁ => ?_⟩, trivial⟩
    have hl := failing_lasts h.alone h.step
    exact ((hw.own p hp hk).2 pc₁ hpc₁).mono hl.stored hl.room hl.shown
  symm _ := trivial
  env _ {_} _ := ⟨trivial, fun hown p hp hk => ⟨(hown p hp hk).1, fun pc₁ hpc₁ =>
    ((hown p hp hk).2 pc₁ hpc₁).mono (fun _ => id) id fun _ => id⟩⟩

theorem Acknowledged.mono {id : String} {t : Nat} (h : Acknowledged w r id t)
    (hl : Lasts r k w w') : Acknowledged w' r id t := by
  obtain ⟨⟨dto, hdto, hid⟩, hshown⟩ := h
  exact ⟨⟨dto, hl.announced dto hdto, hid⟩, hl.shown t hshown⟩

end Step

/-! ## Runs -/

/-- Something with the key is stored and not announced, or not shown. -/
def Debt (r k : String) (w : World) : Prop :=
  ∃ x, Stored r k w x ∧ ¬ Acknowledged w r x.id x.createdAt

/-- A send with the key that is about to do what `stored` says works on its own row. -/
theorem stored_cases {r k : String} {p : CreateMessageParams} {pc : CreatePc}
    (h : stored r k (.createMessage p) (.create pc) = true) :
    Keyed r k p ∧ ((∃ m, pc = .roomUpdate m) ∨ ∃ dto got, pc = .fetch dto got) := by
  cases pc with
  | roomUpdate m => exact ⟨of_decide_eq_true h, .inl ⟨m, rfl⟩⟩
  | fetch dto got => exact ⟨of_decide_eq_true h, .inr ⟨dto, got, rfl⟩⟩
  | _ => cases h

theorem stored_send {r k : String} {call : Call} {pc : Pc} (h : stored r k call pc = true) :
    ∃ p pc₁, call = .createMessage p ∧ pc = .create pc₁ := by
  unfold stored at h
  split at h
  · exact ⟨_, _, rfl, rfl⟩
  · exact ⟨_, _, rfl, rfl⟩
  · cases h

/-- No attempt fails once its row is stored. -/
def early (r k : String) (call : Call) (pc : Pc) : Bool := !stored r k call pc

/-- A send whose row is stored, and that does not fail, still has its announcement before it or
has made it. -/
theorem Sends.repays {json : Json} {r k : String} {c : Choice} {p : CreateMessageParams}
    {w w₁ w' : World} {pc₁ pc₂ pc₃ : CreatePc} {x : Message}
    (h : Sends json (early r k) c p w pc₁ w₁ pc₂ w' pc₃)
    (howes : stored r k (.createMessage p) (.create pc₁) = true)
    (hrec : Records r k p w pc₁) (hx : Stored r k w x) :
    stored r k (.createMessage p) (.create pc₃) = true ∨ Acknowledged w' r x.id x.createdAt := by
  obtain ⟨hkeyed, hpc⟩ := stored_cases howes
  rcases h.outcome with ⟨rfl, rfl⟩ | ⟨-, -, hmay, -⟩
  · rcases hpc with ⟨m, rfl⟩ | ⟨dto, got, rfl⟩
    · cases h.acts with
      | roomUpdate => exact .inl (decide_eq_true hkeyed)
      | noRoom hno =>
        have hany := hrec.1
        rw [← hkeyed.1, hno] at hany
        cases hany
    · obtain ⟨hshown, hsys, y, hy, hid, hat⟩ := hrec
      cases h.acts with
      | @fetch _ _ got' hf =>
        unfold emitCreated
        split
        · split
          · right
            obtain rfl := hx.eq hy
            exact ⟨⟨dto, by simp [announced, World.emit], hid.symm⟩, hat ▸ hshown⟩
          · rename_i hpreview
            exact absurd hpreview (messagePreview_ne_none hsys)
        · exact .inl (decide_eq_true hkeyed)
  · rw [early, howes] at hmay
    cases hmay

theorem not_stored_of_checking {r k : String} {p : CreateMessageParams} {pc : CreatePc}
    (h : Checking pc) : stored r k (.createMessage p) (.create pc) = false := by
  cases h <;> rfl

theorem not_stored_start {r k : String} (call : Call) : stored r k call (start call) = false := by
  cases call with
  | createMessage p => exact not_stored_of_checking (checking_createStart p)
  | _ => rfl

/-- While an attempt acts, no other one is between its row and its announcement. -/
theorem not_stored_beside {ι : Type} {calls : ι → Call} {r k : String} {Q : Pool World Pc ι}
    {i j : ι} (ha : (repeats r k).allows calls Q i) (hkeyed : (calls i).keyed r k) (hne : j ≠ i) :
    stored r k (calls j) (Q.pcs j) = false := by
  by_contra h
  have howes := eq_true_of_ne_false h
  obtain ⟨p, pc, hp, hpc⟩ := stored_send howes
  rw [hp, hpc] at howes
  obtain ⟨hk, hcases⟩ := stored_cases howes
  rcases ha.2 j hne hkeyed (by rw [hp]; exact hk) with hidle | hret
  · rw [← hpc, ← hp, hidle, not_stored_start] at howes
    cases howes
  · rw [hpc] at hret
    rcases hcases with ⟨m, rfl⟩ | ⟨dto, got, rfl⟩ <;> exact hret.elim

section Runs
variable {ι : Type} [DecidableEq ι] {cfg : AppConfig} {json : Json} {calls : ι → Call}
  {w₀ : World} {r k : String} {P : Pool World Pc ι}

theorem records_run {may : Call → Pc → Bool}
    (hclient : ∀ i p, calls i = .createMessage p → Keyed r k p → p.isSystem = false)
    (hrun : Run (failing cfg json may) (repeats r k) calls ((failing cfg json may).initial calls w₀)
      P) : (records r k).Holds calls P := by
  refine records_valid.run (fun {Q} _ => Outline.top_holds calls Q) ⟨trivial, ?_, ?_⟩ hrun
  · refine fun i p hp hk => ⟨hclient i p hp hk, fun pc₁ hpc => ?_⟩
    have hstart : start (calls i) = .create pc₁ := hpc
    rw [hp] at hstart
    cases hstart
    exact records_start hk (hclient i p hp hk)
  · exact fun _ _ _ => trivial

/-- What is stored and not announced is owed by an attempt that is not through. -/
theorem debt_owed (hclient : ∀ i p, calls i = .createMessage p → Keyed r k p → p.isSystem = false)
    (hnew : ∀ m ∈ w₀.db.messages.rows, m.roomId = r → m.clientMessageId ≠ some k)
    (hrun : Run (failing cfg json (early r k)) (repeats r k) calls
      ((failing cfg json (early r k)).initial calls w₀) P) :
    Debt r k P.shared → ∃ i, stored r k (calls i) (P.pcs i) = true := by
  refine hrun.owed (Debt r k) (fun call pc => stored r k call pc = true) ?_ ?_ ?_
  · rintro ⟨x, ⟨hx, hr, hk⟩, -⟩
    obtain ⟨m, hm, rfl⟩ := List.mem_map.1 hx
    exact absurd hk (hnew m hm hr)
  · rintro Q i o w' pc' hQ ha hs ⟨x, hx, hnot⟩
    have hown := (records_run hclient hQ).own i
    have hstill : Stored r k Q.shared x → Debt r k Q.shared := fun hold =>
      ⟨x, hold, fun hack => hnot (hack.mono (failing_lasts ha.1 hs))⟩
    rcases failing_step hs with ⟨p, c, pc₁, w₁, pc₂, pc₃, hcall, hpc, rfl, hsend⟩ |
      ⟨rfl, -, hmay⟩ | ⟨hne, hapart⟩
    · rw [hcall, hpc]
      rcases hsend.new_row hx with hold | ⟨hkeyed, m, rfl⟩
      · by_cases howes : stored r k (.createMessage p) (.create pc₁) = true
        · have hrec := (hown p hcall (stored_cases howes).1).2 pc₁ hpc
          exact .inl ((hsend.repays howes hrec hold).resolve_right hnot)
        · exact .inr ⟨hstill hold, howes⟩
      · rcases hsend.outcome with ⟨-, rfl⟩ | ⟨-, -, -, hmay⟩
        · exact .inl (decide_eq_true hkeyed)
        · simp [early, stored, hkeyed] at hmay
    · exact .inr ⟨hstill hx, by simpa [early] using hmay⟩
    · refine .inr ⟨hstill ((stored_congr hapart.log x).1 hx), fun h => ?_⟩
      obtain ⟨p, -, hp, -⟩ := stored_send h
      exact hne p hp
  · exact fun e h => h

/-- **Acknowledged means announced.** Any await of any call may fail; but no attempt with the key
fails once its row is stored. Whenever an attempt has returned a message, `MESSAGE_CREATED` has
been emitted for it, and the room shows its time or a later one. -/
theorem announced_unless_late (cfg : AppConfig) (json : Json) (calls : ι → Call) (w₀ : World)
    (r k : String)
    (hclient : ∀ i p, calls i = .createMessage p → Keyed r k p → p.isSystem = false)
    (hnew : ∀ m ∈ w₀.db.messages.rows, m.roomId = r → m.clientMessageId ≠ some k)
    (hrun : Run (failing cfg json (early r k)) (repeats r k) calls
      ((failing cfg json (early r k)).initial calls w₀) P) :
    ∀ i p res, calls i = .createMessage p → Keyed r k p →
      P.pcs i = .create (.done (.ok res)) →
      Acknowledged P.shared r res.message.id res.message.createdAt := by
  refine hrun.invariant (fun Q : Pool World Pc ι => ∀ i p res, calls i = .createMessage p →
    Keyed r k p → Q.pcs i = .create (.done (.ok res)) →
    Acknowledged Q.shared r res.message.id res.message.createdAt) ?_ ?_ fun e h => h
  · intro i p res hcall _ hpc
    have hstart : start (calls i) = .create (.done (.ok res)) := hpc
    rw [hcall] at hstart
    have hc := checking_createStart p
    rw [show createStart p = .done (.ok res) from Pc.create.inj hstart] at hc
    cases hc
  · intro Q i o w' pc' hQ hack ha hs j p res hcall hkeyed hpc
    have hnext := hQ.move ha hs
    by_cases hj : j = i
    · subst hj
      -- the row the result was read from
      obtain ⟨x, hx, hid, hat⟩ := ((records_run hclient hnext).own j p hcall hkeyed).2 _ hpc
      rw [← hid, ← hat]
      by_contra hnot
      obtain ⟨i', howes⟩ := debt_owed hclient hnew hnext ⟨x, hx, hnot⟩
      have hne : i' ≠ j := by rintro rfl; rw [hpc, hcall] at howes; cases howes
      have hidle := not_stored_beside ha (by rw [hcall]; exact hkeyed) hne
      simp only [Function.update_of_ne hne, hidle, Bool.false_eq_true] at howes
    · have hpcQ : Q.pcs j = .create (.done (.ok res)) := by
        rw [← hpc]
        exact (Function.update_of_ne hj ..).symm
      exact (hack j p res hcall hkeyed hpcQ).mono (failing_lasts ha.1 hs)

end Runs

/-! ### An attempt that breaks off -/

/-- Before its start or after its end, for an attempt with the key `k`. -/
def atRest : Pc → Bool
  | .create (.lookup key) => key == "k"
  | .create (.done _) => true
  | _ => false

/-- No room has a time when one is dated. -/
def undated (w : World) : Pc → Bool
  | .create (.roomUpdate _) => w.db.rooms.rows.all (·.lastMessageAt.isNone)
  | _ => true

/-- One attempt at a time. -/
def restful (P : Pool World Pc Bool) (i : Bool) : Bool :=
  atRest (P.pcs !i) && undated P.shared (P.pcs i)

theorem restful_allows {P : Pool World Pc Bool} {i : Bool} (h : restful P i = true) :
    (repeats "r1" "k").allows twice P i := by
  obtain ⟨hrest, hdate⟩ := Bool.and_eq_true_iff.1 h
  refine ⟨fun p m _ hpc _ room hroom _ t ht => ?_, fun j hj _ _ => ?_⟩
  · rw [hpc] at hdate
    have hnone := List.all_eq_true.1 hdate room hroom
    rw [ht] at hnone
    cases hnone
  · obtain rfl : j = !i := by cases i <;> cases j <;> simp_all
    unfold atRest at hrest
    split at hrest
    · rename_i key hpc
      left
      rw [hpc, beq_iff_eq.1 hrest]
      rfl
    · rename_i hpc
      right
      rw [hpc]
      trivial
    · cases hrest

def acknowledges : Pc → Bool
  | .create (.done (.ok _)) => true
  | _ => false

theorem acknowledges_done {pc : Pc} (h : acknowledges pc = true) :
    ∃ res, pc = .create (.done (.ok res)) := by
  unfold acknowledges at h
  split at h
  · exact ⟨_, rfl⟩
  · cases h

/-- The first attempt fails at its lookup; the second one is acknowledged. -/
theorem announced_r1 : ∃ (P : Pool World Pc Bool) (res : CreateMessageResult),
    Run (failing {} noJson (early "r1" "k")) (repeats "r1" "k") twice
      ((failing {} noJson (early "r1" "k")).initial twice worldR1) P ∧
    P.pcs true = .create (.done (.ok res)) ∧
    Acknowledged P.shared "r1" res.message.id res.message.createdAt := by
  let go (c : Choice) : Move Bool (Outcome Choice) Nat := .step true (.answered c)
  have hexec : ((failing {} noJson (early "r1" "k")).exec restful twice
      ((failing {} noJson (early "r1" "k")).initial twice worldR1)
      (.step false .lost :: List.replicate 6 (go {}) ++
        [go { id := "m1" }, go {}, go {}, go { pick := 1 }, go { pick := 2 }])).any
      (fun P => acknowledges (P.pcs true)) = true := by decide
  obtain ⟨P, hrun, hP⟩ := Machine.exec_reaches (D := repeats "r1" "k") restful_allows hexec
  obtain ⟨res, hres⟩ := acknowledges_done hP
  refine ⟨P, res, hrun, hres, ?_⟩
  exact announced_unless_late {} noJson twice worldR1 "r1" "k"
    (fun i p hp _ => by cases hp; rfl) (fun m hm => nomatch hm) hrun true _ res rfl ⟨rfl, rfl⟩ hres

/-- **Acknowledged and never announced.** The first attempt stores its row and fails at
`room.update`; the second one is told that all is well. -/
theorem acknowledged_unannounced : ¬ ∀ (ι : Type) [DecidableEq ι] (cfg : AppConfig) (json : Json)
    (calls : ι → Call) (w₀ : World) (r k : String), k ≠ "" →
    (∀ i p, calls i = .createMessage p → Keyed r k p → p.isSystem = false) →
    (∀ m ∈ w₀.db.messages.rows, m.roomId = r → m.clientMessageId ≠ some k) →
    ∀ P : Pool World Pc ι, Run (failing cfg json fun _ _ => true) (repeats r k) calls
      ((failing cfg json fun _ _ => true).initial calls w₀) P →
    ∀ i p res, calls i = .createMessage p → Keyed r k p →
      P.pcs i = .create (.done (.ok res)) →
      Acknowledged P.shared r res.message.id res.message.createdAt := by
  intro h
  let go (c : Choice) : Move Bool (Outcome Choice) Nat := .step false (.answered c)
  have hexec : ((failing {} noJson fun _ _ => true).exec restful twice
      ((failing {} noJson fun _ _ => true).initial twice worldR1)
      (List.replicate 6 (go {}) ++ [go { id := "m1" }, .step false .lost,
        .step true (.answered {})])).any (fun P => acknowledges (P.pcs true) &&
          (announced P.shared).isEmpty) = true := by decide
  obtain ⟨P, hrun, hP⟩ := Machine.exec_reaches (D := repeats "r1" "k") restful_allows hexec
  rw [Bool.and_eq_true] at hP
  obtain ⟨res, hres⟩ := acknowledges_done hP.1
  obtain ⟨⟨dto, hdto, -⟩, -⟩ := h Bool {} noJson twice worldR1 "r1" "k" (by decide)
    (fun i p hp _ => by cases hp; rfl) (fun m hm => nomatch hm) P hrun true _ res rfl ⟨rfl, rfl⟩
    hres
  rw [List.isEmpty_iff.1 hP.2] at hdto
  cases hdto

end Intaktok.Messages
