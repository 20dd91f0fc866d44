import Intaktok.Messages.Numbers
/-
# Sending twice with one key

`createMessage` looks its `clientMessageId` up before it does anything else
(`messages.service.ts:97`), and an insert that loses the race for the key comes back to read the
winner (`:114`). While Redis keeps the counter no insert fails for its number, so that a valid
call with the key ends in one of these two ways or is the one that inserts: `sends r k` says what
each call still has to go through, and that at most one of them is past its insert. That there is
one as soon as the row exists is the debt rule (`winner_of_row`). Together: one row, one id for
all, one broadcast (`sent_of_run`).
-/

namespace Intaktok.Messages

open Interleave Tables

/-! ## What stays true of a database -/

theorem stubs_eq_of_id {db : Db} {x y : Message} (hx : x ∈ stubs db) (hy : y ∈ stubs db)
    (h : x.id = y.id) : x = y := by
  obtain ⟨m, hm, rfl⟩ := List.mem_map.1 hx
  obtain ⟨n, hn, rfl⟩ := List.mem_map.1 hy
  rw [messages_eq_of_id hm hn h]

theorem stubs_eq_of_key {db : Db} {x y : Message} {k : String} (hx : x ∈ stubs db)
    (hy : y ∈ stubs db) (hr : x.roomId = y.roomId) (hkx : x.clientMessageId = some k)
    (hky : y.clientMessageId = some k) : x = y := by
  obtain ⟨m, hm, rfl⟩ := List.mem_map.1 hx
  obtain ⟨n, hn, rfl⟩ := List.mem_map.1 hy
  rw [messages_eq_of_clientMessageId hm hn hr hkx hky]

theorem findByClientMessageId_some {db : Db} {r k : String} {m : Message}
    (h : findByClientMessageId db r k = some m) :
    stub m ∈ stubs db ∧ m.roomId = r ∧ m.clientMessageId = some k := by
  obtain ⟨hm, hp⟩ := Table.find_some h
  simp only [Bool.and_eq_true, beq_iff_eq] at hp
  exact ⟨stub_mem hm, hp.1, hp.2⟩

theorem findByClientMessageId_none {db : Db} {r k : String}
    (h : findByClientMessageId db r k = none) :
    ∀ x ∈ stubs db, x.roomId = r → x.clientMessageId ≠ some k := by
  rintro _ hx hr hk
  obtain ⟨m, hm, rfl⟩ := List.mem_map.1 hx
  have hno := Table.find_none.1 h m hm
  rw [show m.clientMessageId = some k from hk, show m.roomId = r from hr] at hno
  simp at hno

theorem assertReplyTarget_none {db : Db} {r t : String} :
    assertReplyTarget db r t = none ↔ ∃ x ∈ stubs db, x.id = t ∧ x.roomId = r := by
  refine ⟨reply_target, ?_⟩
  rintro ⟨_, hx, rfl, rfl⟩
  obtain ⟨m, hm, rfl⟩ := List.mem_map.1 hx
  have hf : db.messages.find (·.id == (stub m).id) = some m :=
    Table.find_eq hm (by simp [stub]) fun y hy hid =>
      messages_eq_of_id hy hm (show y.id = (stub m).id by simpa using hid)
  rw [assertReplyTarget, hf]
  exact if_pos rfl

/-- The tables a send refers to only gain rows. -/
structure Grows (db db' : Db) : Prop where
  stubs : ∀ x ∈ stubs db, x ∈ stubs db'
  active : ∀ r u, assertActiveMember db' r u = assertActiveMember db r u
  rooms : ∀ i, db'.rooms.rows.any (·.id == i) = db.rooms.rows.any (·.id == i)
  users : db'.users = db.users
  media : db'.media = db.media

theorem CreateActs.grows {json : Json} {c : Choice} {p : CreateMessageParams} {w w' : World}
    {pc pc' : CreatePc} (h : CreateActs json c p w pc w' pc') : Grows w.db w'.db := by
  have hmono := h.stubs_mono
  cases h.effect with
  | noted =>
    refine ⟨hmono, fun _ _ => rfl, fun i => ?_, rfl, rfl⟩
    simp only [setLastMessageAt, Table.updateWhere, List.any_map]
    refine congrArg (w.db.rooms.rows.any ·) (funext fun x => ?_)
    simp only [Function.comp_apply]
    split <;> rfl
  | _ => exact ⟨hmono, fun _ _ => rfl, fun _ => rfl, rfl, rfl⟩

theorem Aside.grows {w w' : World} (h : Aside w w') : Grows w.db w'.db :=
  ⟨fun _ hx => h.log ▸ hx, h.active, fun _ => by rw [h.rooms], h.users, h.media⟩

/-- A send the service has no reason to refuse. -/
structure Valid (p : CreateMessageParams) (db : Db) : Prop where
  client : p.isSystem = false
  member : assertActiveMember db p.roomId p.senderId = none
  payload : validatePayload p.type p.content p.mediaId = none
  media : ∀ i, truthy p.mediaId = some i → assertOwnedMedia db i p.senderId = none
  reply : ∀ t, truthy p.replyToId = some t → assertReplyTarget db p.roomId t = none
  refs : ∀ type, db.messageFk (p.row type "" 0 0) = true

theorem Valid.mono {p : CreateMessageParams} {db db' : Db} (h : Valid p db) (hg : Grows db db') :
    Valid p db' where
  client := h.client
  member := by rw [hg.active]; exact h.member
  payload := h.payload
  media i hi := by rw [assertOwnedMedia, hg.media]; exact h.media i hi
  reply t ht := by
    obtain ⟨x, hx, hrest⟩ := assertReplyTarget_none.1 (h.reply t ht)
    exact assertReplyTarget_none.2 ⟨x, hg.stubs x hx, hrest⟩
  refs type := by
    have hfk := h.refs type
    simp only [Db.messageFk, Bool.and_eq_true, hg.rooms, hg.users, hg.media] at hfk ⊢
    refine ⟨hfk.1, ?_⟩
    cases hrep : (p.row type "" 0 0).replyToId with
    | none => rfl
    | some t =>
      rw [hrep] at hfk
      obtain ⟨m, hm, hid⟩ := List.any_eq_true.1 hfk.2
      obtain ⟨y, hy, heq⟩ := List.mem_map.1 (hg.stubs _ (stub_mem hm))
      have hyid : (stub y).id = (stub m).id := congrArg Message.id heq
      exact List.any_eq_true.2 ⟨y, hy, by rwa [show y.id = m.id from hyid]⟩

theorem Valid.type {p : CreateMessageParams} {db : Db} (h : Valid p db) :
    ∃ type, p.type = some type ∧ type ≠ .SYSTEM := by
  have hv := h.payload
  unfold validatePayload at hv
  split at hv
  · rename_i ht; exact ⟨.TEXT, ht, by simp⟩
  · split at hv
    · rename_i ht
      obtain ⟨type, htype, hm⟩ := (Option.any_eq_true _ _).1 ht
      exact ⟨type, htype, by rintro rfl; cases hm⟩
    · cases hv

/-- A valid send whose texts the database takes. -/
structure Storing (p : CreateMessageParams) (db : Db) : Prop extends Valid p db where
  storable : p.storable = true

theorem Storing.mono {p : CreateMessageParams} {db db' : Db} (h : Storing p db)
    (hg : Grows db db') : Storing p db' := ⟨h.toValid.mono hg, h.storable⟩

theorem Storing.not_refused {p : CreateMessageParams} {w : World} {e : Failure}
    (h : Storing p w.db) : ¬ Refused p w e := by
  rintro ⟨ht | htext | ⟨type, ht, hfk⟩, -⟩
  · obtain ⟨type, htype, -⟩ := h.type
    rw [htype] at ht; cases ht
  · rw [h.storable] at htext; cases htext
  · have := h.refs type
    rw [hfk] at this; cases this

theorem messagePreview_ne_none {json : Json} {type : MessageType} {content : Option String}
    (h : type ≠ .SYSTEM) : messagePreview json type content ≠ none := by
  cases type <;> simp_all [messagePreview]

/-! ## Broadcasts -/

/-- How often `MESSAGE_CREATED` has been emitted for the message `id`. -/
def broadcasts (w : World) (id : String) : Nat := (announced w).countP (·.id == id)

/-- Only the end of `emitCreated` broadcasts. -/
theorem CreateActs.announces {json : Json} {c : Choice} {p : CreateMessageParams} {w w' : World}
    {pc pc' : CreatePc} (h : CreateActs json c p w pc w' pc') :
    announced w' = announced w ∨ ∃ dto got, pc = .fetch dto got ∧
      pc' = .done (.ok ⟨dto, false⟩) ∧ announced w' = announced w ++ [dto] := by
  cases h.effect with
  | announced => exact .inr ⟨_, _, rfl, rfl, by simp [announced, World.emit]⟩
  | _ => exact .inl rfl

theorem broadcasts_append {w w' : World} {dto : SerializedMessage} (id : String)
    (h : announced w' = announced w ++ [dto]) :
    broadcasts w' id = broadcasts w id + if dto.id = id then 1 else 0 := by
  simp [broadcasts, h, List.countP_append, List.countP_cons]

/-! ## The calls with one key -/

/-- The row of the call's own key and room that has the id `id`. -/
def OwnRow (p : CreateMessageParams) (w : World) (id : String) : Prop :=
  ∃ x ∈ stubs w.db, x.id = id ∧ x.roomId = p.roomId ∧ x.clientMessageId = p.clientMessageId

/-- A call past its insert works on its own row. -/
def Tracks (p : CreateMessageParams) (w : World) : CreatePc → Prop
  | .roomUpdate m => OwnRow p w m.id
  | .fetch dto _ => OwnRow p w dto.id
  | _ => True

/-- What a valid call with a key still has to do, and what it returns. -/
def Serves (p : CreateMessageParams) (w : World) : CreatePc → Prop
  | .lookup k => p.clientMessageId = some k
  | .media i => truthy p.mediaId = some i
  | .reply t => truthy p.replyToId = some t
  | .winner => ∃ id, OwnRow p w id
  | .roomUpdate m => m.type ≠ .SYSTEM ∧ broadcasts w m.id = 0 ∧
      w.db.rooms.rows.any (·.id == p.roomId) = true
  | .fetch dto _ => dto.type ≠ .SYSTEM ∧ broadcasts w dto.id = 0
  | .done (.ok res) => OwnRow p w res.message.id ∧
      (res.duplicate = false → broadcasts w res.message.id = 1)
  | .done (.error _) => False
  | _ => True

/-- The call has inserted its message itself. -/
def won : CreatePc → Bool
  | .roomUpdate _ | .fetch _ _ | .done (.ok ⟨_, false⟩) => true
  | _ => false

def Keyed (r k : String) (p : CreateMessageParams) : Prop :=
  p.roomId = r ∧ p.clientMessageId = some k

instance (r k : String) (p : CreateMessageParams) : Decidable (Keyed r k p) :=
  inferInstanceAs (Decidable (_ ∧ _))

/-- The call whose insert has used the key. -/
def Winner (r k : String) (call : Call) (pc : Pc) : Prop :=
  ∃ p pc₁, call = .createMessage p ∧ pc = .create pc₁ ∧ Keyed r k p ∧ won pc₁ = true

def sends (r k : String) : Outline World Call Pc where
  glob w := ∀ m ∈ announced w, ∃ x ∈ stubs w.db, x.id = m.id
  own call w pc := ∀ p pc₁, call = .createMessage p → pc = .create pc₁ →
    Tracks p w pc₁ ∧ (Keyed r k p → Storing p w.db ∧ Serves p w pc₁)
  apart call pc call₂ pc₂ := Winner r k call pc → ¬ Winner r k call₂ pc₂

theorem OwnRow.mono {p : CreateMessageParams} {w w' : World} {id : String} (h : OwnRow p w id)
    (hs : ∀ x ∈ stubs w.db, x ∈ stubs w'.db) : OwnRow p w' id :=
  let ⟨x, hx, hrest⟩ := h; ⟨x, hs x hx, hrest⟩

theorem Tracks.mono {p : CreateMessageParams} {w w' : World} {pc : CreatePc} (h : Tracks p w pc)
    (hs : ∀ x ∈ stubs w.db, x ∈ stubs w'.db) : Tracks p w' pc := by
  cases pc with
  | roomUpdate m => exact OwnRow.mono h hs
  | fetch dto got => exact OwnRow.mono h hs
  | _ => trivial

/-- The row inserted is the own row of the call. -/
theorem ownRow_of_createRow {p : CreateMessageParams} {id : String} {seq : Nat} {w w' : World}
    {m : Message} (h : createRow p id seq w = .ok (w', m)) : OwnRow p w' m.id := by
  obtain ⟨type, t, -, rfl, ht, rfl, -⟩ := createRow_ok h
  exact ⟨stub (p.row type id seq w.now), by simp [stubs_insert ht], rfl, rfl, rfl⟩

theorem tracks_of_checking {p : CreateMessageParams} {w : World} {pc : CreatePc}
    (h : Checking pc) : Tracks p w pc := by
  cases h <;> trivial

theorem CreateActs.tracks {json : Json} {c : Choice} {p : CreateMessageParams} {w w' : World}
    {pc pc' : CreatePc} (h : CreateActs json c p w pc w' pc') (ht : Tracks p w pc) :
    Tracks p w' pc' := by
  cases h with
  | missed => exact tracks_of_checking (checking_afterLookup p)
  | owned => exact tracks_of_checking (checking_afterMedia p)
  | member =>
    rcases checking_afterMember p with h | ⟨e, h⟩
    · exact tracks_of_checking h
    · rw [h]; trivial
  | inserted hid hcr => exact ownRow_of_createRow hcr
  | resyncSet => split <;> trivial
  | roomUpdate => exact OwnRow.mono ht fun _ h => h
  | @fetch dto got got' hf =>
    rcases emitCreated_cases json dto got' w with ⟨h, hw⟩ | ⟨_, _, _, h⟩ | h
    · rw [h, hw]; exact ht
    · rw [h]; trivial
    · rw [h]; trivial
  | _ => trivial

/-- Broadcasts of another message, and new rows, leave what a call has to do as it is. -/
theorem Serves.mono {p : CreateMessageParams} {w w' : World} {pc : CreatePc} (h : Serves p w pc)
    (hg : Grows w.db w'.db)
    (hb : won pc = true → ∀ id, OwnRow p w id → broadcasts w' id = broadcasts w id)
    (ht : Tracks p w pc) : Serves p w' pc := by
  cases pc with
  | winner => obtain ⟨id, hid⟩ := h; exact ⟨id, hid.mono hg.stubs⟩
  | roomUpdate m => exact ⟨h.1, by rw [hb rfl _ ht]; exact h.2.1, by rw [hg.rooms]; exact h.2.2⟩
  | fetch dto got => exact ⟨h.1, by rw [hb rfl _ ht]; exact h.2⟩
  | done x =>
    rcases x with e | ⟨dto, dup⟩
    · exact h.elim
    · refine ⟨h.1.mono hg.stubs, fun hd => ?_⟩
      obtain rfl : dup = false := hd
      rw [hb rfl _ h.1]; exact h.2 rfl
  | _ => exact h

/-- Nothing has been broadcast for an id that no message has. -/
theorem broadcasts_fresh {w : World} {id : String}
    (hg : ∀ m ∈ announced w, ∃ x ∈ stubs w.db, x.id = m.id) (hid : freshId w.db id = true) :
    broadcasts w id = 0 := by
  simp only [freshId, Bool.and_eq_true, Bool.not_eq_true', List.any_eq_false] at hid
  refine List.countP_eq_zero.2 fun m hm heq => ?_
  obtain ⟨x, hx, hxid⟩ := hg m hm
  obtain ⟨y, hy, rfl⟩ := List.mem_map.1 hx
  have hyid : y.id = m.id := hxid
  refine hid.2 y hy ?_
  rw [beq_iff_eq] at heq ⊢
  exact hyid.trans heq

/-- A row that has just been inserted has still to be broadcast. -/
theorem serves_inserted {p : CreateMessageParams} {w w' : World} {id : String} {seq : Nat}
    {m : Message} (hv : Storing p w.db) (hg : ∀ m ∈ announced w, ∃ x ∈ stubs w.db, x.id = m.id)
    (hid : freshId w.db id = true) (hcr : createRow p id seq w = .ok (w', m)) :
    Serves p w' (.roomUpdate m) := by
  have hnone := broadcasts_fresh hg hid
  obtain ⟨type, t, htype, rfl, -, rfl, hfk⟩ := createRow_ok hcr
  obtain ⟨type', htype', hsys⟩ := hv.type
  refine ⟨?_, hnone, ?_⟩
  · rw [htype] at htype'
    cases htype'
    exact hsys
  · simp only [Db.messageFk, Bool.and_eq_true] at hfk
    exact hfk.1.1.1

/-- Each action of a valid call with the key brings it closer to its end. -/
theorem CreateActs.serves {json : Json} {c : Choice} {p : CreateMessageParams} {w w' : World}
    {pc pc' : CreatePc} {k : String} (h : CreateActs json c p w pc w' pc')
    (hk : p.clientMessageId = some k) (hv : Storing p w.db) (hnum : Numbered p.roomId w pc)
    (hc : CounterOk p.roomId w) (hg : ∀ m ∈ announced w, ∃ x ∈ stubs w.db, x.id = m.id)
    (ht : Tracks p w pc) (hs : Serves p w pc) : Serves p w' pc' := by
  have afterMedia : Serves p w (Messages.afterMedia p) := by
    unfold Messages.afterMedia
    split
    · rename_i t h; exact h
    · trivial
  cases h with
  | found hf =>
    obtain ⟨hm, hr, hkey⟩ := findByClientMessageId_some hf
    exact ⟨⟨_, hm, rfl, hr, hkey.trans (hs : p.clientMessageId = _).symm⟩, fun h => nomatch h⟩
  | missed => rcases afterLookup_cases p with h | h <;> rw [h] <;> trivial
  | notMember he => rw [hv.member] at he; cases he
  | member =>
    unfold afterMember
    rw [hv.payload]
    split
    · rename_i h; cases h
    · rename_i i _ h; exact h
    · exact afterMedia
  | notOwned he => rw [hv.media _ hs] at he; cases he
  | owned => exact afterMedia
  | noTarget he => rw [hv.reply _ hs] at he; cases he
  | noNumber hno =>
    obtain ⟨w', n, hi⟩ := World.incr_some fun v hv' =>
      let ⟨n, hn, _⟩ := hc.ahead v hv'; ⟨n, hn⟩
    rw [hno] at hi; cases hi
  | inserted hid hcr => exact serves_inserted hv hg hid hcr
  | refused href => exact hv.not_refused href
  | @keyTaken a seq k' hk' hf =>
    obtain ⟨m, hm⟩ := Option.isSome_iff_exists.1 hf
    obtain ⟨hmem, hr, hkey⟩ := findByClientMessageId_some hm
    exact ⟨m.id, _, hmem, rfl, hr, hkey.trans hk'.symm⟩
  | resyncMax | resyncSet => exact hnum.elim
  | @winner m hf =>
    rw [hk, Option.bind_some] at hf
    obtain ⟨hmem, hr, hkey⟩ := findByClientMessageId_some hf
    exact ⟨⟨_, hmem, rfl, hr, hkey.trans hk.symm⟩, fun h => nomatch h⟩
  | noWinner hf =>
    obtain ⟨id, x, hx, -, hr, hkey⟩ := hs
    rw [hk, Option.bind_some] at hf
    exact findByClientMessageId_none hf x hx hr (hkey.trans hk)
  | roomUpdate => exact ⟨hs.1, hs.2.1⟩
  | noRoom hno => rw [hs.2.2] at hno; cases hno
  | @fetch dto got got' hf =>
    have hpre : messagePreview json dto.type dto.content ≠ none := messagePreview_ne_none hs.1
    unfold emitCreated
    split
    · split
      · refine ⟨OwnRow.mono ht fun _ h => h, fun _ => ?_⟩
        rw [@broadcasts_append w _ dto dto.id (by simp [announced, World.emit]), hs.2]
        simp
      · rename_i hnone; exact absurd hnone hpre
    · exact hs
  | _ => trivial

theorem not_won_of_checking {pc : CreatePc} (h : Checking pc) : won pc = false := by
  cases h <;> rfl

/-- A call wins the key by inserting its row, and only if nobody has done so before. -/
theorem CreateActs.wins {json : Json} {c : Choice} {p : CreateMessageParams} {w w' : World}
    {pc pc' : CreatePc} (h : CreateActs json c p w pc w' pc') (hw : won pc' = true) :
    won pc = true ∨ ∃ a seq m, pc = .insert a seq ∧ createRow p c.id seq w = .ok (w', m) := by
  cases h with
  | missed => rw [not_won_of_checking (checking_afterLookup p)] at hw; cases hw
  | owned => rw [not_won_of_checking (checking_afterMedia p)] at hw; cases hw
  | member =>
    rcases checking_afterMember p with h | ⟨e, h⟩
    · rw [not_won_of_checking h] at hw; cases hw
    · rw [h] at hw; cases hw
  | inserted hid hcr => exact .inr ⟨_, _, _, rfl, hcr⟩
  | resyncSet => split at hw <;> cases hw
  | roomUpdate | noRoom | fetch => exact .inl rfl
  | _ => cases hw

theorem winner_iff {r k : String} {p : CreateMessageParams} {pc : CreatePc} :
    Winner r k (.createMessage p) (.create pc) ↔ Keyed r k p ∧ won pc = true := by
  constructor
  · rintro ⟨_, _, hp, hpc, h⟩; cases hp; cases hpc; exact h
  · intro h; exact ⟨p, pc, rfl, rfl, h⟩

/-- A winner has a row with its key. -/
theorem ownRow_of_won {p : CreateMessageParams} {w : World} {pc : CreatePc} (h : won pc = true)
    (ht : Tracks p w pc) (hs : Serves p w pc) : ∃ id, OwnRow p w id := by
  cases pc with
  | roomUpdate m => exact ⟨_, ht⟩
  | fetch dto got => exact ⟨_, ht⟩
  | done x =>
    rcases x with e | ⟨dto, dup⟩
    · cases h
    · exact ⟨_, hs.1⟩
  | _ => cases h

/-- An insert succeeds only while no row has its key. -/
theorem createRow_unused {p : CreateMessageParams} {id k : String} {seq : Nat} {w w' : World}
    {m : Message} (h : createRow p id seq w = .ok (w', m)) (hk : p.clientMessageId = some k) :
    ∀ x ∈ stubs w.db, x.roomId = p.roomId → x.clientMessageId ≠ some k := by
  obtain ⟨type, t, -, rfl, ht, -, -⟩ := createRow_ok h
  rintro _ hx hr hkx
  obtain ⟨y, hy, rfl⟩ := List.mem_map.1 hx
  have hno := Table.insert_fresh ht hy MessageKey.roomClientMessageId (by simp [Row.constraints])
  have hry : p.roomId = y.roomId := hr.symm
  have hky : y.clientMessageId = some k := hkx
  simp [Row.clash, CreateMessageParams.row, sameKey, hry, hky, hk] at hno

/-- A row with the key belongs to a call with the key. -/
theorem OwnRow.keyed {r k : String} {p p₂ : CreateMessageParams} {w : World} {id : String}
    (h : OwnRow p w id) (h₂ : OwnRow p₂ w id) (hk : Keyed r k p₂) : Keyed r k p := by
  obtain ⟨x, hx, hid, hr, hkey⟩ := h
  obtain ⟨y, hy, hid₂, hr₂, hkey₂⟩ := h₂
  obtain rfl := stubs_eq_of_id hx hy (hid.trans hid₂.symm)
  exact ⟨(hr.symm.trans hr₂).trans hk.1, (hkey.symm.trans hkey₂).trans hk.2⟩

theorem sends_valid {cfg : AppConfig} {json : Json} {r k : String}
    {D : Discipline World Call Pc} :
    (sends r k).Valid (machine cfg json) D (numbering r) where
  move {c call w pc w' pc'} a := by
    rcases step_cases a.step with ⟨p, pc₁, pc₁', rfl, rfl, rfl, ha⟩ | ⟨hne, ha⟩
    · have hg := ha.grows
      obtain ⟨ht, hown⟩ := a.own p pc₁ rfl rfl
      refine ⟨fun m hm => ?_, fun p' pc₂ hp hpc => ?_⟩
      · rcases ha.announces with heq | ⟨dto, got, rfl, rfl, heq⟩
        · obtain ⟨x, hx, hid⟩ := a.glob m (heq ▸ hm)
          exact ⟨x, hg.stubs x hx, hid⟩
        · rw [heq, List.mem_append, List.mem_singleton] at hm
          rcases hm with hm | rfl
          · obtain ⟨x, hx, hid⟩ := a.glob m hm
            exact ⟨x, hg.stubs x hx, hid⟩
          · obtain ⟨x, hx, hid, -⟩ := ht
            exact ⟨x, hg.stubs x hx, hid⟩
      · cases hp; cases hpc
        refine ⟨ha.tracks ht, fun hk => ?_⟩
        obtain ⟨hv, hs⟩ := hown hk
        obtain ⟨rfl, hkey⟩ := hk
        exact ⟨hv.mono hg, ha.serves hkey hv (a.baseOwn p pc₁ rfl rfl rfl) a.baseGlob a.glob ht hs⟩
    · exact ⟨by simpa only [sends, ha.log, ha.announced] using a.glob,
        fun p _ hp => absurd hp (hne p)⟩
  keep {c call w pc w' pc' call₂ pc₂} a b := by
    rcases step_cases a.step with ⟨p, pc₁, pc₁', rfl, rfl, rfl, ha⟩ | ⟨hne, ha⟩
    · have hg := ha.grows
      obtain ⟨ht, hown⟩ := a.own p pc₁ rfl rfl
      refine ⟨fun p₂ pc₃ hp hpc => ?_, fun hw hw₂ => ?_⟩
      · obtain ⟨ht₂, hown₂⟩ := b.own p₂ pc₃ hp hpc
        refine ⟨ht₂.mono hg.stubs, fun hk₂ => ?_⟩
        obtain ⟨hv₂, hs₂⟩ := hown₂ hk₂
        refine ⟨hv₂.mono hg, hs₂.mono hg (fun hwon id hid => ?_) ht₂⟩
        rcases ha.announces with heq | ⟨dto, got, rfl, rfl, heq⟩
        · rw [broadcasts, broadcasts, heq]
        · -- a broadcast of the same row would be one of a second winner
          rw [broadcasts_append id heq, if_neg, Nat.add_zero]
          rintro rfl
          exact b.apart (winner_iff.2 ⟨OwnRow.keyed ht hid hk₂, rfl⟩)
            ⟨p₂, pc₃, hp, hpc, hk₂, hwon⟩
      · obtain ⟨hk, hwon⟩ := winner_iff.1 hw
        rcases ha.wins hwon with hwas | ⟨a₁, seq, m, rfl, hcr⟩
        · exact b.apart (winner_iff.2 ⟨hk, hwas⟩) hw₂
        · obtain ⟨p₂, pc₃, hp, hpc, hk₂, hwon₂⟩ := hw₂
          obtain ⟨ht₂, hown₂⟩ := b.own p₂ pc₃ hp hpc
          obtain ⟨id, x, hx, -, hr, hkey⟩ := ownRow_of_won hwon₂ ht₂ (hown₂ hk₂).2
          exact createRow_unused hcr hk.2 x hx ((hr.trans hk₂.1).trans hk.1.symm)
            (hkey.trans hk₂.2)
    · refine ⟨fun p₂ pc₃ hp hpc => ?_, fun ⟨p, _, hp, _⟩ => absurd hp (hne p)⟩
      obtain ⟨ht₂, hown₂⟩ := b.own p₂ pc₃ hp hpc
      refine ⟨ht₂.mono ha.grows.stubs, fun hk₂ => ?_⟩
      obtain ⟨hv₂, hs₂⟩ := hown₂ hk₂
      exact ⟨hv₂.mono ha.grows,
        hs₂.mono ha.grows (fun _ id _ => by rw [broadcasts, broadcasts, ha.announced]) ht₂⟩
  symm h hw hw₂ := h hw₂ hw
  env ms {w} hg := ⟨hg, fun {call pc} ho p pc₁ hp hpc => by
    obtain ⟨ht, hown⟩ := ho p pc₁ hp hpc
    have same : Grows w.db (w.tick ms).db := ⟨fun _ h => h, fun _ _ => rfl, fun _ => rfl, rfl, rfl⟩
    refine ⟨ht.mono same.stubs, fun hk => ?_⟩
    obtain ⟨hv, hs⟩ := hown hk
    exact ⟨hv, hs.mono same (fun _ _ _ => rfl) ht⟩⟩

theorem serves_start {p : CreateMessageParams} (w : World) : Serves p w (createStart p) := by
  unfold createStart
  split
  · rename_i k h; exact (truthy_eq_some.1 h).1
  · rcases afterLookup_cases p with h | h <;> rw [h] <;> trivial

section Sends
variable {ι : Type} {cfg : AppConfig} {json : Json} {calls : ι → Call} {w : World}
  {r k : String} {D : Discipline World Call Pc} {P : Pool World Pc ι}

theorem sends_initial (hann : ∀ m ∈ announced w, ∃ x ∈ w.db.messages.rows, x.id = m.id)
    (hv : ∀ i p, calls i = .createMessage p → Keyed r k p → Storing p w.db) :
    (sends r k).Holds calls ((machine cfg json).initial calls w) := by
  have hstart : ∀ {i p pc₁}, calls i = .createMessage p →
      ((machine cfg json).initial calls w).pcs i = .create pc₁ → pc₁ = createStart p := by
    intro i p pc₁ hp hpc
    have hpc' : start (calls i) = .create pc₁ := hpc
    rw [hp] at hpc'
    cases hpc'
    rfl
  refine ⟨fun m hm => ?_, fun i p pc₁ hp hpc => ?_, fun i j _ hi => ?_⟩
  · obtain ⟨x, hx, hid⟩ := hann m hm
    exact ⟨stub x, stub_mem hx, hid⟩
  · obtain rfl := hstart hp hpc
    exact ⟨tracks_of_checking (checking_createStart p), fun hk => ⟨hv i p hp hk, serves_start w⟩⟩
  · obtain ⟨p, pc₁, hp, hpc, -, hwon⟩ := hi
    rw [hstart hp hpc, not_won_of_checking (checking_createStart p)] at hwon
    cases hwon

variable [DecidableEq ι]

theorem sends_run (hc : CounterOk r w)
    (hann : ∀ m ∈ announced w, ∃ x ∈ w.db.messages.rows, x.id = m.id)
    (hv : ∀ i p, calls i = .createMessage p → Keyed r k p → Storing p w.db)
    (hrun : Run (machine cfg json) D calls ((machine cfg json).initial calls w) P) :
    (sends r k).Holds calls P :=
  sends_valid.run (numbering_run hc) (sends_initial hann hv) hrun

/-- A valid call that has won stays the winner. -/
theorem CreateActs.stays {json : Json} {c : Choice} {p : CreateMessageParams} {w w' : World}
    {pc pc' : CreatePc} (h : CreateActs json c p w pc w' pc') (hw : won pc = true)
    (hs : Serves p w' pc') : won pc' = true := by
  cases h with
  | noRoom => exact hs.elim
  | roomUpdate => rfl
  | @fetch dto got got' hf =>
    rcases emitCreated_cases json dto got' w with ⟨h, -⟩ | ⟨_, _, _, h⟩ | h <;> rw [h] at hs ⊢
    · rfl
    · rfl
    · exact hs.elim
  | _ => cases hw

/-- Some row has the key. -/
def Used (r k : String) (w : World) : Prop :=
  ∃ x ∈ stubs w.db, x.roomId = r ∧ x.clientMessageId = some k

/-- **The row has an author.** Whenever a row has the key, one of the calls has inserted it. -/
theorem winner_of_row (hc : CounterOk r w)
    (hann : ∀ m ∈ announced w, ∃ x ∈ w.db.messages.rows, x.id = m.id)
    (hv : ∀ i p, calls i = .createMessage p → Keyed r k p → Storing p w.db)
    (hnew : ¬ Used r k w)
    (hrun : Run (machine cfg json) D calls ((machine cfg json).initial calls w) P) :
    Used r k P.shared → ∃ i, Winner r k (calls i) (P.pcs i) := by
  refine hrun.owed (Used r k) (Winner r k) (fun h => absurd h hnew) ?_ fun _ h => h
  intro Q i c s' l' hr ha hs hd
  have hnext := (sends_run hc hann hv (hr.move ha hs)).own i
  rcases step_cases hs with ⟨p, pc₁, pc₁', hcall, hpc, rfl, hact⟩ | ⟨hne, hact⟩
  · rw [hcall, hpc]
    by_cases hw : Winner r k (.createMessage p) (.create pc₁)
    · obtain ⟨hk, hwon⟩ := winner_iff.1 hw
      have hserves := ((hnext p pc₁' hcall (by simp)).2 hk).2
      exact .inl (winner_iff.2 ⟨hk, hact.stays hwon hserves⟩)
    · rcases hact.log with hlog | ⟨a, seq, m, rfl, rfl, -, hcr, hlog⟩
      · exact .inr ⟨by simpa only [Used, hlog] using hd, hw⟩
      · obtain ⟨x, hx, hr, hk⟩ := hd
        rw [hlog, List.mem_append, List.mem_singleton] at hx
        rcases hx with hx | rfl
        · exact .inr ⟨⟨x, hx, hr, hk⟩, hw⟩
        · obtain ⟨type, t, -, rfl, -, -, -⟩ := createRow_ok hcr
          exact .inl (winner_iff.2 ⟨⟨hr, hk⟩, rfl⟩)
  · refine .inr ⟨by simpa only [Used, hact.log] using hd, ?_⟩
    rintro ⟨p, -, hp, -⟩
    exact hne p hp

/-! ## Once -/

/-- There is one row with the key, each call with it has returned the id of the row, one of them
without `duplicate`, and the row has been broadcast once. -/
def SentOnce (calls : ι → Call) (r k : String) (P : Pool World Pc ι) : Prop :=
  ∃ m ∈ P.shared.db.messages.rows, (m.roomId = r ∧ m.clientMessageId = some k) ∧
    (∀ m' ∈ P.shared.db.messages.rows, m'.roomId = r → m'.clientMessageId = some k → m' = m) ∧
    (∀ i p, calls i = .createMessage p → Keyed r k p →
      ∃ res, P.pcs i = .create (.done (.ok res)) ∧ res.message.id = m.id) ∧
    (∃! i, ∃ p message, calls i = .createMessage p ∧ Keyed r k p ∧
      P.pcs i = .create (.done (.ok ⟨message, false⟩))) ∧
    (announced P.shared).countP (·.id == m.id) = 1

/-- Any number of valid calls with one key, interleaved with any other calls, when they are done. -/
theorem sent_of_run (hc : CounterOk r w)
    (hann : ∀ m ∈ announced w, ∃ x ∈ w.db.messages.rows, x.id = m.id)
    (hnew : ∀ m ∈ w.db.messages.rows, m.roomId = r → m.clientMessageId ≠ some k)
    (hv : ∀ i p, calls i = .createMessage p → Keyed r k p → Storing p w.db)
    (hsome : ∃ i p, calls i = .createMessage p ∧ Keyed r k p)
    (hrun : Run (machine cfg json) D calls ((machine cfg json).initial calls w) P)
    (hdone : ∀ i p, calls i = .createMessage p → Keyed r k p → ∃ x, P.pcs i = .create (.done x)) :
    SentOnce calls r k P := by
  have hS := sends_run hc hann hv hrun
  -- each call ends well, with a row of the key
  have hend : ∀ i p, calls i = .createMessage p → Keyed r k p →
      ∃ res, P.pcs i = .create (.done (.ok res)) ∧ Serves p P.shared (.done (.ok res)) := by
    intro i p hp hk
    obtain ⟨x, hx⟩ := hdone i p hp hk
    have hs := ((hS.own i p _ hp hx).2 hk).2
    rcases x with e | res
    · exact hs.elim
    · exact ⟨res, hx, hs⟩
  obtain ⟨i₀, p₀, hp₀, hk₀⟩ := hsome
  obtain ⟨res₀, -, ⟨x, hx, -, hr, hkey⟩, -⟩ := hend i₀ p₀ hp₀ hk₀
  have hxr := hr.trans hk₀.1
  have hxk := hkey.trans hk₀.2
  obtain ⟨m, hm, rfl⟩ := List.mem_map.1 hx
  have hid : ∀ {p : CreateMessageParams} {id : String}, Keyed r k p → OwnRow p P.shared id →
      id = m.id := by
    rintro p _ hk ⟨y, hy, rfl, hyr, hyk⟩
    rw [stubs_eq_of_key hy hx ((hyr.trans hk.1).trans hxr.symm) (hyk.trans hk.2) hxk]
    rfl
  -- the author of the row is the one call that returns `duplicate = false`
  have hunused : ¬ Used r k w := by
    rintro ⟨_, hy, hyr, hyk⟩
    obtain ⟨n, hn, rfl⟩ := List.mem_map.1 hy
    exact hnew n hn hyr hyk
  obtain ⟨i, p, pc₁, hp, hpc, hk, hwon⟩ := winner_of_row hc hann hv hunused hrun ⟨_, hx, hxr, hxk⟩
  obtain ⟨⟨message, dup⟩, hres, hown, honce⟩ := hend i p hp hk
  obtain rfl : pc₁ = .done (.ok ⟨message, dup⟩) := by rw [hpc] at hres; cases hres; rfl
  obtain rfl : dup = false := by cases dup with
    | false => rfl
    | true => cases hwon
  have hmid := hid hk hown
  refine ⟨m, hm, ⟨hxr, hxk⟩, fun m' hm' hr' hk' => ?_, fun j q hq hkq => ?_, ?_, ?_⟩
  · exact messages_eq_of_clientMessageId hm' hm (hr'.trans hxr.symm) hk' hxk
  · obtain ⟨res, hres, hown, -⟩ := hend j q hq hkq
    exact ⟨res, hres, hid hkq hown⟩
  · refine ⟨i, ⟨p, message, hp, hk, hres⟩, fun j ⟨q, message', hq, hkq, hj⟩ => ?_⟩
    by_contra hne
    exact hS.apart j i hne ⟨q, _, hq, hj, hkq, rfl⟩ ⟨p, _, hp, hres, hk, rfl⟩
  · rw [← hmid]; exact honce rfl

end Sends

/-! ### A send and its retry -/

/-- `a` sends with one key twice. -/
def twice : Bool → Call := fun _ => say "a" (some "k")

theorem twice_storing (i : Bool) (p : CreateMessageParams) (hp : twice i = .createMessage p)
    (_ : Keyed "r1" "k" p) : Storing p worldR1.db := by
  cases hp
  exact ⟨⟨rfl, by decide, by decide, (fun _ h => nomatch h), (fun _ h => nomatch h),
    (fun type => (messageFk_row _ _ type .TEXT "" "" 0 0 0 0).trans (by decide))⟩, by decide⟩

end Intaktok.Messages
