import Intaktok.Admin.Whitelist
/-
# Is an approval idempotent?

`approveAccessRequest` looks the request up, looks for an entry of its kakaoId, creates one if there
is none and deletes the request, each in an await of its own. The unique index of the whitelist and
a `delete` that fails without a row keep two approvals from doing the same twice, but they answer
with the error of the database (`approval_clash`). Where no entry is created between the look of an
approval and its own, and no request deleted under one (`OneAtATime`), every approval answers with
the entry or with an `AppException`, and leaves one entry and no request (`approvals_settle`).
-/

namespace Intaktok.Admin

open Interleave Tables

/-! ## Approvals of one request -/

/-- The entry of a kakaoId. -/
def entry (db : Db) (kakaoId : String) : Option Whitelist :=
  db.whitelist.find (·.kakaoId == some kakaoId)

def entries (db : Db) (kakaoId : String) : List Whitelist :=
  db.whitelist.findMany (·.kakaoId == some kakaoId)

/-- The request is in the queue. -/
def Queued (db : Db) (id : String) : Prop := db.accessRequests.rows.any (·.id == id) = true

/-- The call approves the request, or registers its kakaoId by hand. -/
def Concerns (id kakaoId : String) : EntryCall → Prop
  | .approveAccessRequest id' _ => id' = id
  | .create dto _ => dto.kakaoId = some kakaoId
  | _ => False

/-- About to create an entry; an approval has found that there is none. -/
def inserting : EntryPc → Bool
  | .promote _ | .insert => true
  | _ => false

def promoting : EntryPc → Bool
  | .promote _ => true
  | _ => false

def draining : EntryPc → Bool
  | .drain _ => true
  | _ => false

/-- The request has been found, and not been deleted yet. -/
def holding : EntryPc → Bool
  | .existing _ | .promote _ | .drain _ => true
  | _ => false

/-- No entry is created while another approval is about to create one, and no approval deletes the
request while another one holds it. -/
def OneAtATime : Discipline World EntryCall EntryPc where
  alone _ _ _ := True
  beside _ _ pc _ pc₂ := (inserting pc = true → promoting pc₂ = false) ∧
    (draining pc = true → holding pc₂ = false)

/-- The approval returns the one entry of the kakaoId, or an exception of the application. -/
def Answers (db : Db) (kakaoId : String) : EntryResult → Prop
  | .ok x => ∃ row, x = some row ∧ entries db kakaoId = [row]
  | .error e => ∃ a, e = .app a ∧ (a.code = .NOT_FOUND ∨ a.code = .CONFLICT)

/-- The approval has found the request. -/
def hasFound : EntryPc → Bool
  | .request => false
  | .done (.error (.app e)) => e.code != .NOT_FOUND
  | _ => true

/-! ## One action -/

section Step
variable {c : Choice} {w w' : World} {id kakaoId : String}

/-- A kakaoId has one entry. -/
theorem entries_eq_of_entry {db : Db} {row : Whitelist} (h : entry db kakaoId = some row) :
    entries db kakaoId = [row] := by
  refine Table.findMany_eq_of_find (c := .kakaoId) (by simp [Row.constraints]) ?_ h
  intro a b ha hb
  simp only [beq_iff_eq] at ha hb
  simp [Row.clash, sameKey, ha, hb]

theorem entry_insert {t : Table Whitelist} {row : Whitelist}
    (h : w.db.whitelist.insert row = .ok t) :
    entry { w.db with whitelist := t } kakaoId =
      (entry w.db kakaoId).or (if row.kakaoId = some kakaoId then some row else none) := by
  rw [entry, entry, Table.find_insert h]
  simp

/-- An entry that could not be created is there. -/
theorem entry_of_clash {row : Whitelist} {k : WhitelistKey}
    (hid : freshEntryId w row.id = true) (hkakao : row.kakaoId = some kakaoId)
    (h : w.db.whitelist.insert row = .error k) : entry w.db kakaoId ≠ none := by
  obtain ⟨x, hx, hclash⟩ := Table.violated_some (Table.insert_error h)
  cases k with
  | id =>
    simp only [freshEntryId, Bool.and_eq_true, Bool.not_eq_true', List.any_eq_false] at hid
    have hsame : row.id = x.id := by simpa [Row.clash] using hclash
    exact absurd (by simp [hsame]) (hid.2 x hx)
  | kakaoId =>
    have hkey : row.kakaoId = x.kakaoId := by
      simp only [Row.clash, sameKey, Bool.and_eq_true, beq_iff_eq] at hclash
      exact hclash.2
    intro hnone
    have hno := Table.find_none.1 hnone x hx
    simp [← hkey, hkakao] at hno

theorem queued_iff {db : Db} :
    Queued db id ↔ (db.accessRequests.find (·.id == id)).isSome = true := by
  rw [Queued, Table.find, List.isSome_find?]

/-- What an approval does. -/
inductive Approves (c : Choice) (id invitedBy : String) (w : World) :
    EntryPc → World → EntryPc → Prop
  | absent : ¬ Queued w.db id → Approves c id invitedBy w .request w
      (.fail (Errors.notFound "가입 대기 항목을 찾을 수 없습니다."))
  | found {r} : w.db.accessRequests.find (·.id == id) = some r →
      Approves c id invitedBy w .request w (.existing r)
  | vacant {r} : entry w.db r.kakaoId = none →
      Approves c id invitedBy w (.existing r) w (.promote r)
  | blocked {r row} : entry w.db r.kakaoId = some row → row.status = .BLOCKED →
      Approves c id invitedBy w (.existing r) w
        (.fail (Errors.conflict "차단된 사용자입니다. 먼저 차단을 해제하세요."))
  | listed {r row} : entry w.db r.kakaoId = some row → row.status ≠ .BLOCKED →
      Approves c id invitedBy w (.existing r) w (.drain row)
  | promoted {r row t} : w.db.whitelist.insert row = .ok t → row.kakaoId = some r.kakaoId →
      row.status = .INVITED →
      Approves c id invitedBy w (.promote r) { w with db.whitelist := t } (.drain row)
  | clash {r e} : entry w.db r.kakaoId ≠ none →
      Approves c id invitedBy w (.promote r) w (.done (.error e))
  | drained {row} : Queued w.db id → Approves c id invitedBy w (.drain row)
      { w with db.accessRequests := w.db.accessRequests.deleteWhere (·.id == id) }
      (.done (.ok (some row)))
  | missing {row} : ¬ Queued w.db id →
      Approves c id invitedBy w (.drain row) w (.done (.error .recordNotFound))

theorem approves_of_step {invitedBy : String} {pc pc' : EntryPc}
    (h : entryStep c (.approveAccessRequest id invitedBy) w pc = some (w', pc')) :
    Approves c id invitedBy w pc w' pc' := by
  cases pc with
  | request =>
    cases h
    cases hf : w.db.accessRequests.find (·.id == id) with
    | none => exact .absent (by simp [queued_iff, hf])
    | some r => exact .found hf
  | existing r =>
    cases h
    cases he : w.db.whitelist.find (·.kakaoId == some r.kakaoId) with
    | none => exact .vacant he
    | some row =>
      by_cases hb : row.status = .BLOCKED
      · simp only [hb, if_true]
        exact .blocked he hb
      · simp only [hb, if_false]
        exact .listed he hb
  | promote r =>
    obtain ⟨x, hx, hout⟩ := Option.map_eq_some_iff.1 h
    unfold createEntry at hx
    split at hx
    · rename_i hid
      simp only [Option.some.injEq] at hx
      split at hx
      · rename_i t ht
        cases hx
        cases hout
        exact .promoted ht rfl rfl
      · rename_i k hk
        cases hx
        cases hout
        exact .clash (entry_of_clash hid rfl hk)
    · cases hx
  | drain row =>
    simp only [entryStep] at h
    split at h <;> cases h
    · rename_i hq
      exact .drained hq
    · rename_i hq
      exact .missing hq
  | _ => cases h

/-- A registration by hand creates an entry at most. -/
theorem create_of_step {dto : CreateWhitelistDto} {invitedBy : String} {pc pc' : EntryPc}
    (h : entryStep c (.create dto invitedBy) w pc = some (w', pc')) :
    w' = w ∨ inserting pc = true ∧ ∃ row t, w.db.whitelist.insert row = .ok t ∧
      row.status = .INVITED ∧ w' = { w with db.whitelist := t } := by
  cases pc with
  | taken kakaoId => cases h; exact .inl rfl
  | insert =>
    obtain ⟨x, hx, hout⟩ := Option.map_eq_some_iff.1 h
    unfold createEntry at hx
    split at hx
    · simp only [Option.some.injEq] at hx
      split at hx <;> cases hx <;> cases hout
      · rename_i t ht
        exact .inr ⟨rfl, _, t, ht, rfl, rfl⟩
      · exact .inl rfl
    · cases hx
  | _ => cases h

/-- What the calls have to do with the entry and the request. -/
structure Effect (id kakaoId : String) (w : World) (pc : EntryPc) (w' : World) : Prop where
  kept : ∀ row, entry w.db kakaoId = some row → entry w'.db kakaoId = some row
  added : ∀ row, entry w'.db kakaoId = some row →
    entry w.db kakaoId = some row ∨ inserting pc = true ∧ row.status = .INVITED
  requests : ∀ r, w'.db.accessRequests.find (·.id == id) = some r →
    w.db.accessRequests.find (·.id == id) = some r
  queued : Queued w.db id → draining pc = false → Queued w'.db id

theorem effect_refl (pc : EntryPc) : Effect id kakaoId w pc w :=
  ⟨fun _ h => h, fun _ h => .inl h, fun _ h => h, fun h _ => h⟩

theorem effect_insert {pc : EntryPc} {row : Whitelist} {t : Table Whitelist}
    (hpc : inserting pc = true) (ht : w.db.whitelist.insert row = .ok t)
    (hrow : row.status = .INVITED) :
    Effect id kakaoId w pc { w with db.whitelist := t } := by
  refine ⟨fun old hold => ?_, fun new hnew => ?_, fun _ h => h, fun h _ => h⟩
  · rw [entry_insert ht, hold]
    rfl
  · rw [entry_insert ht] at hnew
    cases hold : entry w.db kakaoId with
    | some old =>
      rw [hold] at hnew
      exact .inl hnew
    | none =>
      rw [hold, Option.none_or] at hnew
      split at hnew <;> cases hnew
      exact .inr ⟨hpc, hrow⟩

theorem effect_drain (row : Whitelist) : Effect id kakaoId w (.drain row)
    { w with db.accessRequests := w.db.accessRequests.deleteWhere (·.id == id) } := by
  refine ⟨fun _ h => h, fun _ h => .inl h, fun r hr => ?_, fun _ h => (nomatch h)⟩
  obtain ⟨hmem, hid⟩ := Table.find_some hr
  rw [(Table.mem_deleteWhere.1 hmem).2] at hid
  cases hid

theorem effect_of_step {call : EntryCall} {pc pc' : EntryPc} (hcall : Concerns id kakaoId call)
    (h : entryStep c call w pc = some (w', pc')) : Effect id kakaoId w pc w' := by
  cases call with
  | approveAccessRequest id' invitedBy =>
    obtain rfl : id' = id := hcall
    cases approves_of_step h with
    | promoted ht _ hrow => exact effect_insert rfl ht hrow
    | drained => exact effect_drain _
    | _ => exact effect_refl _
  | create dto invitedBy =>
    rcases create_of_step h with rfl | ⟨hpc, row, t, ht, hrow, rfl⟩
    · exact effect_refl _
    · exact effect_insert hpc ht hrow
  | _ => cases hcall

end Step

/-! ## One at a time -/

/-- How far an approval has come, and what it relies on. -/
def Course (id kakaoId : String) (db : Db) : EntryPc → Prop
  | .request => True
  | .existing r => r.kakaoId = kakaoId ∧ Queued db id
  | .promote r => r.kakaoId = kakaoId ∧ Queued db id ∧ entry db kakaoId = none
  | .drain row => Queued db id ∧ entry db kakaoId = some row
  | .done (.ok x) => ¬ Queued db id ∧ ∃ row, x = some row ∧ entry db kakaoId = some row
  | .done (.error e) => ∃ a, e = .app a ∧ (a.code = .NOT_FOUND ∧ ¬ Queued db id ∨
      a.code = .CONFLICT ∧ ∃ row, entry db kakaoId = some row ∧ row.status = .BLOCKED)
  | _ => False

/-- `old` is the entry there was at first. -/
def approving (id kakaoId : String) (old : Option Whitelist) : Outline World EntryCall EntryPc where
  glob w := (∀ r, w.db.accessRequests.find (·.id == id) = some r → r.kakaoId = kakaoId) ∧
    (Queued w.db id ∨ (entry w.db kakaoId).isSome = true) ∧
    ∀ row, entry w.db kakaoId = some row → old = some row ∨ row.status = .INVITED
  own call w pc := Concerns id kakaoId call ∧
    ∀ invitedBy, call = .approveAccessRequest id invitedBy → Course id kakaoId w.db pc
  apart _ _ _ _ := True

section Step
variable {c : Choice} {w w' : World} {id kakaoId : String} {pc pc' : EntryPc}

/-- What an approval relies on is disturbed by nobody. -/
theorem Course.mono {pc₂ : EntryPc} (h : Course id kakaoId w.db pc₂)
    (he : Effect id kakaoId w pc w') (hinsert : inserting pc = true → promoting pc₂ = false)
    (hdrain : draining pc = true → holding pc₂ = false) : Course id kakaoId w'.db pc₂ := by
  have hgone : ¬ Queued w.db id → ¬ Queued w'.db id := by
    intro hno hq
    rw [queued_iff, Option.isSome_iff_exists] at hq
    obtain ⟨r, hr⟩ := hq
    exact hno (queued_iff.2 (by rw [he.requests r hr]; rfl))
  have hqueued : holding pc₂ = true → Queued w.db id → Queued w'.db id := fun hold hq =>
    he.queued hq (by
      rw [← Bool.not_eq_true]
      intro hd
      rw [hdrain hd] at hold
      cases hold)
  cases pc₂ with
  | request => trivial
  | existing r => exact ⟨h.1, hqueued rfl h.2⟩
  | promote r =>
    refine ⟨h.1, hqueued rfl h.2.1, Option.eq_none_iff_forall_not_mem.2 fun row hrow => ?_⟩
    rcases he.added row hrow with hold | ⟨hins, -⟩
    · rw [h.2.2] at hold
      cases hold
    · cases hinsert hins
  | drain row => exact ⟨hqueued rfl h.1, he.kept row h.2⟩
  | done x =>
    cases x with
    | ok x =>
      obtain ⟨hno, row, hx, hrow⟩ := h
      exact ⟨hgone hno, row, hx, he.kept row hrow⟩
    | error e =>
      obtain ⟨a, ha, ⟨hcode, hno⟩ | ⟨hcode, row, hrow, hblocked⟩⟩ := h
      · exact ⟨a, ha, .inl ⟨hcode, hgone hno⟩⟩
      · exact ⟨a, ha, .inr ⟨hcode, row, he.kept row hrow, hblocked⟩⟩
  | _ => exact h

/-- An approval goes on as long as what it relies on is there. -/
theorem Course.step {invitedBy : String} (h : Course id kakaoId w.db pc)
    (hreq : ∀ r, w.db.accessRequests.find (·.id == id) = some r → r.kakaoId = kakaoId)
    (hs : Approves c id invitedBy w pc w' pc') : Course id kakaoId w'.db pc' := by
  cases hs with
  | absent hno => exact ⟨_, rfl, .inl ⟨rfl, hno⟩⟩
  | found hf => exact ⟨hreq _ hf, queued_iff.2 (by rw [hf]; rfl)⟩
  | vacant hnone =>
    obtain ⟨rfl, hq⟩ := h
    exact ⟨rfl, hq, hnone⟩
  | blocked hrow hb =>
    obtain ⟨rfl, hq⟩ := h
    exact ⟨_, rfl, .inr ⟨rfl, _, hrow, hb⟩⟩
  | listed hrow _ =>
    obtain ⟨rfl, hq⟩ := h
    exact ⟨hq, hrow⟩
  | promoted ht hkakao _ =>
    obtain ⟨rfl, hq, hnone⟩ := h
    refine ⟨hq, ?_⟩
    rw [entry_insert ht, hnone, if_pos hkakao]
    rfl
  | clash hsome =>
    obtain ⟨rfl, -, hnone⟩ := h
    exact absurd hnone hsome
  | drained =>
    refine ⟨?_, _, rfl, h.2⟩
    simp [Queued, Table.deleteWhere]
  | missing hno => exact absurd h.1 hno

section Ends
variable {db : Db} {r : EntryResult}

theorem Course.answers (h : Course id kakaoId db (.done r)) : Answers db kakaoId r := by
  cases r with
  | ok x =>
    obtain ⟨-, row, hx, hrow⟩ := h
    exact ⟨row, hx, entries_eq_of_entry hrow⟩
  | error e =>
    obtain ⟨a, ha, hcode⟩ := h
    exact ⟨a, ha, hcode.imp And.left And.left⟩

theorem Course.one_entry (h : Course id kakaoId db (.done r))
    (hone : Queued db id ∨ (entry db kakaoId).isSome = true) :
    ∃ row, entries db kakaoId = [row] := by
  cases r with
  | ok x =>
    obtain ⟨-, row, -, hrow⟩ := h
    exact ⟨row, entries_eq_of_entry hrow⟩
  | error e =>
    obtain ⟨a, -, ⟨-, hno⟩ | ⟨-, row, hrow, -⟩⟩ := h
    · obtain ⟨row, hrow⟩ := Option.isSome_iff_exists.1 (hone.resolve_left hno)
      exact ⟨row, entries_eq_of_entry hrow⟩
    · exact ⟨row, entries_eq_of_entry hrow⟩

/-- An approval that has found its request has deleted it, or has found a blocked entry. -/
theorem Course.dequeued (h : Course id kakaoId db (.done r)) (hfound : hasFound (.done r) = true) :
    ¬ Queued db id ∨ ∃ row, entry db kakaoId = some row ∧ row.status = .BLOCKED := by
  cases r with
  | ok x => exact .inl h.1
  | error e =>
    obtain ⟨a, rfl, ⟨hcode, -⟩ | ⟨-, hblocked⟩⟩ := h
    · simp [hasFound, hcode] at hfound
    · exact .inr hblocked

end Ends

theorem approving_valid {old : Option Whitelist} :
    (approving id kakaoId old).Valid entryMachine OneAtATime .top where
  move {c call w pc w' pc'} a := by
    obtain ⟨hreq, hone, hold⟩ := a.glob
    obtain ⟨hcall, hcourse⟩ := a.own
    have he : Effect id kakaoId w pc w' := effect_of_step hcall a.step
    have hnext : ∀ invitedBy, call = .approveAccessRequest id invitedBy →
        Course id kakaoId w'.db pc' := by
      rintro invitedBy rfl
      exact (hcourse invitedBy rfl).step hreq (approves_of_step a.step)
    refine ⟨⟨fun r hr => hreq r (he.requests r hr), ?_, fun row hrow => ?_⟩, hcall, hnext⟩
    · -- the request is deleted by an approval that has the entry
      rcases hone with hq | hsome
      · cases hpc : draining pc with
        | false => exact .inl (he.queued hq hpc)
        | true =>
          right
          unfold draining at hpc
          split at hpc
          · rename_i row
            cases call with
            | approveAccessRequest id' invitedBy =>
              obtain rfl : id' = id := hcall
              rw [he.kept row (hcourse invitedBy rfl).2]
              rfl
            | _ => cases a.step
          · cases hpc
      · obtain ⟨row, hrow⟩ := Option.isSome_iff_exists.1 hsome
        right
        rw [he.kept row hrow]
        rfl
    · rcases he.added row hrow with hbefore | ⟨-, hinvited⟩
      · exact hold row hbefore
      · exact .inr hinvited
  keep {c call w pc w' pc' call₂ pc₂} a b := by
    have he : Effect id kakaoId w pc w' := effect_of_step a.own.1 a.step
    obtain ⟨hinsert, hdrain⟩ := b.beside
    exact ⟨⟨b.own.1, fun invitedBy hcall => (b.own.2 invitedBy hcall).mono he hinsert hdrain⟩,
      trivial⟩
  symm _ := trivial
  env _ {_} hg := ⟨hg, fun hown => hown⟩

end Step

/-! ## Runs -/

section Runs
variable {ι : Type} [DecidableEq ι]

def Ended (P : Pool World EntryPc ι) : Prop := ∀ i, ∃ r, P.pcs i = .done r

theorem approving_run {calls : ι → EntryCall} {w : World} {P : Pool World EntryPc ι}
    {request : AccessRequest}
    (hrequest : w.db.accessRequests.find (·.id == request.id) = some request)
    (hcalls : ∀ i, Concerns request.id request.kakaoId (calls i))
    (h : Run entryMachine OneAtATime calls (entryMachine.initial calls w) P) :
    (approving request.id request.kakaoId (entry w.db request.kakaoId)).Holds calls P := by
  refine approving_valid.run (fun _ => Outline.top_holds _ _) ?_ h
  refine ⟨⟨fun r hr => ?_, .inl ?_, fun row hrow => .inl hrow⟩, fun i => ⟨hcalls i, ?_⟩,
    fun _ _ _ => trivial⟩
  · obtain rfl : request = r := Option.some.inj (hrequest.symm.trans hr)
    rfl
  · exact queued_iff.2 (Option.isSome_iff_exists.2 ⟨request, hrequest⟩)
  · intro invitedBy hcall
    show Course _ _ _ (entryStart (calls i))
    rw [hcall]
    trivial

/-- **An approval is idempotent.** Any number of approvals of a request, and registrations of its
kakaoId by hand, one at a time where it matters: an approval that has ended has returned the one
entry of the kakaoId, or an exception of the application. When all have ended there is one entry,
and the request is gone if an approval has found it and the entry is not one that was blocked. -/
theorem approvals_settle (calls : ι → EntryCall) (w : World) (P : Pool World EntryPc ι)
    (request : AccessRequest)
    (hrequest : w.db.accessRequests.find (·.id == request.id) = some request)
    (hcalls : ∀ i, Concerns request.id request.kakaoId (calls i))
    (h : Run entryMachine OneAtATime calls (entryMachine.initial calls w) P) :
    (∀ i invitedBy r, calls i = .approveAccessRequest request.id invitedBy →
      P.pcs i = .done r → Answers P.shared.db request.kakaoId r) ∧
    ((∃ i invitedBy, calls i = .approveAccessRequest request.id invitedBy) → Ended P →
      (∃ row, entries P.shared.db request.kakaoId = [row]) ∧
      ((∀ row, entry w.db request.kakaoId = some row → row.status ≠ .BLOCKED) →
        (∃ i invitedBy, calls i = .approveAccessRequest request.id invitedBy ∧
          hasFound (P.pcs i) = true) → ¬ Queued P.shared.db request.id)) := by
  obtain ⟨⟨-, hone, hold⟩, hown, -⟩ := approving_run hrequest hcalls h
  have hcourse : ∀ i invitedBy r, calls i = .approveAccessRequest request.id invitedBy →
      P.pcs i = .done r → Course request.id request.kakaoId P.shared.db (.done r) :=
    fun i invitedBy r hcall hpc => hpc ▸ (hown i).2 invitedBy hcall
  refine ⟨fun i invitedBy r hcall hpc => (hcourse i invitedBy r hcall hpc).answers, ?_⟩
  rintro ⟨i, invitedBy, hcall⟩ hended
  obtain ⟨r, hpc⟩ := hended i
  refine ⟨(hcourse i invitedBy r hcall hpc).one_entry hone, ?_⟩
  rintro hunblocked ⟨j, invitedBy', hcall', hfound⟩
  obtain ⟨r', hpc'⟩ := hended j
  rw [hpc'] at hfound
  rcases (hcourse j invitedBy' r' hcall' hpc').dequeued hfound with hgone | ⟨row, hrow, hblocked⟩
  · exact hgone
  · rcases hold row hrow with hfirst | hinvited
    · exact absurd hblocked (hunblocked row hfirst)
    · rw [hblocked] at hinvited
      cases hinvited

end Runs

/-! ### Two approvals -/

def requestK : AccessRequest :=
  { id := "q", kakaoId := "k", nickname := none, profileImageUrl := none, attempts := 1,
    createdAt := 0 }

/-- The kakaoId `k` waits for its approval. -/
def worldQueued : World where
  db.accessRequests := ⟨[requestK], List.pairwise_singleton _ _⟩

def twoApprovals : Bool → EntryCall
  | false => .approveAccessRequest "q" "a"
  | true => .approveAccessRequest "q" "b"

theorem twoApprovals_concern (i : Bool) : Concerns "q" "k" (twoApprovals i) := by
  cases i <;> rfl

/-- `OneAtATime` for a schedule of two. -/
def oneAtATimeOk (P : Pool World EntryPc Bool) (i : Bool) : Bool :=
  (!inserting (P.pcs i) || !promoting (P.pcs !i)) && (!draining (P.pcs i) || !holding (P.pcs !i))

theorem oneAtATimeOk_allows {P : Pool World EntryPc Bool} {i : Bool}
    (h : oneAtATimeOk P i = true) : OneAtATime.allows twoApprovals P i := by
  refine ⟨trivial, fun j hj => ?_⟩
  have hnot : j = !i := by cases i <;> cases j <;> simp_all
  rw [hnot]
  simp only [oneAtATimeOk, Bool.and_eq_true, Bool.or_eq_true, Bool.not_eq_true'] at h
  exact ⟨fun hi => h.1.resolve_left (by simp [hi]), fun hd => h.2.resolve_left (by simp [hd])⟩

def approvalSteps (i : Bool) (n : Nat) (cuid : String := "") : List (Move Bool Choice Nat) :=
  List.replicate n (.step i { id := cuid })

def hasEnded : EntryPc → Bool
  | .done _ => true
  | _ => false

theorem hasEnded_eq {pc : EntryPc} (h : hasEnded pc = true) : ∃ r, pc = .done r := by
  unfold hasEnded at h
  split at h
  · exact ⟨_, rfl⟩
  · cases h

/-- The second approval comes when the first is through. -/
theorem approvals_settle_q : ∃ P : Pool World EntryPc Bool,
    Run entryMachine OneAtATime twoApprovals (entryMachine.initial twoApprovals worldQueued) P ∧
    Ended P ∧ (∃ row, entries P.shared.db "k" = [row]) ∧ ¬ Queued P.shared.db "q" := by
  have hexec : (entryMachine.exec oneAtATimeOk twoApprovals
      (entryMachine.initial twoApprovals worldQueued)
      (approvalSteps false 4 "w1" ++ approvalSteps true 1)).any (fun P =>
        hasEnded (P.pcs false) && hasEnded (P.pcs true) && hasFound (P.pcs false)) = true := by
    decide
  obtain ⟨P, hrun, hP⟩ := Machine.exec_reaches (D := OneAtATime) oneAtATimeOk_allows hexec
  simp only [Bool.and_eq_true] at hP
  have hended : Ended P := by
    intro i
    cases i
    · exact hasEnded_eq hP.1.1
    · exact hasEnded_eq hP.1.2
  obtain ⟨hrow, hgone⟩ := (approvals_settle twoApprovals worldQueued P requestK rfl
    twoApprovals_concern hrun).2 ⟨false, "a", rfl⟩ hended
  exact ⟨P, hrun, hended, hrow, hgone (fun _ h => nomatch h) ⟨false, "a", rfl, hP.2⟩⟩

/-- **Approved twice.** Two approvals find the request and no entry; the second one to create it is
answered with the error of the unique index. -/
theorem approval_clash : ¬ ∀ (ι : Type) [DecidableEq ι] (calls : ι → EntryCall) (w : World)
    (P : Pool World EntryPc ι) (request : AccessRequest),
    w.db.accessRequests.find (·.id == request.id) = some request →
    (∀ i, Concerns request.id request.kakaoId (calls i)) →
    (∀ i j dto dto' by₁ by₂, calls i = .create dto by₁ → calls j = .create dto' by₂ → i = j) →
    Run entryMachine Discipline.free calls (entryMachine.initial calls w) P →
    (∀ i invitedBy r, calls i = .approveAccessRequest request.id invitedBy →
      P.pcs i = .done r → Answers P.shared.db request.kakaoId r) ∧
    ((∃ i invitedBy, calls i = .approveAccessRequest request.id invitedBy) → Ended P →
      (∃ row, entries P.shared.db request.kakaoId = [row]) ∧
      ((∃ i invitedBy, calls i = .approveAccessRequest request.id invitedBy ∧
        hasFound (P.pcs i) = true) → ¬ Queued P.shared.db request.id)) := by
  intro h
  have hexec : (entryMachine.exec always twoApprovals
      (entryMachine.initial twoApprovals worldQueued)
      (approvalSteps false 2 ++ approvalSteps true 2 ++ approvalSteps false 2 "w1" ++
        approvalSteps true 1 "w2")).any (fun P => match P.pcs true with
          | .done (.error (.uniqueConstraint _)) => true
          | _ => false) = true := by
    decide
  obtain ⟨P, hrun, hP⟩ := Machine.exec_reaches_free hexec
  split at hP
  · rename_i target hpc
    obtain ⟨a, ha, -⟩ := (h Bool twoApprovals worldQueued P requestK rfl twoApprovals_concern
      (fun i _ _ _ _ _ hi => by cases i <;> cases hi) hrun).1 true "b" _ rfl hpc
    cases ha
  · cases hP

end Intaktok.Admin
