import Intaktok.World
import Intaktok.Lib.Interleave
/-
# The whitelist: entries, the approval queue and the entries set at boot

| here | there |
| --- | --- |
| `EntryCall.create`, `createStart`, `EntryPc.taken`, `EntryPc.insert` | `AdminService.create` (`admin.service.ts:21`) |
| `EntryCall.remove`, `EntryPc.find`, `EntryPc.delete` | `remove` (`:80`) |
| `EntryPc.request` … `EntryPc.drain` | `approveAccessRequest` (`:135`) |
| `EntryPc.dismiss` | `dismissAccessRequest` (`:164`) |
| `EntryPc.present`, `EntryPc.register` | the loop of `onApplicationBootstrap` (`auth/whitelist-bootstrap.service.ts:23`) |

`AdminService.update` is in `Admin/Service.lean`.
-/

namespace Intaktok.Admin

open Interleave Tables

/-- `admin/dto/whitelist.dto.ts:6`. -/
structure CreateWhitelistDto where
  kakaoId : Option String := none
  identifier : Option String := none
  note : Option String := none
deriving DecidableEq, Repr

inductive EntryCall where
  | create (dto : CreateWhitelistDto) (invitedBy : String)
  | remove (id : String)
  | approveAccessRequest (id invitedBy : String)
  | dismissAccessRequest (id : String)
  | onApplicationBootstrap (kakaoIds : List String)
deriving DecidableEq, Repr

/-- `none` where the call returns nothing. -/
abbrev EntryResult := Except Failure (Option Whitelist)

inductive EntryPc where
  | taken (kakaoId : String)
  | insert
  | find
  | delete
  | request
  | existing (request : AccessRequest)
  | promote (request : AccessRequest)
  | drain (row : Whitelist)
  | dismiss
  | present (kakaoId : String) (rest : List String)
  | register (kakaoId : String) (rest : List String)
  | done (r : EntryResult)

def EntryPc.fail (e : AppException) : EntryPc := .done (.error (.app e))

def createStart (dto : CreateWhitelistDto) : EntryPc :=
  match truthy dto.kakaoId, truthy dto.identifier with
  | none, none => .fail (Errors.validation "kakaoId 또는 identifier 중 하나는 필요합니다.")
  | some kakaoId, _ => .taken kakaoId
  | none, some _ => .insert

def bootstrap : List String → EntryPc
  | [] => .done (.ok none)
  | kakaoId :: rest => .present kakaoId rest

def entryStart : EntryCall → EntryPc
  | .create dto _ => createStart dto
  | .remove _ => .find
  | .approveAccessRequest _ _ => .request
  | .dismissAccessRequest _ => .dismiss
  | .onApplicationBootstrap kakaoIds => bootstrap kakaoIds

/-- A `cuid()` no entry has. -/
def freshEntryId (w : World) (id : String) : Bool :=
  id != "" && isCuid id && !w.db.whitelist.rows.any (·.id == id)

/-- `whitelist.create` of an entry that is `INVITED`; `none` when `id` is in use. -/
def createEntry (w : World) (id : String) (kakaoId identifier invitedBy note : Option String) :
    Option (Except Failure (World × Whitelist)) :=
  if freshEntryId w id then
    let row : Whitelist :=
      { id, kakaoId, identifier, status := .INVITED, invitedBy, note, createdAt := w.now }
    some (match w.db.whitelist.insert row with
      | .ok t => .ok ({ w with db.whitelist := t }, row)
      | .error c => .error (.uniqueConstraint c.target))
  else none

/-- `request.nickname ? … : …`. -/
def approvalNote (request : AccessRequest) : String :=
  match truthy request.nickname with
  | some nickname => "가입 요청 승인: " ++ nickname
  | none => "가입 요청 승인"

/-- Where a call goes once its entry is created, or could not be. -/
def created (w : World) (next : Whitelist → EntryPc) :
    Except Failure (World × Whitelist) → World × EntryPc
  | .ok (w', row) => (w', next row)
  | .error e => (w, .done (.error e))

def entryStep (c : Choice) (call : EntryCall) (w : World) (pc : EntryPc) :
    Option (World × EntryPc) :=
  match call, pc with
  | .create _ _, .taken kakaoId =>
    some (w, if (w.db.whitelist.find (·.kakaoId == some kakaoId)).isSome then
        .fail (Errors.conflict "이미 등록된 kakaoId 입니다.")
      else .insert)
  | .create dto invitedBy, .insert =>
    (createEntry w c.id dto.kakaoId dto.identifier (some invitedBy) dto.note).map
      (created w fun row => .done (.ok (some row)))
  | .remove id, .find =>
    some (w, if (w.db.whitelist.find (·.id == id)).isSome then .delete
      else .fail (Errors.notFound "화이트리스트 항목을 찾을 수 없습니다."))
  | .remove id, .delete =>
    if w.db.whitelist.rows.any (·.id == id) then
      some ({ w with db.whitelist := w.db.whitelist.deleteWhere (·.id == id) }, .done (.ok none))
    else some (w, .done (.error .recordNotFound))
  | .approveAccessRequest id _, .request =>
    some (w, match w.db.accessRequests.find (·.id == id) with
      | none => .fail (Errors.notFound "가입 대기 항목을 찾을 수 없습니다.")
      | some request => .existing request)
  | .approveAccessRequest _ _, .existing request =>
    some (w, match w.db.whitelist.find (·.kakaoId == some request.kakaoId) with
      | none => .promote request
      | some row =>
        if row.status = .BLOCKED then
          .fail (Errors.conflict "차단된 사용자입니다. 먼저 차단을 해제하세요.")
        else .drain row)
  | .approveAccessRequest _ invitedBy, .promote request =>
    (createEntry w c.id (some request.kakaoId) none (some invitedBy)
      (some (approvalNote request))).map (created w .drain)
  | .approveAccessRequest id _, .drain row =>
    if w.db.accessRequests.rows.any (·.id == id) then
      some ({ w with db.accessRequests := w.db.accessRequests.deleteWhere (·.id == id) },
        .done (.ok (some row)))
    else some (w, .done (.error .recordNotFound))
  | .dismissAccessRequest id, .dismiss =>
    if w.db.accessRequests.rows.any (·.id == id) then
      some ({ w with db.accessRequests := w.db.accessRequests.deleteWhere (·.id == id) },
        .done (.ok none))
    else some (w, .fail (Errors.notFound "가입 대기 항목을 찾을 수 없습니다."))
  | .onApplicationBootstrap _, .present kakaoId rest =>
    some (w, if (w.db.whitelist.find (·.kakaoId == some kakaoId)).isSome then bootstrap rest
      else .register kakaoId rest)
  | .onApplicationBootstrap _, .register kakaoId rest =>
    (createEntry w c.id (some kakaoId) none none (some "env bootstrap")).map
      (created w fun _ => bootstrap rest)
  | _, _ => none

/-- Only time passes by itself. -/
def entryMachine : Machine World EntryCall EntryPc Choice Nat where
  start := entryStart
  step := entryStep
  env := World.tick

/-! ## What one action does -/

theorem createEntry_ok {w w' : World} {id : String} {kakaoId identifier invitedBy note : Option String}
    {row : Whitelist}
    (h : createEntry w id kakaoId identifier invitedBy note = some (.ok (w', row))) :
    ∃ t, w.db.whitelist.insert row = .ok t ∧ w' = { w with db.whitelist := t } := by
  unfold createEntry at h
  split at h
  · simp only [Option.some.injEq] at h
    split at h <;> cases h
    rename_i t ht
    exact ⟨t, ht, rfl⟩
  · cases h

/-- An action changes the whitelist by adding an entry or by deleting the one it names; it leaves
the users alone. -/
theorem entryStep_tables {c : Choice} {call : EntryCall} {w w' : World} {pc pc' : EntryPc}
    (h : entryStep c call w pc = some (w', pc')) : w'.db.users = w.db.users ∧
      (w'.db.whitelist = w.db.whitelist ∨
        (∃ row, w.db.whitelist.insert row = .ok w'.db.whitelist) ∨
        ∃ id, call = .remove id ∧ pc = .delete ∧
          w'.db.whitelist = w.db.whitelist.deleteWhere (·.id == id)) := by
  have hcreated : ∀ {id kakaoId identifier invitedBy note next},
      (createEntry w id kakaoId identifier invitedBy note).map (created w next) =
        some (w', pc') → w'.db.users = w.db.users ∧ (w'.db.whitelist = w.db.whitelist ∨
          ∃ row, w.db.whitelist.insert row = .ok w'.db.whitelist) := by
    intro id kakaoId identifier invitedBy note next hc
    obtain ⟨r, hr, he⟩ := Option.map_eq_some_iff.1 hc
    rcases r with e | ⟨w₁, row⟩
    · cases he; exact ⟨rfl, .inl rfl⟩
    · cases he
      obtain ⟨t, ht, rfl⟩ := createEntry_ok hr
      exact ⟨rfl, .inr ⟨row, ht⟩⟩
  unfold entryStep at h
  split at h
  case h_2 | h_7 | h_11 =>
    obtain ⟨hu, hw⟩ := hcreated h
    exact ⟨hu, hw.imp_right .inl⟩
  case h_4 id =>
    split at h <;> cases h
    · exact ⟨rfl, .inr (.inr ⟨id, rfl, rfl, rfl⟩)⟩
    · exact ⟨rfl, .inl rfl⟩
  case h_8 | h_9 => split at h <;> cases h <;> exact ⟨rfl, .inl rfl⟩
  case h_12 => cases h
  all_goals cases h; exact ⟨rfl, .inl rfl⟩

end Intaktok.Admin
