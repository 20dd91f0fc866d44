import Intaktok.Admin.BlockSticks
import Intaktok.Admin.Whitelist
import Intaktok.Lib.Serial
/-
# Who has access is on the whitelist

Only `kakaoLogin` looks at the whitelist; everything else goes by `User.status`. The two are kept
together by the login, which activates whom it finds listed, by `enforceBlock` and by
`reactivate`. `remove` is the one operation that takes a row away, and it does not look for the
user (`admin.service.ts:80`): whoever is `ACTIVE` stays so without an entry (`access_kept`). In
every sequence of operations that removes no entry of an `ACTIVE` user the platform stays closed
(`closed_platform`).
-/

namespace Intaktok.Admin

open Interleave Tables Auth

/-- Logins, refreshes, logouts and all that changes the whitelist. -/
def platform (cfg : AppConfig) : Machine World (Calls ⊕ EntryCall) (Pcs ⊕ EntryPc) Choice Nat :=
  (system cfg).sum entryMachine

def settled : Pcs ⊕ EntryPc → Bool
  | .inl pc => finished pc
  | .inr (.done _) => true
  | _ => false

def Admitted (w : World) (kakaoId : String) : Prop :=
  ∃ r ∈ w.db.whitelist.rows, r.kakaoId = some kakaoId ∧ r.status ≠ .BLOCKED

/-- Whoever is `ACTIVE`, but for the person with the Kakao id `k`, is on the whitelist and not
blocked there. -/
def ClosedBut (k : Option String) (w : World) : Prop :=
  ∀ u ∈ w.db.users.rows, u.status = .ACTIVE → some u.kakaoId ≠ k → Admitted w u.kakaoId

def Closed (w : World) : Prop := ClosedBut none w

/-- The entry is not that of an `ACTIVE` user. -/
def Unused (id : String) (w : World) : Prop :=
  ∀ r ∈ w.db.whitelist.rows, r.id = id → ∀ u ∈ w.db.users.rows, r.kakaoId = some u.kakaoId →
    u.status ≠ .ACTIVE

/-- Kakao names everybody, and no entry of an `ACTIVE` user is removed. -/
def Orderly : Calls ⊕ EntryCall → World → Prop
  | .inl (.inl (.kakaoLogin info)), _ => info.kakaoId ≠ ""
  | .inr (.remove id), w => Unused id w
  | _, _ => True

/-! ## The tables -/

section Tables
variable {w w' : World} {k : Option String}

theorem Closed.but (h : Closed w) (k : Option String) : ClosedBut k w :=
  fun u hu ha _ => h u hu ha nofun

/-- Entries that are there and not blocked stay so. -/
theorem ClosedBut.mono (h : ClosedBut k w) (hu : w'.db.users = w.db.users)
    (hl : ∀ kakaoId, some kakaoId ≠ k → Admitted w kakaoId → Admitted w' kakaoId) :
    ClosedBut k w' :=
  fun u hmem ha hk => hl _ hk (h u (hu ▸ hmem) ha hk)

theorem Closed.congr (h : Closed w) (hu : w'.db.users = w.db.users)
    (hl : w'.db.whitelist = w.db.whitelist) : Closed w' :=
  ClosedBut.mono h hu fun _ _ ⟨r, hr, hrest⟩ => ⟨r, hl ▸ hr, hrest⟩

theorem Admitted.insert {kakaoId : String} {row : Whitelist} (h : Admitted w kakaoId)
    (ht : w.db.whitelist.insert row = .ok w'.db.whitelist) : Admitted w' kakaoId := by
  obtain ⟨r, hr, hrest⟩ := h
  exact ⟨r, (Table.mem_insert ht).2 (.inl hr), hrest⟩

/-- Deleting an entry costs nobody `ACTIVE` anything if it is not that of one. -/
theorem Closed.delete {id : String} (h : Closed w) (hunused : Unused id w)
    (hu : w'.db.users = w.db.users)
    (ht : w'.db.whitelist = w.db.whitelist.deleteWhere (·.id == id)) : Closed w' := by
  intro u hmem ha hk
  rw [hu] at hmem
  obtain ⟨r, hr, hrk, hstatus⟩ := h u hmem ha hk
  refine ⟨r, ?_, hrk, hstatus⟩
  rw [ht, Table.mem_deleteWhere]
  refine ⟨hr, ?_⟩
  by_contra hid
  exact hunused r hr (by simpa using hid) u hmem hrk ha

/-- Suspending the person that is left out closes the platform. -/
theorem ClosedBut.suspend {user : User} (h : ClosedBut (some user.kakaoId) w)
    (hmem : user ∈ w.db.users.rows) :
    Closed { w with db.users := setUserStatus w.db.users (·.id == user.id) .SUSPENDED } := by
  intro u hu ha _
  obtain ⟨r, hr, rfl⟩ := mem_setUserStatus.1 hu
  by_cases hid : (r.id == user.id) = true
  · rw [if_pos hid] at ha; cases ha
  · rw [if_neg hid] at ha ⊢
    refine h r hr ha fun hk => hid ?_
    rw [users_eq_of_kakaoId hr hmem (Option.some.inj hk), beq_self_eq_true]

theorem Closed.activate {user : User} (h : Closed w) (hmem : user ∈ w.db.users.rows)
    (hadm : Admitted w user.kakaoId) :
    Closed { w with db.users := setUserStatus w.db.users (·.id == user.id) .ACTIVE } := by
  intro u hu ha hk
  obtain ⟨r, hr, rfl⟩ := mem_setUserStatus.1 hu
  by_cases hid : (r.id == user.id) = true
  · rw [if_pos hid]
    rw [users_eq_of_id hr hmem (by simpa using hid)]
    exact hadm
  · rw [if_neg hid] at ha hk ⊢
    exact h r hr ha hk

/-- The transaction of a login activates whom it has found on the whitelist. -/
theorem Closed.enroll {info : KakaoUserInfo} {row : Whitelist} {u : User} (h : Closed w)
    (he : Enrolled w info row w' u) (hrow : row ∈ w.db.whitelist.rows)
    (hk : row.kakaoId = some info.kakaoId) (hstatus : row.status ≠ .BLOCKED) : Closed w' := by
  have hadm : ∀ kakaoId, Admitted w kakaoId → Admitted w' kakaoId := by
    rintro kakaoId ⟨r, hr, hrk, hrs⟩
    rcases he.listed with hl | ⟨-, hl⟩
    · exact ⟨r, hl ▸ hr, hrk, hrs⟩
    · refine ⟨_, hl ▸ mem_setWhitelistStatus.2 ⟨r, hr, rfl⟩, ?_⟩
      split
      · exact ⟨hrk, by simp⟩
      · exact ⟨hrk, hrs⟩
  intro x hx ha hxk
  by_cases hname : x.kakaoId = info.kakaoId
  · rw [hname]
    exact hadm _ ⟨row, hrow, hk, hstatus⟩
  · exact hadm _ (h x (he.others x hx hname) ha hxk)

/-- Writing an entry hurts nobody but the person of a new block. -/
theorem Closed.write {id : String} {row : Whitelist} (h : Closed w) (dto : UpdateWhitelistDto)
    (hrow : row ∈ w.db.whitelist.rows) (hid : row.id = id) :
    ClosedBut (if dto.status = some (some .BLOCKED) then row.kakaoId else none)
      { w with db.whitelist := updateWhitelist w.db.whitelist id dto } := by
  intro u hu ha hk
  obtain ⟨r, hr, hrk, hstatus⟩ := h u hu ha nofun
  refine ⟨_, mem_updateWhitelist.2 ⟨r, hr, rfl⟩, ?_⟩
  by_cases hrid : (r.id == id) = true
  · rw [if_pos hrid]
    have heq : r = row := whitelist_eq_of_id hr hrow (by rw [hid]; simpa using hrid)
    refine ⟨hrk, ?_⟩
    simp only [UpdateWhitelistDto.apply]
    rcases hs : dto.status with _ | _ | s
    · exact hstatus
    · exact hstatus
    · rintro (hb : s = .BLOCKED)
      rw [if_pos (by rw [hs, hb]), ← heq] at hk
      exact hk hrk.symm
  · rw [if_neg hrid]
    exact ⟨hrk, hstatus⟩

end Tables

/-! ## Each operation -/

/-- What keeps the platform closed while an update is about to do `pc`. -/
def Updating (w : World) : Pc → Prop
  | .linkedUser updated => (∃ k, updated.kakaoId = some k) ∧ ClosedBut updated.kakaoId w
  | .suspend _ user => user ∈ w.db.users.rows ∧ ClosedBut (some user.kakaoId) w
  | .suspendedUser updated => Closed w ∧ ∀ k, updated.kakaoId = some k → Admitted w k
  | .activate _ user => Closed w ∧ user ∈ w.db.users.rows ∧ Admitted w user.kakaoId
  | _ => Closed w

/-- A login that is about to write has found the person listed. -/
structure Entering (call : Auth.Call) (w : World) (pc : Auth.Pc) : Prop where
  closed : Closed w
  named : ∀ info, call = .kakaoLogin info → info.kakaoId ≠ ""
  listed : ∀ info row, call = .kakaoLogin info → pc = .enroll row →
    row ∈ w.db.whitelist.rows ∧ row.kakaoId = some info.kakaoId ∧ row.status ≠ .BLOCKED

/-- A removal that is not over names an entry of nobody `ACTIVE`. -/
structure Entries (call : EntryCall) (w : World) (pc : EntryPc) : Prop where
  closed : Closed w
  unused : ∀ id, call = .remove id → pc = .find ∨ pc = .delete → Unused id w

def Named (w : World) : Prop := ∀ u ∈ w.db.users.rows, u.kakaoId ≠ ""

/-- What an operation that runs alone has kept when it is about to do the action. -/
def Keeps : Calls ⊕ EntryCall → World → Pcs ⊕ EntryPc → Prop
  | .inl (.inl call), w, .inl (.inl pc) => Entering call w pc
  | .inl (.inr _), w, .inl (.inr pc) => Updating w pc
  | .inr call, w, .inr pc => Entries call w pc
  | _, _, _ => False

section Step
variable {cfg : AppConfig} {c : Choice} {w w' : World}

theorem entering_step {call : Auth.Call} {pc pc' : Auth.Pc}
    (h : Auth.Acts cfg c w call pc w' pc') (he : Entering call w pc) : Entering call w' pc' where
  closed := by
    rcases h.tables with ⟨hu, hl⟩ | ⟨info, row, u, rfl, rfl, -, hen⟩
    · exact Closed.congr he.closed hu hl
    · obtain ⟨hrow, hk, hstatus⟩ := he.listed info row rfl rfl
      exact he.closed.enroll hen hrow hk hstatus
  named := he.named
  listed info row hcall hpc := by
    subst hcall hpc
    cases h with
    | listed hf hb =>
      obtain ⟨hrow, hk⟩ := Table.find_some hf
      exact ⟨hrow, by simpa using hk, hb⟩

theorem updating_afterWrite {dto : UpdateWhitelistDto} {existing row : Whitelist} {id : String}
    (hc : Closed w) (hn : Named w) (hrow : row ∈ w.db.whitelist.rows) (hid : row.id = id) :
    Updating { w with db.whitelist := updateWhitelist w.db.whitelist id dto }
      (afterWrite dto existing (dto.apply row)) := by
  have hwrite := hc.write dto hrow hid
  -- the entry as it is now
  have hmem : dto.apply row ∈ (updateWhitelist w.db.whitelist id dto).rows :=
    mem_updateWhitelist.2 ⟨row, hrow, by rw [if_pos (by simpa using hid)]⟩
  unfold afterWrite
  split
  · rename_i k hs hk
    rw [if_pos hs] at hwrite
    exact ⟨⟨k, (truthy_eq_some.1 hk).1⟩, hwrite⟩
  · rename_i k hs hk
    rw [if_neg (by simp [hs])] at hwrite
    split
    · exact ⟨hwrite, fun k hk => ⟨_, hmem, hk, by simp [UpdateWhitelistDto.apply, hs]⟩⟩
    · exact hwrite
  · rename_i k hs hk
    rw [if_neg (by simp [hs])] at hwrite
    split
    · exact ⟨hwrite, fun k hk => ⟨_, hmem, hk, by simp [UpdateWhitelistDto.apply, hs]⟩⟩
    · exact hwrite
  · rename_i hb hi ha
    by_cases hs : dto.status = some (some .BLOCKED)
    · -- the entry names nobody
      rw [if_pos hs] at hwrite
      have hnobody : ∀ u ∈ w.db.users.rows, some u.kakaoId ≠ row.kakaoId := by
        intro u hu hk
        refine hb u.kakaoId hs ?_
        rw [show (dto.apply row).kakaoId = some u.kakaoId from hk.symm]
        exact truthy_some (hn u hu)
      exact fun u hu ha _ => hwrite u hu ha (hnobody u hu)
    · rw [if_neg hs] at hwrite
      exact hwrite

theorem updating_step {id : String} {dto : UpdateWhitelistDto} {pc pc' : Pc}
    (h : Acts c w id dto pc w' pc') (hn : Named w) (hu : Updating w pc) : Updating w' pc' := by
  cases h with
  | missing | found | nullStatus | gone => exact hu
  | write hf =>
    obtain ⟨hrow, hid⟩ := Table.find_some hf
    exact updating_afterWrite hu hn hrow (by simpa using hid)
  | unlinked hf =>
    obtain ⟨⟨k, hk⟩, hbut⟩ := hu
    refine fun u hmem ha _ => hbut u hmem ha fun heq => ?_
    have hno := Table.find_none.1 hf u hmem
    simp [heq] at hno
  | linked hf =>
    obtain ⟨hmem, hk⟩ := Table.find_some hf
    rw [beq_iff_eq] at hk
    exact ⟨hmem, hk ▸ hu.2⟩
  | suspend => exact hu.2.suspend hu.1
  | @noUser updated user hno =>
    have hany : w.db.users.rows.any (·.id == user.id) = true :=
      List.any_eq_true.2 ⟨user, hu.1, beq_self_eq_true _⟩
    rw [hno] at hany
    cases hany
  | sweep hs => rcases sweepStep_world hs with rfl | ⟨key, rfl⟩ <;> exact Closed.congr hu rfl rfl
  | swept hs => rcases sweepStep_world hs with rfl | ⟨key, rfl⟩ <;> exact Closed.congr hu rfl rfl
  | suspended hf =>
    obtain ⟨hmem, hk⟩ := Table.find_some hf
    rw [beq_iff_eq] at hk
    exact ⟨hu.1, hmem, hu.2 _ hk.symm⟩
  | notSuspended | activateNoUser => exact hu.1
  | activate => exact hu.1.activate hu.2.1 hu.2.2

/-- An action of the platform is one of a login or refresh, of an update, or of an operation on the
entries. -/
theorem platform_step {call : Calls ⊕ EntryCall} {pc pc' : Pcs ⊕ EntryPc}
    (h : (platform cfg).step c call w pc = some (w', pc')) :
    (∃ call₁ pc₁ pc₁', call = .inl (.inl call₁) ∧ pc = .inl (.inl pc₁) ∧ pc' = .inl (.inl pc₁') ∧
      Auth.Acts cfg c w call₁ pc₁ w' pc₁') ∨
    (∃ id dto pc₁ pc₁', call = .inl (.inr (.update id dto)) ∧ pc = .inl (.inr pc₁) ∧
      pc' = .inl (.inr pc₁') ∧ Acts c w id dto pc₁ w' pc₁') ∨
    ∃ call₁ pc₁ pc₁', call = .inr call₁ ∧ pc = .inr pc₁ ∧ pc' = .inr pc₁' ∧
      entryStep c call₁ w pc₁ = some (w', pc₁') := by
  rcases Machine.sum_step h with ⟨_, _, _, rfl, rfl, rfl, hs⟩ |
    ⟨call₁, pc₁, pc₁', rfl, rfl, rfl, hs⟩
  · rcases Machine.sum_step hs with ⟨call₁, pc₁, pc₁', rfl, rfl, rfl, ha⟩ |
      ⟨⟨id, dto⟩, pc₁, pc₁', rfl, rfl, rfl, ha⟩
    · exact .inl ⟨call₁, pc₁, pc₁', rfl, rfl, rfl, Auth.acts_of_step ha⟩
    · exact .inr (.inl ⟨id, dto, pc₁, pc₁', rfl, rfl, rfl, acts_of_step ha⟩)
  · exact .inr (.inr ⟨call₁, pc₁, pc₁', rfl, rfl, rfl, hs⟩)

/-- The users an action leaves are those that were there, but for one a login has made. -/
theorem named_step {call : Calls ⊕ EntryCall} {pc pc' : Pcs ⊕ EntryPc}
    (h : (platform cfg).step c call w pc = some (w', pc')) (hk : Keeps call w pc) (hn : Named w) :
    Named w' := by
  have hkept : userKeys w' = userKeys w → Named w' := by
    intro heq u hu
    have hkey := mem_userKeys.2 ⟨u, hu, rfl, rfl⟩
    rw [heq] at hkey
    obtain ⟨v, hv, -, hvk⟩ := mem_userKeys.1 hkey
    rw [← hvk]
    exact hn v hv
  rcases platform_step h with ⟨call₁, pc₁, pc₁', rfl, rfl, rfl, ha⟩ |
    ⟨id, dto, pc₁, pc₁', rfl, rfl, rfl, ha⟩ | ⟨call₁, pc₁, pc₁', rfl, rfl, rfl, hs⟩
  · rcases ha.tables with ⟨hu, -⟩ | ⟨info, row, u, rfl, -, -, hen⟩
    · exact hkept (by rw [userKeys, hu, userKeys])
    · intro x hx
      by_cases hname : x.kakaoId = info.kakaoId
      · rw [hname]; exact hk.named info rfl
      · exact hn x (hen.others x hx hname)
  · exact hkept ha.keys.1
  · exact hkept (by rw [userKeys, (entryStep_tables hs).1, userKeys])

/-- Each action of an orderly operation keeps the platform closed, as far as it has got. -/
theorem keeps_step {call : Calls ⊕ EntryCall} {pc pc' : Pcs ⊕ EntryPc}
    (h : (platform cfg).step c call w pc = some (w', pc')) (hn : Named w) (hk : Keeps call w pc) :
    Keeps call w' pc' := by
  rcases platform_step h with ⟨call₁, pc₁, pc₁', rfl, rfl, rfl, ha⟩ |
    ⟨id, dto, pc₁, pc₁', rfl, rfl, rfl, ha⟩ | ⟨call₁, pc₁, pc₁', rfl, rfl, rfl, hs⟩
  · exact entering_step ha hk
  · exact updating_step ha hn hk
  · obtain ⟨hu, hl⟩ := entryStep_tables hs
    refine ⟨?_, ?_⟩
    · rcases hl with hl | ⟨row, hl⟩ | ⟨id, rfl, rfl, hl⟩
      · exact hk.closed.congr hu hl
      · exact ClosedBut.mono hk.closed hu fun _ _ h => h.insert hl
      · exact hk.closed.delete (hk.unused id rfl (.inr rfl)) hu hl
    · rintro id rfl hpc
      cases pc₁ <;> simp only [entryStep, reduceCtorEq] at hs
      case find =>
        cases hs
        exact hk.unused id rfl (.inl rfl)
      case delete =>
        split at hs <;> cases hs <;> rcases hpc with h | h <;> cases h

end Step

/-! ## Sequences of operations -/

theorem keeps_start {cfg : AppConfig} {w : World} {call : Calls ⊕ EntryCall} (hc : Closed w)
    (ho : Orderly call w) : Keeps call w ((platform cfg).start call) := by
  rcases call with (call | ⟨id, dto⟩) | call
  · refine ⟨hc, ?_, ?_⟩
    · rintro info rfl; exact ho
    · rintro info row rfl hpc; cases hpc
  · exact hc
  · refine ⟨hc, ?_⟩
    rintro id rfl -
    exact ho

theorem keeps_tick {w : World} {call : Calls ⊕ EntryCall} {pc : Pcs ⊕ EntryPc}
    (h : Keeps call w pc) (ms : Nat) : Keeps call (w.tick ms) pc := by
  unfold Keeps at h ⊢
  split at h
  · exact ⟨h.closed, h.named, h.listed⟩
  · rename_i pc; cases pc <;> exact h
  · exact ⟨h.closed, h.unused⟩
  · exact h.elim

theorem closed_of_over {w : World} {call : Calls ⊕ EntryCall} {pc : Pcs ⊕ EntryPc}
    (h : Keeps call w pc) (ho : settled pc = true) : Closed w := by
  unfold Keeps at h
  split at h
  · exact h.closed
  · rename_i pc
    cases pc with
    | done r => exact h
    | _ => cases ho
  · exact h.closed
  · exact h.elim

/-- **Closed platform.** In every state that a sequence of operations comes to, whoever is
`ACTIVE` is on the whitelist and not blocked there, as long as no operation removes the entry of
an `ACTIVE` user. -/
theorem closed_platform (cfg : AppConfig) (w₀ w : World) (hw₀ : w₀.db = {})
    (h : Serial (platform cfg) (fun pc => settled pc = true) Orderly w₀ w) : Closed w := by
  refine (h.invariant (fun w => Named w ∧ Closed w) ?_ ?_ ?_).2
  · refine ⟨fun u hu => ?_, fun u hu => ?_⟩ <;> rw [hw₀] at hu <;> cases hu
  · rintro call w₁ w₂ pc ⟨hn, hc⟩ ho hsolo hover
    have hkeeps := hsolo.invariant (fun w pc => Named w ∧ Keeps call w pc)
      ⟨hn, keeps_start hc ho⟩ (fun ⟨hn, hk⟩ hs => ⟨named_step hs hk hn, keeps_step hs hn hk⟩)
      fun ms _ _ ⟨hn, hk⟩ => ⟨hn, keeps_tick hk ms⟩
    exact ⟨hkeeps.1, closed_of_over hkeeps.2 hover⟩
  · exact fun ms _ h => h

/-! ### Removing an entry -/

/-- Somebody invites `k`, and `k` logs in. -/
def inviteAndLogin : List ((Calls ⊕ EntryCall) × List (Move Unit Choice Nat)) :=
  [(.inr (.create { kakaoId := some "k" } "admin"), [.step () {}, .step () { id := "w" }]),
   (.inl (.inl (.kakaoLogin { kakaoId := "k" })),
     [.step () {}, .step () { id := "u" }, .step () {}, .step () { id := "j" }, .step () {}])]

/-- What `Orderly` asks of the calls of these sequences. -/
def orderly : Calls ⊕ EntryCall → World → Bool
  | .inl (.inl (.kakaoLogin info)), _ => info.kakaoId != ""
  | .inr (.remove _), _ => false
  | _, _ => true

theorem orderly_orderly {call : Calls ⊕ EntryCall} {w : World} (h : orderly call w = true) :
    Orderly call w := by
  unfold orderly at h
  split at h
  · simpa [Orderly] using h
  · cases h
  · rename_i hlogin hremove
    unfold Orderly
    split
    · exact absurd rfl (hlogin _)
    · exact absurd rfl (hremove _)
    · trivial

/-- What it asks of logins. -/
def named : Calls ⊕ EntryCall → World → Bool
  | .inl (.inl (.kakaoLogin info)), _ => info.kakaoId != ""
  | _, _ => true

theorem named_named {call : Calls ⊕ EntryCall} {w : World} (h : named call w = true) :
    ∀ info, call = .inl (.inl (.kakaoLogin info)) → info.kakaoId ≠ "" := by
  rintro info rfl
  simpa [named] using h

def activeNamed (k : String) (w : World) : Bool :=
  w.db.users.rows.any fun u => u.kakaoId == k && u.status == .ACTIVE

theorem closed_platform_k : ∃ w, activeNamed "k" w = true ∧ Admitted w "k" := by
  have hserve : ((platform {}).serve settled orderly {} inviteAndLogin).any (activeNamed "k") =
      true := by decide
  obtain ⟨w, hserial, hw⟩ := Machine.serve_reaches (fun pc => settled pc = true) _ id
    orderly_orderly hserve
  obtain ⟨u, hu, hp⟩ := List.any_eq_true.1 hw
  simp only [Bool.and_eq_true, beq_iff_eq] at hp
  have hadm := closed_platform {} {} w rfl hserial u hu hp.2 nofun
  exact ⟨w, hw, hp.1 ▸ hadm⟩

/-- **Removed and let in.** The entry of a user who has logged in is removed: he stays `ACTIVE`. -/
theorem access_kept : ¬ ∀ (cfg : AppConfig) (w₀ w : World), w₀.db = {} →
    Serial (platform cfg) (fun pc => settled pc = true)
      (fun call _ => ∀ info, call = .inl (.inl (.kakaoLogin info)) → info.kakaoId ≠ "") w₀ w →
    Closed w := by
  intro h
  have hserve : ((platform {}).serve settled named {} (inviteAndLogin ++
      [(.inr (.remove "w"), [.step () {}, .step () {}])])).any
        (fun w => activeNamed "k" w && w.db.whitelist.rows.isEmpty) = true := by decide
  obtain ⟨w, hserial, hw⟩ := Machine.serve_reaches (fun pc => settled pc = true)
    (fun call _ => ∀ info, call = .inl (.inl (.kakaoLogin info)) → info.kakaoId ≠ "") id
    named_named hserve
  rw [Bool.and_eq_true] at hw
  obtain ⟨u, hu, hp⟩ := List.any_eq_true.1 hw.1
  simp only [Bool.and_eq_true, beq_iff_eq] at hp
  obtain ⟨r, hr, -⟩ := h {} {} w rfl hserial u hu hp.2 nofun
  rw [List.isEmpty_iff.1 hw.2] at hr
  cases hr

end Intaktok.Admin
