import Intaktok.Auth.Service
/-
# Accounts: what the calls of `AuthService` leave alone

The columns that name an account never change: a user keeps id and `kakaoId`, a whitelist row
too, and neither table loses a row (`userKeys`, `listKeys`). The one action of `AuthService` that
writes either table is the transaction of `kakaoLogin` (`Acts.tables`); the one action that makes
a key of Redis appear is the `SET` of `issueTokens` (`Acts.exists_of_exists`).

The last section is about `refresh:{userId}:*`: where user ids hold no glob character and no colon,
as a `cuid()` does not, the pattern matches the session keys of that user and no other key.
-/

namespace Intaktok.Auth

open Interleave Tables

/-! ## The columns that name an account -/

def userKeys (w : World) : List (String × String) :=
  w.db.users.rows.map fun u => (u.id, u.kakaoId)

def listKeys (w : World) : List (String × Option String) :=
  w.db.whitelist.rows.map fun r => (r.id, r.kakaoId)

theorem mem_userKeys {w : World} {uid k : String} :
    (uid, k) ∈ userKeys w ↔ ∃ u ∈ w.db.users.rows, u.id = uid ∧ u.kakaoId = k := by
  simp [userKeys]

theorem mem_listKeys {w : World} {id : String} {k : Option String} :
    (id, k) ∈ listKeys w ↔ ∃ r ∈ w.db.whitelist.rows, r.id = id ∧ r.kakaoId = k := by
  simp [listKeys]

theorem userKeys_inj {w : World} {uid uid' k : String} (h : (uid, k) ∈ userKeys w)
    (h' : (uid', k) ∈ userKeys w) : uid = uid' := by
  obtain ⟨u, hu, rfl, hk⟩ := mem_userKeys.1 h
  obtain ⟨u', hu', rfl, hk'⟩ := mem_userKeys.1 h'
  rw [users_eq_of_kakaoId hu hu' (hk.trans hk'.symm)]

theorem listKeys_kakaoId {w : World} {id : String} {k k' : Option String}
    (h : (id, k) ∈ listKeys w) (h' : (id, k') ∈ listKeys w) : k = k' := by
  obtain ⟨r, hr, hid, rfl⟩ := mem_listKeys.1 h
  obtain ⟨r', hr', hid', rfl⟩ := mem_listKeys.1 h'
  rw [whitelist_eq_of_id hr hr' (hid.trans hid'.symm)]

@[simp] theorem userKeys_setUserStatus (w : World) (p : User → Bool) (status : UserStatus) :
    userKeys { w with db.users := setUserStatus w.db.users p status } = userKeys w := by
  rw [userKeys, setUserStatus, Table.map_updateWhere]
  · rfl
  · exact fun _ => rfl

/-! ## The transaction of `kakaoLogin` -/

/-- The row `info.kakaoId` of `User` is there and `ACTIVE`; every other row is as it was. -/
structure Upserted (w : World) (kakaoId : String) (w' : World) (u : User) : Prop where
  mine : (u.id, kakaoId) ∈ userKeys w'
  kept : ∀ p ∈ userKeys w, p ∈ userKeys w'
  new : ∀ p ∈ userKeys w', p ∈ userKeys w ∨ isCuid p.1 = true ∧ p.2 = kakaoId
  others : ∀ x ∈ w'.db.users.rows, x.kakaoId ≠ kakaoId → x ∈ w.db.users.rows

theorem upserted_of_upsertUser {w w' : World} {kakaoId id : String} {u : User}
    (h : upsertUser w kakaoId id = some (w', u)) : Upserted w kakaoId w' u := by
  simp only [upsertUser] at h
  split at h
  · rename_i v hv
    simp only [Option.some.injEq, Prod.mk.injEq] at h
    obtain ⟨rfl, rfl⟩ := h
    obtain ⟨hmem, hk⟩ := Table.find_some hv
    have hkeys := userKeys_setUserStatus w (·.kakaoId == kakaoId) .ACTIVE
    refine ⟨?_, fun p hp => by rwa [hkeys], fun p hp => .inl (by rwa [hkeys] at hp),
      fun x hx hne => ?_⟩
    · rw [hkeys]; exact mem_userKeys.2 ⟨v, hmem, rfl, by simpa using hk⟩
    · obtain ⟨r, hr, rfl⟩ := mem_setUserStatus.1 hx
      split at hne
      · rename_i hrk; exact absurd (by simpa using hrk) hne
      · rename_i hrk; simpa [hrk] using hr
  · split at h
    · rename_i t ht
      split at h
      · rename_i hid
        simp only [Option.some.injEq, Prod.mk.injEq] at h
        obtain ⟨rfl, rfl⟩ := h
        have hkeys : userKeys { w with db.users := t } = userKeys w ++ [(id, kakaoId)] := by
          simp [userKeys, (Table.insert_ok ht).2]
        refine ⟨by simp [hkeys], fun p hp => by simp [hkeys, hp], fun p hp => ?_,
          fun x hx hne => ?_⟩
        · rw [hkeys, List.mem_append, List.mem_singleton] at hp
          rcases hp with hp | rfl
          · exact .inl hp
          · exact .inr ⟨hid, rfl⟩
        · rcases (Table.mem_insert ht).1 hx with hx | rfl
          · exact hx
          · exact absurd rfl hne
      · cases h
    · cases h

/-- The transaction was carried out; `listed` is its second write. -/
structure Enrolled (w : World) (info : KakaoUserInfo) (row : Whitelist) (w' : World) (u : User) :
    Prop extends Upserted w info.kakaoId w' u where
  listed : w'.db.whitelist = w.db.whitelist ∨
    row.status = .INVITED ∧ w'.db.whitelist = setWhitelistStatus w.db.whitelist row.id .ACTIVE

theorem enrolled_of_enroll {w w' : World} {info : KakaoUserInfo} {row : Whitelist} {id : String}
    {r : Except Failure User} (h : enroll w info row id = some (w', r)) :
    (∃ u, r = .ok u ∧ Enrolled w info row w' u) ∨ ((∃ e, r = .error e) ∧ w' = w) := by
  simp only [enroll] at h
  split at h
  · cases h
  · rename_i w₁ u hu
    have hup := upserted_of_upsertUser hu
    obtain ⟨t, rfl⟩ := upsertUser_world hu
    split at h
    · rename_i hinv
      split at h
      · simp only [Option.some.injEq, Prod.mk.injEq] at h
        obtain ⟨rfl, rfl⟩ := h
        exact .inl ⟨u, rfl, ⟨hup.mine, hup.kept, hup.new, hup.others⟩, .inr ⟨hinv, rfl⟩⟩
      · simp only [Option.some.injEq, Prod.mk.injEq] at h
        exact .inr ⟨⟨_, h.2.symm⟩, h.1.symm⟩
    · simp only [Option.some.injEq, Prod.mk.injEq] at h
      obtain ⟨rfl, rfl⟩ := h
      exact .inl ⟨u, rfl, hup, .inl rfl⟩

theorem Enrolled.listKeys {w w' : World} {info : KakaoUserInfo} {row : Whitelist} {u : User}
    (h : Enrolled w info row w' u) : listKeys w' = listKeys w := by
  rcases h.listed with h | ⟨-, h⟩
  · simp [Auth.listKeys, h]
  · rw [Auth.listKeys, h, setWhitelistStatus, Table.map_updateWhere]
    · rfl
    · exact fun _ => rfl

/-- An action other than the transaction of `kakaoLogin` writes neither table. -/
theorem Acts.tables {cfg : AppConfig} {c : Choice} {w w' : World} {call : Call} {pc pc' : Pc}
    (h : Acts cfg c w call pc w' pc') :
    (w'.db.users = w.db.users ∧ w'.db.whitelist = w.db.whitelist) ∨
    ∃ info row u, call = .kakaoLogin info ∧ pc = .enroll row ∧ pc' = .profile u ∧
      Enrolled w info row w' u := by
  cases h with
  | @enroll info row w' u he =>
    rcases enrolled_of_enroll he with ⟨u', hu, hen⟩ | ⟨⟨_, he⟩, -⟩
    · cases hu; exact .inr ⟨info, row, u, rfl, rfl, rfl, hen⟩
    · cases he
  | enrollFailed he =>
    rcases enrolled_of_enroll he with ⟨u', hu, -⟩ | ⟨-, rfl⟩
    · cases hu
    · exact .inl ⟨rfl, rfl⟩
  | record hu => obtain ⟨t, rfl⟩ := upsertAccessRequest_world hu; exact .inl ⟨rfl, rfl⟩
  | sweep hsw | swept hsw =>
    rcases sweepStep_world hsw with rfl | ⟨k, rfl⟩ <;> exact .inl ⟨rfl, rfl⟩
  | _ => exact .inl ⟨rfl, rfl⟩

theorem Acts.listKeys {cfg : AppConfig} {c : Choice} {w w' : World} {call : Call} {pc pc' : Pc}
    (h : Acts cfg c w call pc w' pc') : listKeys w' = listKeys w := by
  rcases h.tables with ⟨-, hl⟩ | ⟨_, _, _, -, -, -, he⟩
  · simp [Auth.listKeys, hl]
  · exact he.listKeys

theorem Acts.userKeys {cfg : AppConfig} {c : Choice} {w w' : World} {call : Call} {pc pc' : Pc}
    (h : Acts cfg c w call pc w' pc') {p : String × String} (hp : p ∈ userKeys w) :
    p ∈ userKeys w' := by
  rcases h.tables with ⟨hu, -⟩ | ⟨_, _, _, -, -, -, he⟩
  · simpa [Auth.userKeys, hu] using hp
  · exact he.kept p hp

theorem Acts.isCuid {cfg : AppConfig} {c : Choice} {w w' : World} {call : Call} {pc pc' : Pc}
    (h : Acts cfg c w call pc w' pc') (hw : ∀ p ∈ Auth.userKeys w, isCuid p.1 = true) :
    ∀ p ∈ Auth.userKeys w', Intaktok.isCuid p.1 = true := by
  intro p hp
  rcases h.tables with ⟨hu, -⟩ | ⟨_, _, _, -, -, -, he⟩
  · exact hw p (by simpa [Auth.userKeys, hu] using hp)
  · rcases he.new p hp with hp | ⟨hc, -⟩
    · exact hw p hp
    · exact hc

/-- Only the `SET` of `issueTokens` makes a key appear. -/
theorem Acts.exists_of_exists {cfg : AppConfig} {c : Choice} {w w' : World} {call : Call}
    {pc pc' : Pc} (h : Acts cfg c w call pc w' pc') {key : String} (he : w'.exists? key = true) :
    w.exists? key = true ∨ ∃ userId tokens caller, pc = .store userId tokens caller ∧
      key = refreshKey userId tokens.refreshToken.jti := by
  by_contra hno
  simp only [not_or, not_exists, not_and] at hno
  have hn := h.lookup_none (fun u tokens caller hpc => Ne.symm (hno.2 u tokens caller hpc))
    (World.exists?_eq_false.1 (by simpa using hno.1))
  rw [World.exists?_eq_false.2 hn] at he
  cases he

/-! ## Who a call acts for -/

/-- The user a call has looked up and goes on to act for. -/
def holder : Call → Pc → Option String
  | _, .profile u => some u.id
  | _, .sign userId _ => some userId
  | _, .store userId _ _ => some userId
  | .refresh token, .del => some token.sub
  | _, _ => none

/-- The user exists, and the whitelist row a login has read is that of its `kakaoId`. -/
structure Knows (call : Call) (w : World) (pc : Pc) : Prop where
  user : ∀ uid, holder call pc = some uid → ∃ k, (uid, k) ∈ userKeys w
  row : ∀ info row, call = .kakaoLogin info → pc = .enroll row →
    (row.id, some info.kakaoId) ∈ listKeys w

theorem Knows.mono {call : Call} {w w' : World} {pc : Pc} (h : Knows call w pc)
    (hu : ∀ p ∈ userKeys w, p ∈ userKeys w') (hl : listKeys w' = listKeys w) :
    Knows call w' pc where
  user uid hh := let ⟨k, hk⟩ := h.user uid hh; ⟨k, hu _ hk⟩
  row info row hc hpc := by rw [hl]; exact h.row info row hc hpc

theorem knows_start (call : Call) (w : World) : Knows call w (start call) where
  user uid hh := by cases call <;> cases hh
  row info row hc hpc := by subst hc; cases hpc

theorem Acts.knows {cfg : AppConfig} {c : Choice} {w w' : World} {call : Call} {pc pc' : Pc}
    (h : Acts cfg c w call pc w' pc') (hk : Knows call w pc) : Knows call w' pc' where
  user uid hh := by
    have hold : holder call pc = some uid → ∃ k, (uid, k) ∈ Auth.userKeys w' :=
      fun h' => let ⟨k, hm⟩ := hk.user uid h'; ⟨k, h.userKeys hm⟩
    cases h with
    | enroll he =>
      rcases enrolled_of_enroll he with ⟨u', hu, hen⟩ | ⟨⟨_, he⟩, -⟩
      · cases hu; cases hh; exact ⟨_, hen.mine⟩
      · cases he
    | @active token ha =>
      simp only [Option.any_eq_true, decide_eq_true_eq] at ha
      obtain ⟨u, hf, -⟩ := ha
      obtain ⟨hmem, hid⟩ := Table.find_some hf
      cases hh
      exact ⟨_, mem_userKeys.2 ⟨u, hmem, by simpa using hid, rfl⟩⟩
    | _ => first | exact hold hh | cases hh
  row info row hc hpc := by
    subst hc hpc
    cases h with
    | listed hf =>
      obtain ⟨hmem, hkk⟩ := Table.find_some hf
      exact mem_listKeys.2 ⟨_, hmem, rfl, by simpa using hkk⟩

/-! ## `refresh:{userId}:*` -/

/-- Neither glob characters nor a colon. -/
def plainId (u : String) : Bool := u.toList.all fun c => KeyValue.plain c && c != ':'

theorem plainId_of_isCuid {u : String} (hu : isCuid u = true) : plainId u = true := by
  refine List.all_eq_true.2 fun c hc => ?_
  have ha := List.all_eq_true.1 hu c hc
  simp only [KeyValue.plain, Bool.and_eq_true, bne_iff_ne, ne_eq]
  refine ⟨⟨⟨⟨?_, ?_⟩, ?_⟩, ?_⟩, ?_⟩ <;> (rintro rfl; revert ha; decide)

theorem plain_of_plainId {u : String} (hu : plainId u = true) :
    ∀ c ∈ ("refresh:" ++ u ++ ":").toList, KeyValue.plain c = true := by
  intro c hc
  simp only [String.toList_append, List.mem_append] at hc
  rcases hc with (hc | hc) | hc
  · exact List.all_eq_true.1 (by decide : "refresh:".toList.all KeyValue.plain = true) c hc
  · exact (Bool.and_eq_true_iff.1 (List.all_eq_true.1 hu c hc)).1
  · exact List.all_eq_true.1 (by decide : ":".toList.all KeyValue.plain = true) c hc

/-- The pattern matches the keys that start with `refresh:{userId}:`. -/
theorem glob_sessionPattern {u key : String} (hu : plainId u = true) :
    KeyValue.glob (sessionPattern u) key = true ↔
      ("refresh:" ++ u ++ ":").toList <+: key.toList := by
  have hp : (sessionPattern u).toList = ("refresh:" ++ u ++ ":").toList ++ ['*'] := by
    simp [sessionPattern]
  rw [KeyValue.glob, hp, KeyValue.globMatch_prefix (plain_of_plainId hu)]

theorem glob_refreshKey {u : String} (hu : plainId u = true) (jti : String) :
    KeyValue.glob (sessionPattern u) (refreshKey u jti) = true := by
  rw [glob_sessionPattern hu]
  exact ⟨jti.toList, by simp [refreshKey]⟩

/-- The pattern of one user matches no key of another. -/
theorem eq_of_glob_refreshKey {u v jti : String} (hu : plainId u = true) (hv : plainId v = true)
    (h : KeyValue.glob (sessionPattern u) (refreshKey v jti) = true) : u = v := by
  rw [glob_sessionPattern hu] at h
  obtain ⟨rest, hr⟩ := h
  simp only [refreshKey, String.toList_append, List.append_assoc] at hr
  have hr' : u.toList ++ ':' :: rest = v.toList ++ ':' :: jti.toList := by simpa using hr
  -- an id is what stands before the first colon
  have hcut : ∀ {x : String} {l : List Char}, plainId x = true →
      (x.toList ++ ':' :: l).takeWhile (· != ':') = x.toList := by
    intro x l hx
    rw [List.takeWhile_append_of_pos]
    · simp
    · intro c hc
      have hne : c ≠ ':' := by
        rintro rfl
        have ha := List.all_eq_true.1 hx ':' hc
        simp at ha
      simpa using hne
  have hl := congrArg (List.takeWhile (· != ':')) hr'
  rw [hcut hu, hcut hv] at hl
  exact String.toList_inj.1 hl

end Intaktok.Auth
