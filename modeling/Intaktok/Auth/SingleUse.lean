import Intaktok.Auth.Service
/-
# Refresh tokens are single use as long as `DEL` finds the key

`refresh` looks the key of its token up (`EXISTS`, `auth.service.ts:156`), reads the user, and only
then deletes the key (`:169`) without asking how many keys the `DEL` removed. Two calls with one
token that both pass the lookup before either deletes both go on to `issueTokens`
(`refresh_redeemed_twice`).

`Fresh t` is the order of steps in which this cannot happen: a call that is about to delete the
key of `t` finds it still there. In every such run at most one call redeems `t`
(`refresh_single_use`): a redeemed token has no key left, and no `SET` brings the key back,
because every `SET` writes the key of a newly drawn jti.
-/

namespace Intaktok.Auth

open Interleave

/-! ## Keys of different jtis are different -/

theorem colon_notMem_of_isUuid {s : String} (h : isUuid s = true) : ':' ∉ s.toList := by
  intro hc
  have := List.all_eq_true.1 h ':' hc
  revert this
  decide

/-- What stands after the last colon of a key is its jti. -/
theorem takeWhile_reverse_key {u j : String} (hj : isUuid j = true) :
    (refreshKey u j).toList.reverse.takeWhile (· != ':') = j.toList.reverse := by
  have hkey : (refreshKey u j).toList.reverse =
      j.toList.reverse ++ ':' :: ("refresh:".toList ++ u.toList).reverse := by
    simp [refreshKey]
  rw [hkey, List.takeWhile_append_of_pos]
  · simp
  · intro c hc
    have hne : c ≠ ':' := by
      rintro rfl; exact colon_notMem_of_isUuid hj (List.mem_reverse.1 hc)
    simpa using hne

theorem refreshKey_jti_inj {u u' j j' : String} (hj : isUuid j = true) (hj' : isUuid j' = true)
    (h : refreshKey u j = refreshKey u' j') : j = j' := by
  have hrev : j.toList.reverse = j'.toList.reverse := by
    rw [← takeWhile_reverse_key (u := u) hj, h, takeWhile_reverse_key hj']
  exact String.toList_inj.1 (List.reverse_injective hrev)

/-! ## The guarded runs -/

/-- `t` is a refresh token that `issueTokens` has handed out. -/
structure Issued (w : World) (t : Jwt) : Prop where
  signed : t ∈ w.issued
  type : t.type = .refresh
  jti : isUuid t.jti = true

/-- The `DEL` of a `refresh(t)` call finds the key of `t`. -/
def Fresh (t : Jwt) : Discipline World Call Pc where
  alone call w pc := call = .refresh t → pc = .del →
    w.exists? (refreshKey t.sub t.jti) = true
  beside _ _ _ _ _ := True

/-- The call has deleted its key and is on its way to a new token pair, or has returned it. -/
def redeemed : Pc → Bool
  | .sign _ _ | .store _ _ _ | .done (.ok _) => true
  | _ => false

/-- `refresh` has returned a new token pair. -/
def returned : Pc → Bool
  | .done (.ok (.tokens _)) => true
  | _ => false

theorem redeemed_of_returned {pc : Pc} (h : returned pc = true) : redeemed pc = true := by
  unfold returned at h
  split at h
  · rfl
  · cases h

/-- A redeemed token has no key, a pending `SET` is for another jti, and no two calls have
redeemed the token. -/
def singleUse (t : Jwt) : Outline World Call Pc where
  glob w := t ∈ w.issued
  own call w pc := (call = .refresh t → redeemed pc = true →
      w.lookup (refreshKey t.sub t.jti) = none) ∧
    ∀ userId tokens caller, pc = .store userId tokens caller →
      refreshKey userId tokens.refreshToken.jti ≠ refreshKey t.sub t.jti
  apart call pc call₂ pc₂ :=
    ¬ (call = .refresh t ∧ redeemed pc = true ∧ call₂ = .refresh t ∧ redeemed pc₂ = true)

theorem fresh_ne {cfg : AppConfig} {w : World} {t : Jwt} {u jti : String} (ht : t ∈ w.issued)
    (hj : isUuid t.jti = true) (hf : freshJti w jti = true) :
    refreshKey u (signTokens cfg w u jti).refreshToken.jti ≠ refreshKey t.sub t.jti := by
  simp only [freshJti, Bool.and_eq_true, Bool.not_eq_true', List.any_eq_false] at hf
  intro h
  have he : jti = t.jti := refreshKey_jti_inj hf.1.2 hj h
  exact hf.2 t ht (by simp [he])

theorem Acts.issued_mono {cfg : AppConfig} {c : Choice} {w w' : World} {call : Call} {pc pc' : Pc}
    (h : Acts cfg c w call pc w' pc') {t : Jwt} (ht : t ∈ w.issued) : t ∈ w'.issued := by
  cases h with
  | record hu => obtain ⟨t, rfl⟩ := upsertAccessRequest_world hu; exact ht
  | enroll he => obtain ⟨t, t', rfl⟩ := enroll_world he; exact ht
  | enrollFailed he => obtain ⟨t, t', rfl⟩ := enroll_world he; exact ht
  | sign => exact List.mem_append_left _ ht
  | sweep hsw | swept hsw =>
    rcases sweepStep_world hsw with rfl | ⟨k, rfl⟩
    · exact ht
    · exact ht
  | _ => exact ht

/-- A `refresh(t)` call redeems `t` by its `DEL` only. -/
theorem Acts.redeems {cfg : AppConfig} {c : Choice} {w w' : World} {t : Jwt} {pc pc' : Pc}
    (h : Acts cfg c w (.refresh t) pc w' pc') (hr : redeemed pc' = true) :
    redeemed pc = true ∨ (pc = .del ∧ w' = w.del (refreshKey t.sub t.jti)) := by
  cases h with
  | sign | store => exact .inl rfl
  | del => exact .inr ⟨rfl, rfl⟩
  | _ => simp [redeemed, fail] at hr

theorem singleUse_valid {cfg : AppConfig} {t : Jwt} (hj : isUuid t.jti = true) :
    (singleUse t).Valid (machine cfg) (Fresh t) Outline.top where
  move {c call w pc w' pc'} a := by
    have h := acts_of_step a.step
    refine ⟨h.issued_mono a.glob, fun hcall hr => ?_, fun u tokens caller hpc => ?_⟩
    · subst hcall
      rcases h.redeems hr with hr' | ⟨rfl, rfl⟩
      · exact h.lookup_none a.own.2 (a.own.1 rfl hr')
      · exact World.lookup_del_self _ _
    · subst hpc
      cases h with
      | sign hf => exact fresh_ne a.glob hj hf
  keep {c call w pc w' pc' call₂ pc₂} a b := by
    have h := acts_of_step a.step
    refine ⟨⟨fun hcall hr => h.lookup_none a.own.2 (b.own.1 hcall hr), b.own.2⟩, ?_⟩
    rintro ⟨rfl, hr, hcall₂, hr₂⟩
    rcases h.redeems hr with hr' | ⟨rfl, -⟩
    · exact b.apart ⟨rfl, hr', hcall₂, hr₂⟩
    · -- the key is still there, so nobody has redeemed the token before
      have hk := a.alone rfl rfl
      rw [World.exists?_eq_true] at hk
      obtain ⟨v, hv⟩ := hk
      rw [b.own.1 hcall₂ hr₂] at hv
      cases hv
  symm h := fun ⟨h₁, h₂, h₃, h₄⟩ => h ⟨h₃, h₄, h₁, h₂⟩
  env ms {w} hg := ⟨hg, fun ho => ⟨fun hc hr => World.lookup_tick_none (ho.1 hc hr) ms, ho.2⟩⟩

theorem singleUse_initial {ι : Type} {calls : ι → Call} {w : World} {t : Jwt} {cfg : AppConfig}
    (ht : t ∈ w.issued) : (singleUse t).Holds calls ((machine cfg).initial calls w) := by
  have hstart : ∀ call, redeemed (start call) = false ∧
      ∀ u tokens caller, start call ≠ .store u tokens caller := by
    intro call; cases call <;> exact ⟨rfl, fun _ _ _ h => by cases h⟩
  refine ⟨ht, fun i => ⟨fun _ hr => ?_, fun u tokens caller h => ?_⟩, fun i j _ => ?_⟩
  · have := (hstart (calls i)).1
    simp only [Machine.initial, machine] at hr
    rw [this] at hr; cases hr
  · exact absurd h ((hstart (calls i)).2 u tokens caller)
  · rintro ⟨-, hr, -⟩
    simp only [Machine.initial, machine] at hr
    rw [(hstart (calls i)).1] at hr; cases hr

/-- **Single use.** If every `DEL` of a `refresh(t)` call finds the key of `t`, then of any number
of overlapping calls at most one returns a new token pair, whatever other logins, refreshes and
logouts run beside them. -/
theorem refresh_single_use {ι : Type} [DecidableEq ι] (cfg : AppConfig) (calls : ι → Call)
    (w : World) (t : Jwt) (ht : Issued w t) {P : Pool World Pc ι}
    (hrun : Run (machine cfg) (Fresh t) calls ((machine cfg).initial calls w) P) {i j : ι}
    (hi : calls i = .refresh t) (hj : calls j = .refresh t) (ri : returned (P.pcs i) = true)
    (rj : returned (P.pcs j) = true) : i = j := by
  have hO := (singleUse_valid ht.jti).run (fun _ => Outline.top_holds _ _)
    (singleUse_initial ht.signed) hrun
  by_contra hne
  exact hO.apart i j hne ⟨hi, redeemed_of_returned ri, hj, redeemed_of_returned rj⟩

/-! ## Two calls, one token -/

/-- A refresh token of the user `u1`. -/
def tokenU1 : Jwt := ⟨"change-me-refresh", "u1", .refresh, "j0", 2592000⟩

/-- `u1` has logged in once. -/
def worldU1 : World where
  db.users := ⟨[⟨"u1", "ku1", .ACTIVE⟩], by decide⟩
  redis := [(refreshKey "u1" "j0", ⟨.str "1", some 2592000000⟩)]
  issued := [tokenU1]

theorem tokenU1_issued : Issued worldU1 tokenU1 := ⟨by decide, rfl, by decide⟩

/-- Two calls with the same token. -/
def calls2 : Bool → Call := fun _ => .refresh tokenU1

def go (i : Bool) (jti : String) : Move Bool Choice Nat := .step i { id := jti }

def freshOk (P : Pool World Pc Bool) (i : Bool) : Bool :=
  match P.pcs i with
  | .del => P.shared.exists? (refreshKey tokenU1.sub tokenU1.jti)
  | _ => true

theorem freshOk_allows {P : Pool World Pc Bool} {i : Bool} (h : freshOk P i = true) :
    (Fresh tokenU1).allows calls2 P i := by
  refine ⟨fun _ hpc => ?_, fun _ _ => trivial⟩
  simpa [freshOk, hpc] using h

/-- One call after the other: the first returns a pair, so the second cannot. -/
theorem refresh_single_use_u1 : ∃ P : Pool World Pc Bool,
    Run (machine {}) (Fresh tokenU1) calls2 ((machine {}).initial calls2 worldU1) P ∧
      returned (P.pcs false) = true ∧ returned (P.pcs true) = false := by
  let schedule := [go false "", go false "", go false "", go false "", go false "j1", go false "",
    go true "", go true ""]
  have hexec : ((machine {}).exec freshOk calls2 ((machine {}).initial calls2 worldU1)
      schedule).any (fun P => returned (P.pcs false)) = true := by decide
  obtain ⟨P, hrun, hP⟩ := Machine.exec_reaches freshOk_allows hexec
  refine ⟨P, hrun, hP, Bool.eq_false_iff.2 fun hR => ?_⟩
  cases refresh_single_use {} calls2 worldU1 tokenU1 tokenU1_issued hrun (i := false) (j := true)
    rfl rfl hP hR

/-- **Reused token.** Both calls look the key up before either deletes it; both return a new
pair. -/
theorem refresh_redeemed_twice : ¬ ∀ (ι : Type) [DecidableEq ι] (cfg : AppConfig)
    (calls : ι → Call) (w : World) (t : Jwt), Issued w t → ∀ P : Pool World Pc ι,
    Run (machine cfg) Discipline.free calls ((machine cfg).initial calls w) P → ∀ i j,
    calls i = .refresh t → calls j = .refresh t → returned (P.pcs i) = true →
    returned (P.pcs j) = true → i = j := by
  intro h
  -- verify, EXISTS and the user lookup of both, then DEL, issueTokens of both
  let schedule := [go false "", go false "", go false "", go true "", go true "", go true "",
    go false "", go true "", go false "j1", go false "", go true "j2", go true ""]
  have hexec : ((machine {}).exec always calls2 ((machine {}).initial calls2 worldU1)
      schedule).any (fun P => returned (P.pcs false) && returned (P.pcs true)) = true := by decide
  obtain ⟨P, hrun, hP⟩ := Machine.exec_reaches_free hexec
  simp only [Bool.and_eq_true] at hP
  cases h Bool {} calls2 worldU1 tokenU1 tokenU1_issued P hrun false true rfl rfl hP.1 hP.2

end Intaktok.Auth
