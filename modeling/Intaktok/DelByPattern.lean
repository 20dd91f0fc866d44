import Intaktok.World
/-
# `delByPattern`

| here | there |
| --- | --- |
| `Sweep`, `sweepStep` | `RedisService.delByPattern` (`redis.service.ts:79`): the `SCAN` loop, then the pipeline of `DEL`s |

`SCAN` returns every matching key that is there from the first request to the last, and may or may
not return one that comes or goes in between; no refresh key is written twice, so a key seen at
both ends was there throughout.
-/

namespace Intaktok

inductive Sweep where
  | scan
  /-- Between the first `SCAN` and the last; the keys that matched at the start. -/
  | scanning (atStart : List String)
  | deleting (keys : List String)
deriving DecidableEq, Repr

/-- One action of the sweep; `none` in the second component means that it has finished. -/
def sweepStep (c : Choice) (pattern : String) (w : World) : Sweep → Option (World × Option Sweep)
  | .scan =>
    some (w, some (.scanning ((KeyValue.keys w.now w.redis).filter (KeyValue.glob pattern))))
  | .scanning atStart =>
    if atStart.all (fun k => !w.exists? k || c.keys.contains k) &&
        c.keys.all (KeyValue.glob pattern) then
      -- `if (found) await pipeline.exec()`
      some (w, if c.keys.isEmpty then none else some (.deleting c.keys))
    else none
  | .deleting [] => some (w, none)
  | .deleting (k :: ks) => some (w.del k, if ks.isEmpty then none else some (.deleting ks))

theorem sweepStep_world {c : Choice} {pattern : String} {w w' : World} {sw : Sweep}
    {n : Option Sweep} (h : sweepStep c pattern w sw = some (w', n)) :
    w' = w ∨ ∃ k, w' = w.del k := by
  cases sw with
  | scan => simp only [sweepStep, Option.some.injEq, Prod.mk.injEq] at h; exact .inl h.1.symm
  | scanning atStart =>
    simp only [sweepStep] at h
    split at h
    · simp only [Option.some.injEq, Prod.mk.injEq] at h; exact .inl h.1.symm
    · cases h
  | deleting keys =>
    cases keys with
    | nil => simp only [sweepStep, Option.some.injEq, Prod.mk.injEq] at h; exact .inl h.1.symm
    | cons k ks =>
      simp only [sweepStep, Option.some.injEq, Prod.mk.injEq] at h; exact .inr ⟨k, h.1.symm⟩

/-- Only keys the pattern matches are to be deleted. -/
def Sweep.Within (pattern : String) : Sweep → Prop
  | .scan => True
  | .scanning keys | .deleting keys => ∀ key ∈ keys, KeyValue.glob pattern key = true

/-- The sweep deletes matching keys only, and has looked at the keys after its first action. -/
theorem Sweep.Within.step {c : Choice} {pattern : String} {w w' : World} {sw : Sweep}
    {n : Option Sweep} (h : Within pattern sw) (hs : sweepStep c pattern w sw = some (w', n)) :
    (w' = w ∨ ∃ k, KeyValue.glob pattern k = true ∧ w' = w.del k) ∧
      (∀ sw' ∈ n, sw' ≠ .scan ∧ Within pattern sw') ∧ (sw = .scan → w' = w ∧ n ≠ none) := by
  cases sw with
  | scan =>
    simp only [sweepStep, Option.some.injEq, Prod.mk.injEq] at hs
    obtain ⟨rfl, rfl⟩ := hs
    refine ⟨.inl rfl, ?_, by simp⟩
    rintro sw' hsw
    cases hsw
    exact ⟨by simp, fun key hk => (List.mem_filter.1 hk).2⟩
  | scanning atStart =>
    simp only [sweepStep] at hs
    split at hs
    · rename_i hc
      simp only [Bool.and_eq_true, List.all_eq_true] at hc
      simp only [Option.some.injEq, Prod.mk.injEq] at hs
      obtain ⟨rfl, rfl⟩ := hs
      refine ⟨.inl rfl, fun sw' hsw => ?_, by simp⟩
      split at hsw
      · cases hsw
      · cases hsw; exact ⟨by simp, hc.2⟩
    · cases hs
  | deleting keys =>
    cases keys with
    | nil =>
      simp only [sweepStep, Option.some.injEq, Prod.mk.injEq] at hs
      obtain ⟨rfl, rfl⟩ := hs
      exact ⟨.inl rfl, by simp, by simp⟩
    | cons k ks =>
      simp only [sweepStep, Option.some.injEq, Prod.mk.injEq] at hs
      obtain ⟨rfl, rfl⟩ := hs
      refine ⟨.inr ⟨k, h k List.mem_cons_self, rfl⟩, fun sw' hsw => ?_, by simp⟩
      split at hsw
      · cases hsw
      · cases hsw; exact ⟨by simp, fun key hk => h key (List.mem_cons_of_mem k hk)⟩

/-- Every key the pattern matches is still to be deleted; `none` is the end of the sweep. -/
def Sweep.Covers (pattern : String) (w : World) : Option Sweep → Prop
  | some .scan => True
  | some (.scanning keys) | some (.deleting keys) =>
    ∀ key, KeyValue.glob pattern key = true → w.exists? key = true → key ∈ keys
  | none => ∀ key, KeyValue.glob pattern key = true → w.exists? key = false

/-- What adds no matching key leaves the sweep as good as it was. -/
theorem Sweep.Covers.mono {pattern : String} {w w' : World} {sw : Option Sweep}
    (h : Covers pattern w sw)
    (hw : ∀ key, KeyValue.glob pattern key = true → w'.exists? key = true → w.exists? key = true) :
    Covers pattern w' sw := by
  match sw, h with
  | some .scan, _ => trivial
  | some (.scanning _), h | some (.deleting _), h => exact fun key hg he => h key hg (hw key hg he)
  | none, h =>
    intro key hg
    by_contra hc
    have he := hw key hg (by simpa using hc)
    rw [h key hg] at he
    cases he

/-- The rest of a pipeline covers the keys it names, also when nothing is left of it. -/
theorem Sweep.Covers.of_rest {pattern : String} {w : World} {keys : List String}
    (h : ∀ key, KeyValue.glob pattern key = true → w.exists? key = true → key ∈ keys) :
    Covers pattern w (if keys.isEmpty then none else some (.deleting keys)) := by
  split
  · rename_i hnil
    rw [List.isEmpty_iff] at hnil
    intro key hg
    by_contra hex
    have hmem := h key hg (by simpa using hex)
    rw [hnil] at hmem
    cases hmem
  · exact h

/-- Every action of the sweep keeps what is left of it covering. -/
theorem Sweep.Covers.step {c : Choice} {pattern : String} {w w' : World} {sw : Sweep}
    {n : Option Sweep} (h : Covers pattern w (some sw))
    (hs : sweepStep c pattern w sw = some (w', n)) : Covers pattern w' n := by
  cases sw with
  | scan =>
    simp only [sweepStep, Option.some.injEq, Prod.mk.injEq] at hs
    obtain ⟨rfl, rfl⟩ := hs
    intro key hg he
    rw [World.exists?_eq_true] at he
    exact List.mem_filter.2 ⟨KeyValue.mem_keys.2 he, hg⟩
  | scanning atStart =>
    simp only [sweepStep] at hs
    split at hs
    · rename_i hc
      simp only [Bool.and_eq_true, List.all_eq_true, Bool.or_eq_true, Bool.not_eq_true'] at hc
      simp only [Option.some.injEq, Prod.mk.injEq] at hs
      obtain ⟨rfl, rfl⟩ := hs
      -- what is there at both ends has been returned
      refine Covers.of_rest fun key hg he => ?_
      rcases hc.1 key (h key hg he) with hno | hin
      · rw [he] at hno; cases hno
      · simpa using hin
    · cases hs
  | deleting keys =>
    cases keys with
    | nil =>
      simp only [sweepStep, Option.some.injEq, Prod.mk.injEq] at hs
      obtain ⟨rfl, rfl⟩ := hs
      exact Covers.of_rest h
    | cons k ks =>
      simp only [sweepStep, Option.some.injEq, Prod.mk.injEq] at hs
      obtain ⟨rfl, rfl⟩ := hs
      refine Covers.of_rest fun key hg he => ?_
      by_cases hk : key = k
      · subst hk; simp [World.exists?] at he
      · have he' : w.exists? key = true := by simpa [World.exists?, hk] using he
        exact (List.mem_cons.1 (h key hg he')).resolve_left hk

end Intaktok
