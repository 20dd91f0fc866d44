import Intaktok.Messages.Drift
/-
# A counter that has drifted: many senders

`resyncSeq` reads the database maximum and overwrites the counter with it in a second step
(`messages.service.ts:84`). A sender that is slow between the two sets the counter back behind
numbers that others have taken in the meantime (`resync_lowers`).

`Undisturbed r` is the order of steps in which this cannot happen: the maximum is read only while
the counter is not past it, and from then to the `SET` nobody counts past it. In such runs every
`SET` raises the counter, after the first of them the counter is ahead of the room for good, and
so no sender collides twice (`recovers_under_load`).
-/

namespace Intaktok.Messages

open Interleave Tables

def Undisturbed (r : String) : Discipline World Call Pc where
  alone call w pc := ∀ p a n, call = .createMessage p → p.roomId = r →
    pc = .create (.resyncMax a) → w.lookup (seqKey r) = some (.num n) → n ≤ dbMaxSeq w.db r
  beside call w pc call₂ pc₂ := ∀ p a p₂ a₂ max n, call = .createMessage p → p.roomId = r →
    pc = .create (.seqIncr a) → call₂ = .createMessage p₂ → p₂.roomId = r →
    pc₂ = .create (.resyncSet a₂ max) → w.lookup (seqKey r) = some (.num n) → n < max

/-- The counter is there and not behind the room. -/
def Ahead (r : String) (w : World) : Prop :=
  ∃ n, w.lookup (seqKey r) = some (.num n) ∧ ∀ s ∈ seqs w.db r, s ≤ n

/-- What a call that is about to do `pc` knows about the room. A call resyncs on its first attempt
only; from then on its numbers are new. -/
def Recovering (r : String) (w : World) : CreatePc → Prop
  | .seqExists a => 0 < a → Ahead r w
  | .seqMax a => a = 0
  | .seqSetNx a max => a = 0 ∧ (w.lookup (seqKey r) = none → ∀ s ∈ seqs w.db r, s ≤ max)
  | .seqIncr a => w.lookup (seqKey r) ≠ none ∧ (0 < a → Ahead r w)
  | .insert a seq => (∃ n, w.lookup (seqKey r) = some (.num n) ∧ seq ≤ n) ∧
      (0 < a → seq ∉ seqs w.db r)
  | .resyncMax a => a = 0 ∧ w.lookup (seqKey r) ≠ none
  | .resyncSet a max => a = 0 ∧ max = dbMaxSeq w.db r ∧
      ∃ n, w.lookup (seqKey r) = some (.num n) ∧ n ≤ max
  | .done (.error (.app e)) => e.code ≠ .CONFLICT
  | _ => True

def recovery (r : String) : Outline World Call Pc where
  glob := Counts r
  own call w pc := ∀ p pc₁, call = .createMessage p → pc = .create pc₁ → p.roomId = r →
    Recovering r w pc₁
  apart call pc call₂ pc₂ := ∀ s, pending r call pc = some s → pending r call₂ pc₂ ≠ some s

/-! ## On the way -/

theorem recovering_of_checking {r : String} {w : World} {pc : CreatePc} (h : Checking pc) :
    Recovering r w pc := by
  cases h with
  | seqExists => exact fun h => absurd h (lt_irrefl 0)
  | _ => trivial

theorem recovering_afterMember {r : String} {w : World} (p : CreateMessageParams) :
    Recovering r w (afterMember p) := by
  unfold afterMember
  split
  · rename_i e he
    exact validatePayload_code he
  · trivial
  · exact recovering_of_checking (checking_afterMedia p)

/-! ## One action -/

/-- What an action in the room does to its counter and its numbers. -/
structure Progress (r : String) (w : World) (pc : CreatePc) (w' : World) (pc' : CreatePc) :
    Prop where
  counts : Counts r w'
  own : Recovering r w' pc'
  counter : ∀ n, w.lookup (seqKey r) = some (.num n) →
    ∃ n', n ≤ n' ∧ w'.lookup (seqKey r) = some (.num n')
  numbers : ∀ s ∈ seqs w'.db r, s ∈ seqs w.db r ∨
    ∃ a n, pc = .insert a s ∧ w.lookup (seqKey r) = some (.num n) ∧ s ≤ n
  issued : ∀ a s, pc' = .insert a s → ∀ n, w.lookup (seqKey r) = some (.num n) → n < s
  resync : ∀ n, w.lookup (seqKey r) = some (.num n) → n ≤ dbMaxSeq w.db r →
    (∀ a, pc = .seqIncr a → n < dbMaxSeq w.db r) →
    dbMaxSeq w'.db r = dbMaxSeq w.db r ∧
      ∃ n', w'.lookup (seqKey r) = some (.num n') ∧ n' ≤ dbMaxSeq w.db r

theorem Progress.of_same {r : String} {w w' : World} {pc pc' : CreatePc} (hc : Counts r w)
    (hl : w'.lookup (seqKey r) = w.lookup (seqKey r))
    (hlast : KeyValue.Lasting (seqKey r) w'.redis) (hs : stubs w'.db = stubs w.db)
    (hown : Recovering r w' pc') (hpc : ∀ a s, pc' ≠ .insert a s) : Progress r w pc w' pc' where
  counts := ⟨hlast, fun v hv => hc.number v (hl ▸ hv)⟩
  own := hown
  counter n hn := ⟨n, le_rfl, by rw [hl, hn]⟩
  numbers s hm := .inl ((seqs_congr hs r s).1 hm)
  issued a s h := absurd h (hpc a s)
  resync n hn hle _ := ⟨dbMaxSeq_congr hs r, n, by rw [hl, hn], hle⟩

section Actions
variable {json : Json} {c : Choice} {p : CreateMessageParams} {w w' : World} {pc pc' : CreatePc}
  {a : Nat}

theorem progress_setNx {max : Nat} (hc : Counts p.roomId w)
    (hn : Recovering p.roomId w (.seqSetNx a max)) :
    Progress p.roomId w (.seqSetNx a max) (w.setNx (seqKey p.roomId) (.num max)) (.seqIncr a) := by
  obtain ⟨rfl, hmax⟩ := hn
  have hl := World.lookup_setNx w (seqKey p.roomId) (seqKey p.roomId) (.num max)
  rw [if_pos rfl] at hl
  exact {
    counts := hc.setNx max
    own := ⟨by simp [hl], fun h => absurd h (lt_irrefl 0)⟩
    counter := fun n hn' => ⟨n, le_rfl, by rw [hl, hn']; rfl⟩
    numbers := fun s hm => .inl (by rwa [World.setNx_db] at hm)
    issued := by simp
    resync := fun n hn' hle _ => ⟨by rw [World.setNx_db], n, by rw [hl, hn']; rfl, hle⟩ }

theorem progress_incr {seq : Nat} (hc : Counts p.roomId w)
    (hn : Recovering p.roomId w (.seqIncr a)) (hi : w.incr (seqKey p.roomId) = some (w', seq)) :
    Progress p.roomId w (.seqIncr a) w' (.insert a seq) := by
  have hc' := hc.incr hi
  obtain ⟨⟨_, rfl⟩, hl, -, hcase, -⟩ := World.incr_spec hi
  rcases hcase with ⟨hnone, -⟩ | ⟨m, hm, rfl⟩
  · exact absurd hnone hn.1
  · have only : ∀ n, w.lookup (seqKey p.roomId) = some (.num n) → n = m := by
      intro n hn'
      rw [hm] at hn'
      cases hn'
      rfl
    refine {
      counts := hc'
      own := ⟨⟨m + 1, hl, le_rfl⟩, fun ha hs => ?_⟩
      counter := fun n hn' => ⟨m + 1, ?_, hl⟩
      numbers := fun s hs => .inl hs
      issued := fun a s hpc n hn' => ?_
      resync := fun n hn' _ hlt => ⟨rfl, m + 1, hl, ?_⟩ }
    · obtain ⟨n, hn', hle⟩ := hn.2 ha
      obtain rfl := only n hn'
      have hold := hle _ hs
      omega
    · obtain rfl := only n hn'
      omega
    · obtain rfl := only n hn'
      cases hpc
      omega
    · obtain rfl := only n hn'
      exact hlt a rfl

theorem progress_inserted {seq : Nat} {m : Message} (hc : Counts p.roomId w)
    (hn : Recovering p.roomId w (.insert a seq)) (hcr : createRow p c.id seq w = .ok (w', m)) :
    Progress p.roomId w (.insert a seq) w' (.roomUpdate m) := by
  have hseqs := fun s => seqs_createRow (r := p.roomId) hcr s
  obtain ⟨type, t, -, rfl, -, rfl, -⟩ := createRow_ok hcr
  obtain ⟨⟨n, hl, hle⟩, -⟩ := hn
  refine {
    counts := ⟨hc.lasting, hc.number⟩
    own := trivial
    counter := fun n hn => ⟨n, le_rfl, hn⟩
    numbers := fun s hs => ?_
    issued := by simp
    resync := fun n' hn' hle' _ => ⟨?_, n', hn', hle'⟩ }
  · rcases (hseqs s).1 hs with hs | ⟨-, rfl⟩
    · exact .inl hs
    · exact .inr ⟨a, n, rfl, hl, hle⟩
  · -- the new number is not past the counter, and that is not past the maximum
    have heq : n' = n := by
      have hnum := hl.symm.trans hn'
      cases hnum; rfl
    refine Nat.le_antisymm (dbMaxSeq_le fun s hs => ?_) (dbMaxSeq_le fun s hs => ?_)
    · rcases (hseqs s).1 hs with hs | ⟨-, rfl⟩
      · exact le_dbMaxSeq hs
      · omega
    · exact le_dbMaxSeq ((hseqs s).2 (.inl hs))

/-- The second attempt has a counter that is ahead, and there is no third. -/
theorem progress_resyncSet {max : Nat} (hc : Counts p.roomId w)
    (hn : Recovering p.roomId w (.resyncSet a max)) :
    Progress p.roomId w (.resyncSet a max) (w.set (seqKey p.roomId) (.num max))
      (if a + 1 < SEQ_RETRY then .seqExists (a + 1)
        else .fail (Errors.conflict "메시지 시퀀스 발급에 실패했습니다.")) := by
  obtain ⟨rfl, rfl, n, hl, hle⟩ := hn
  have hl' := World.lookup_set_self w (seqKey p.roomId) (.num (dbMaxSeq w.db p.roomId))
  rw [if_pos (by decide)]
  refine {
    counts := hc.set _
    own := fun _ => ⟨_, hl', fun s hs => le_dbMaxSeq hs⟩
    counter := fun n' hn' => ⟨_, ?_, hl'⟩
    numbers := fun s hs => .inl hs
    issued := by simp
    resync := fun _ _ _ _ => ⟨rfl, _, hl', le_rfl⟩ }
  rw [hl] at hn'
  cases hn'
  exact hle

/-- Each action of a `createMessage` call in the room keeps the recovery going. -/
theorem CreateActs.progress {r : String} (h : CreateActs json c p w pc w' pc')
    (hr : p.roomId = r) (hc : Counts r w) (hn : Recovering r w pc)
    (hread : ∀ a n, pc = .resyncMax a → w.lookup (seqKey r) = some (.num n) →
      n ≤ dbMaxSeq w.db r) : Progress r w pc w' pc' := by
  subst hr
  have same : ∀ {pc'}, Recovering p.roomId w pc' → (∀ a s, pc' ≠ .insert a s) →
      Progress p.roomId w pc w pc' := fun ho hi => .of_same hc rfl hc.lasting rfl ho hi
  have branch : ∀ {pc'}, Branch pc' → ∀ a s, pc' ≠ .insert a s := fun hb a s he => by
    rw [he] at hb; cases hb
  cases h with
  | missed =>
    exact same (recovering_of_checking (checking_afterLookup p)) (branch (branch_afterLookup p))
  | member => exact same (recovering_afterMember p) (branch (branch_afterMember p))
  | owned =>
    exact same (recovering_of_checking (checking_afterMedia p)) (branch (branch_afterMedia p))
  | target => exact same (fun h => absurd h (lt_irrefl 0)) (by simp)
  | notMember he => exact same (assertActiveMember_code he) (branch (.done _))
  | notOwned he => exact same (assertOwnedMedia_code he) (branch (.done _))
  | noTarget he => exact same (assertReplyTarget_code he) (branch (.done _))
  | counter he =>
    obtain ⟨v, hv⟩ := World.exists?_eq_true.1 he
    exact same ⟨by simp [hv], hn⟩ (by simp)
  | @noCounter a he =>
    refine same ?_ (by simp)
    by_contra ha
    obtain ⟨n, hl, -⟩ := hn (Nat.pos_of_ne_zero ha)
    rw [World.exists?_eq_false.1 he] at hl
    cases hl
  | seqMax => exact same ⟨hn, fun _ s hs => le_dbMaxSeq hs⟩ (by simp)
  | setNx => exact progress_setNx hc hn
  | incr hi => exact progress_incr hc hn hi
  | inserted _ hcr => exact progress_inserted hc hn hcr
  | refused href =>
    rcases href.failure with rfl | rfl <;> exact same trivial (branch (.done _))
  | @seqTaken a seq hs =>
    obtain ⟨⟨n, hl, -⟩, hnew⟩ := hn
    refine same ⟨?_, by simp [hl]⟩ (by simp)
    by_contra ha
    exact hnew (Nat.pos_of_ne_zero ha) hs
  | resyncMax =>
    obtain ⟨rfl, hne⟩ := hn
    obtain ⟨v, hv⟩ := Option.ne_none_iff_exists'.1 hne
    obtain ⟨n, rfl⟩ := hc.number v hv
    exact same ⟨rfl, rfl, n, hv, hread 0 n rfl hv⟩ (by simp)
  | resyncSet => exact progress_resyncSet hc hn
  | roomUpdate => exact .of_same hc rfl hc.lasting rfl trivial (by simp)
  | @fetch dto got got' hf =>
    have hb := branch (branch_emitCreated json dto got' w)
    obtain ⟨events, he⟩ := emitCreated_world json dto got' w
    rw [he]
    refine .of_same hc rfl hc.lasting rfl ?_ hb
    rcases emitCreated_cases json dto got' w with ⟨h, -⟩ | ⟨_, _, _, h⟩ | h <;> rw [h] <;> trivial
  | _ => exact same trivial (by simp)

end Actions

/-! ## What the other calls know -/

theorem Progress.kept {r : String} {w w' : World} {pc pc' : CreatePc}
    (h : Progress r w pc w' pc') (hc : Counts r w) (hk : w.lookup (seqKey r) ≠ none) :
    w'.lookup (seqKey r) ≠ none := by
  obtain ⟨v, hv⟩ := Option.ne_none_iff_exists'.1 hk
  obtain ⟨n, rfl⟩ := hc.number v hv
  obtain ⟨n', -, hn'⟩ := h.counter n hv
  simp [hn']

theorem Progress.ahead {r : String} {w w' : World} {pc pc' : CreatePc}
    (h : Progress r w pc w' pc') (ha : Ahead r w) : Ahead r w' := by
  obtain ⟨n, hn, hle⟩ := ha
  obtain ⟨n', hnn, hn'⟩ := h.counter n hn
  refine ⟨n', hn', fun s hs => ?_⟩
  rcases h.numbers s hs with hs | ⟨a, m, -, hm, hsm⟩
  · exact (hle s hs).trans hnn
  · rw [hn] at hm; cases hm; omega

theorem Progress.keeps {r : String} {w w' : World} {pc pc' pc₂ : CreatePc}
    (h : Progress r w pc w' pc') (hc : Counts r w) (hn : Recovering r w pc₂)
    (hne : ∀ a s a₂, pc = .insert a s → pc₂ ≠ .insert a₂ s)
    (hincr : ∀ a a₂ max n, pc = .seqIncr a → pc₂ = .resyncSet a₂ max →
      w.lookup (seqKey r) = some (.num n) → n < max) : Recovering r w' pc₂ := by
  cases pc₂ with
  | seqExists a => exact fun ha => h.ahead (hn ha)
  | seqSetNx a max =>
    refine ⟨hn.1, fun hnone s hs => ?_⟩
    have hnone' : w.lookup (seqKey r) = none := by
      by_contra hk
      exact h.kept hc hk hnone
    rcases h.numbers s hs with hs | ⟨_, _, -, hk, -⟩
    · exact hn.2 hnone' s hs
    · rw [hnone'] at hk; cases hk
  | seqIncr a => exact ⟨h.kept hc hn.1, fun ha => h.ahead (hn.2 ha)⟩
  | insert a seq =>
    obtain ⟨⟨n, hl, hle⟩, hnew⟩ := hn
    obtain ⟨n', hnn, hl'⟩ := h.counter n hl
    refine ⟨⟨n', hl', hle.trans hnn⟩, fun ha hs => ?_⟩
    rcases h.numbers seq hs with hs | ⟨a', _, hpc, -, -⟩
    · exact hnew ha hs
    · exact hne a' seq a hpc rfl
  | resyncMax a => exact ⟨hn.1, h.kept hc hn.2⟩
  | resyncSet a max =>
    obtain ⟨ha, rfl, n, hl, hle⟩ := hn
    obtain ⟨hmax, n', hl', hle'⟩ := h.resync n hl hle fun a' hpc => hincr a' a _ n hpc rfl hl
    exact ⟨ha, hmax.symm, n', hl', hle'⟩
  | seqMax a => exact hn
  | done x =>
    rcases x with (_ | _) | _
    · exact hn
    all_goals trivial
  | _ => trivial

theorem Still.recovering {r : String} {w w' : World} {pc : CreatePc} (h : Still r w w')
    (hn : Recovering r w pc) : Recovering r w' pc := by
  have hmax : dbMaxSeq w'.db r = dbMaxSeq w.db r :=
    Nat.le_antisymm (dbMaxSeq_le fun s hs => le_dbMaxSeq ((h.numbers s).1 hs))
      (dbMaxSeq_le fun s hs => le_dbMaxSeq ((h.numbers s).2 hs))
  cases pc <;> simp only [Recovering, Ahead, h.counter, h.numbers, hmax] at hn ⊢ <;> exact hn

theorem Still.counts {r : String} {w w' : World} (h : Still r w w') (hc : Counts r w) :
    Counts r w' :=
  ⟨h.lasting hc.lasting, fun v hv => hc.number v (h.counter ▸ hv)⟩

theorem recovery_valid {cfg : AppConfig} {json : Json} {r : String} {B : Outline World Call Pc} :
    (recovery r).Valid (machine cfg json) (Undisturbed r) B where
  move {c call w pc w' pc'} a := by
    rcases step_room (r := r) a.step with ⟨p, pc₁, pc₁', rfl, hr, rfl, rfl, ha⟩ | ⟨hne, hst⟩
    · have hp := ha.progress hr a.glob (a.own p pc₁ rfl rfl hr)
        fun at_ n hpc => a.alone p at_ n rfl hr (by rw [hpc])
      exact ⟨hp.counts, fun p' pc₂ _ hpc _ => by cases hpc; exact hp.own⟩
    · exact ⟨hst.counts a.glob, fun p _ hp _ hr => absurd hr (hne p hp)⟩
  keep {c call w pc w' pc' call₂ pc₂} a b := by
    rcases step_room (r := r) a.step with ⟨p, pc₁, pc₁', rfl, hr, rfl, rfl, ha⟩ | ⟨hne, hst⟩
    · have hp := ha.progress hr a.glob (a.own p pc₁ rfl rfl hr)
        fun at_ n hpc => a.alone p at_ n rfl hr (by rw [hpc])
      refine ⟨fun p₂ pc₃ hp₂ hpc hr₂ => ?_, fun s hs hs₂ => ?_⟩
      · refine hp.keeps a.glob (b.own p₂ pc₃ hp₂ hpc hr₂) ?_ fun at_ a₂ max n hpc₁ hpc₃ => ?_
        · rintro at_ s a₂ rfl rfl
          exact b.apart s (pending_eq_some.2 ⟨_, _, rfl, rfl, hr⟩)
            (pending_eq_some.2 ⟨_, _, hp₂, hpc, hr₂⟩)
        · exact b.beside p at_ p₂ a₂ max n rfl hr (by rw [hpc₁]) hp₂ hr₂ (by rw [hpc, hpc₃])
      · -- a number just taken is larger than the pending ones
        obtain ⟨p', at_, hp', hpc', -⟩ := pending_eq_some.1 hs
        obtain ⟨p₂, a₂, hp₂, hpc₂, hr₂⟩ := pending_eq_some.1 hs₂
        obtain ⟨⟨n, hn, hle⟩, -⟩ := b.own p₂ _ hp₂ hpc₂ hr₂
        have := hp.issued at_ s (by cases hpc'; rfl) n hn
        omega
    · refine ⟨fun p₂ pc₃ hp hpc hr₂ => hst.recovering (b.own p₂ pc₃ hp hpc hr₂), fun s hs => ?_⟩
      obtain ⟨p', -, hp', -, hr'⟩ := pending_eq_some.1 hs
      exact absurd hr' (hne p' hp')
  symm h s hs hs₂ := h s hs₂ hs
  env ms {w} hg := by
    have hst : Still r w (w.tick ms) :=
      ⟨World.lookup_tick hg.lasting ms, id, fun _ => Iff.rfl⟩
    exact ⟨hst.counts hg, fun ho p pc₁ hp hpc hr => hst.recovering (ho p pc₁ hp hpc hr)⟩

theorem recovery_initial {ι : Type} {cfg : AppConfig} {json : Json} {calls : ι → Call}
    {w : World} {r : String} (hc : Counts r w) :
    (recovery r).Holds calls ((machine cfg json).initial calls w) := by
  have hstart : ∀ i p pc₁, calls i = .createMessage p →
      ((machine cfg json).initial calls w).pcs i = .create pc₁ → pc₁ = createStart p := by
    intro i p pc₁ hp hpc
    have hpc' : start (calls i) = .create pc₁ := hpc
    rw [hp] at hpc'
    exact (Pc.create.inj hpc').symm
  refine ⟨hc, fun i p pc₁ hp hpc _ => ?_, fun i j _ s hs => ?_⟩
  · rw [hstart i p pc₁ hp hpc]
    exact recovering_of_checking (checking_createStart p)
  · obtain ⟨p, a, hp, hpc, -⟩ := pending_eq_some.1 hs
    have hidle := idle_createStart p
    rw [← hstart i p _ hp hpc] at hidle
    cases hidle

/-! ## Recovery -/

/-- No call of the room has given up with the `CONFLICT` of `persistWithSeq`, and no `SET` of a
resync that is about to be done lowers the counter. -/
def Recovers {ι : Type} (calls : ι → Call) (r : String) (P : Pool World Pc ι) : Prop :=
  ∀ i p, calls i = .createMessage p → p.roomId = r →
    (∀ e, P.pcs i = .create (.done (.error (.app e))) → e.code ≠ .CONFLICT) ∧
    ∀ a max n, P.pcs i = .create (.resyncSet a max) →
      P.shared.lookup (seqKey r) = some (.num n) → n ≤ max

/-- **Recovery under load.** Whatever the counter was rolled back to, in an order of steps that
keeps to `Undisturbed r` the calls in the room recover. -/
theorem recovers_under_load {ι : Type} [DecidableEq ι] (cfg : AppConfig) (json : Json)
    (calls : ι → Call) (w : World) (r : String) (hc : Counts r w) {P : Pool World Pc ι}
    (hrun : Run (machine cfg json) (Undisturbed r) calls ((machine cfg json).initial calls w) P) :
    Recovers calls r P := by
  have hO := recovery_valid.run (fun _ => Outline.top_holds _ _) (recovery_initial hc) hrun
  refine fun i p hp hr => ⟨fun e hpc => hO.own i p _ hp hpc hr, fun a max n hpc hn => ?_⟩
  obtain ⟨-, -, n', hn', hle⟩ := hO.own i p _ hp hpc hr
  rw [hn] at hn'
  cases hn'
  exact hle

/-! ### Two senders that both collide -/

def undisturbedOk (P : Pool World Pc Bool) (i : Bool) : Bool :=
  match P.pcs i, P.pcs !i, P.shared.lookup (seqKey "r1") with
  | .create (.resyncMax _), _, some (.num n) => decide (n ≤ dbMaxSeq P.shared.db "r1")
  | .create (.seqIncr _), .create (.resyncSet _ max), some (.num n) => decide (n < max)
  | _, _, _ => true

theorem undisturbedOk_allows {P : Pool World Pc Bool} {i : Bool}
    (h : undisturbedOk P i = true) : (Undisturbed "r1").allows twoTexts P i := by
  refine ⟨fun p a n _ _ hpc hn => ?_, fun j hj p a p₂ a₂ max n _ _ hpc _ _ hpc₂ hn => ?_⟩
  · simpa [undisturbedOk, hpc, hn] using h
  · obtain rfl : j = !i := by cases i <;> cases j <;> simp_all
    simpa [undisturbedOk, hpc, hpc₂, hn] using h

/-- Both collide and resync one after the other; neither `SET` lowers the counter. -/
theorem recovers_under_load_r1 : ∃ P : Pool World Pc Bool,
    Run (machine {} noJson) (Undisturbed "r1") twoTexts ((machine {} noJson).initial twoTexts
      (rolledBack ⟨[messageR1 "m1" 1, messageR1 "m2" 2], by decide⟩ 0)) P ∧
    P.shared.lookup (seqKey "r1") = some (.num 2) ∧ Recovers twoTexts "r1" P := by
  let go (i : Bool) : Move Bool Choice Nat := turn i { id := "m3" }
  let schedule := List.replicate 4 (go false) ++ List.replicate 4 (go true) ++
    List.replicate 2 (go false) ++ List.replicate 2 (go true)
  have hexec : ((machine {} noJson).exec undisturbedOk twoTexts ((machine {} noJson).initial
      twoTexts (rolledBack ⟨[messageR1 "m1" 1, messageR1 "m2" 2], by decide⟩ 0)) schedule).any
        (fun P => P.shared.lookup (seqKey "r1") == some (.num 2)) = true := by decide
  obtain ⟨P, hrun, hP⟩ := Machine.exec_reaches undisturbedOk_allows hexec
  exact ⟨P, hrun, by simpa using hP, recovers_under_load {} noJson twoTexts _ "r1"
    (rolledBack_counts _ 0) hrun⟩

def resyncing : Pc → Option Nat
  | .create (.resyncSet _ max) => some max
  | _ => none

theorem resyncing_eq {pc : Pc} {max : Nat} (h : resyncing pc = some max) :
    ∃ a, pc = .create (.resyncSet a max) := by
  unfold resyncing at h
  split at h <;> cases h
  exact ⟨_, rfl⟩

/-- **Lowered counter.** Both collide and read the maximum 2; one of them resyncs and takes the
number 3, then the other sets the counter back to 2. -/
theorem resync_lowers : ¬ ∀ (ι : Type) [DecidableEq ι] (cfg : AppConfig) (json : Json)
    (calls : ι → Call) (w : World) (r : String), Counts r w → ∀ P : Pool World Pc ι,
    Run (machine cfg json) Discipline.free calls ((machine cfg json).initial calls w) P →
    Recovers calls r P := by
  intro h
  let go (i : Bool) : Move Bool Choice Nat := turn i { id := "m3" }
  let schedule := List.replicate 4 (go false) ++ List.replicate 4 (go true) ++
    [go false, go true, go false, go false, go false]
  have hexec : ((machine {} noJson).exec always twoTexts ((machine {} noJson).initial
      twoTexts (rolledBack ⟨[messageR1 "m1" 1, messageR1 "m2" 2], by decide⟩ 0)) schedule).any
        (fun P => P.shared.lookup (seqKey "r1") == some (.num 3) &&
          resyncing (P.pcs true) == some 2) = true := by decide
  obtain ⟨P, hrun, hP⟩ := Machine.exec_reaches_free hexec
  simp only [Bool.and_eq_true, beq_iff_eq] at hP
  obtain ⟨hcount, hpc⟩ := hP
  obtain ⟨a, hset⟩ := resyncing_eq hpc
  have hle := (h Bool {} noJson twoTexts _ "r1" (rolledBack_counts _ 0) P hrun true
    (sayParams "b") rfl rfl).2 a 2 3 hset hcount
  omega

end Intaktok.Messages
