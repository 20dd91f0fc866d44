import Intaktok.Messages.Log
/-
# Sequence numbers while Redis keeps the counter

`nextSeq` initialises the counter of a room lazily: it looks whether the key exists, reads the
largest number from the database, publishes it with `SET NX` and only then counts. The outline
`numbering r` ties these steps together: a counter that is there is ahead of every number of the
room, so that a number taken from it is new; while it is not there nobody inserts, so that a
database maximum read then is still one when it is published (`numbering_valid`).

Hence no insert collides and no call resyncs, and a reply has a larger number than the message it
answers, which was there before the number was taken (`issued_of_run`). Numbers are whole numbers
here; what JavaScript makes of them is in `Doubles`.
-/

namespace Intaktok.Messages

open Interleave Tables

/-! ## The counter -/

/-- The counter of the room, if it is there, is a number that no message of the room exceeds, and
it never expires. -/
structure CounterOk (r : String) (w : World) : Prop where
  lasting : KeyValue.Lasting (seqKey r) w.redis
  ahead : ∀ v, w.lookup (seqKey r) = some v → ∃ n, v = .num n ∧ ∀ s ∈ seqs w.db r, s ≤ n

/-- What a call that is about to do `pc` knows about the room. -/
def Numbered (r : String) (w : World) : CreatePc → Prop
  | .seqSetNx _ max => w.lookup (seqKey r) = none → ∀ s ∈ seqs w.db r, s ≤ max
  | .seqIncr _ => w.lookup (seqKey r) ≠ none
  | .insert _ seq =>
    0 < seq ∧ seq ∉ seqs w.db r ∧ ∃ n, w.lookup (seqKey r) = some (.num n) ∧ seq ≤ n
  | .resyncMax _ | .resyncSet _ _ => False
  | _ => True

/-- The number the call is about to insert in the room. -/
def pending (r : String) : Call → Pc → Option Nat
  | .createMessage p, .create (.insert _ seq) => if p.roomId = r then some seq else none
  | _, _ => none

theorem pending_eq_some {r : String} {call : Call} {pc : Pc} {s : Nat} :
    pending r call pc = some s ↔
      ∃ p a, call = .createMessage p ∧ pc = .create (.insert a s) ∧ p.roomId = r := by
  constructor
  · intro h
    unfold pending at h
    split at h
    · split at h
      · rename_i hr; cases h; exact ⟨_, _, rfl, rfl, hr⟩
      · cases h
    · cases h
  · rintro ⟨p, a, rfl, rfl, hr⟩; simp [pending, hr]

def numbering (r : String) : Outline World Call Pc where
  glob := CounterOk r
  own call w pc := ∀ p pc₁, call = .createMessage p → pc = .create pc₁ → p.roomId = r →
    Numbered r w pc₁
  apart call pc call₂ pc₂ := ∀ s, pending r call pc = some s → pending r call₂ pc₂ ≠ some s

/-- What an action in the room does to its counter and its numbers. -/
structure Advance (r : String) (w : World) (pc : CreatePc) (w' : World) (pc' : CreatePc) :
    Prop where
  ok : CounterOk r w'
  own : Numbered r w' pc'
  counter : ∀ n, w.lookup (seqKey r) = some (.num n) →
    ∃ n', n ≤ n' ∧ w'.lookup (seqKey r) = some (.num n')
  kept : w.lookup (seqKey r) ≠ none → w'.lookup (seqKey r) ≠ none
  numbers : ∀ s ∈ seqs w'.db r, s ∈ seqs w.db r ∨
    ∃ a, pc = .insert a s ∧ w.lookup (seqKey r) ≠ none
  issued : ∀ a s, pc' = .insert a s → ∀ n, w.lookup (seqKey r) = some (.num n) → n < s

/-- Nothing the room's counter and numbers depend on has changed. -/
theorem Advance.of_same {r : String} {w w' : World} {pc pc' : CreatePc} (hc : CounterOk r w)
    (hl : w'.lookup (seqKey r) = w.lookup (seqKey r))
    (hlast : KeyValue.Lasting (seqKey r) w'.redis) (hs : stubs w'.db = stubs w.db)
    (hown : Numbered r w' pc') (hpc : ∀ a s, pc' ≠ .insert a s) : Advance r w pc w' pc' where
  ok := ⟨hlast, fun v hv => by
    obtain ⟨n, hn, hle⟩ := hc.ahead v (hl ▸ hv)
    exact ⟨n, hn, fun s hm => hle s ((seqs_congr hs r s).1 hm)⟩⟩
  own := hown
  counter n hn := ⟨n, le_rfl, by rw [hl, hn]⟩
  kept h := by rwa [hl]
  numbers s hm := .inl ((seqs_congr hs r s).1 hm)
  issued a s h := absurd h (hpc a s)

/-- Away from `seqSetNx`, `seqIncr`, `insert` and the resync nothing needs to be known. -/
def idle : CreatePc → Bool
  | .seqSetNx _ _ | .seqIncr _ | .insert _ _ | .resyncMax _ | .resyncSet _ _ => false
  | _ => true

theorem numbered_of_idle {r : String} {w : World} {pc : CreatePc} (h : idle pc = true) :
    Numbered r w pc := by
  cases pc <;> simp_all [idle, Numbered]

theorem ne_insert_of_idle {pc : CreatePc} (h : idle pc = true) (a s : Nat) : pc ≠ .insert a s := by
  rintro rfl; cases h

theorem idle_of_branch {pc : CreatePc} (h : Branch pc) : idle pc = true := by cases h <;> rfl

theorem idle_of_checking {pc : CreatePc} (h : Checking pc) : idle pc = true := by cases h <;> rfl

theorem idle_createStart (p : CreateMessageParams) : idle (createStart p) = true :=
  idle_of_checking (checking_createStart p)

/-- The numbers of the room after an insert. -/
theorem seqs_createRow {p : CreateMessageParams} {id r : String} {seq : Nat} {w w' : World}
    {m : Message} (h : createRow p id seq w = .ok (w', m)) (s : Nat) :
    s ∈ seqs w'.db r ↔ s ∈ seqs w.db r ∨ (p.roomId = r ∧ s = seq) := by
  obtain ⟨type, t, -, rfl, ht, rfl, -⟩ := createRow_ok h
  rw [mem_seqs, mem_seqs, stubs_insert ht]
  simp only [List.mem_append, List.mem_singleton]
  constructor
  · rintro ⟨x, hx | rfl, hr, hs⟩
    · exact .inl ⟨x, hx, hr, hs⟩
    · exact .inr ⟨hr, hs.symm⟩
  · rintro (⟨x, hx, hr, hs⟩ | ⟨hr, rfl⟩)
    · exact ⟨x, .inl hx, hr, hs⟩
    · exact ⟨_, .inr rfl, hr, rfl⟩

section Actions
variable {json : Json} {c : Choice} {p : CreateMessageParams} {w w' : World} {pc pc' : CreatePc}
  {a : Nat}

theorem advance_setNx {max : Nat} (hc : CounterOk p.roomId w)
    (hn : Numbered p.roomId w (.seqSetNx a max)) :
    Advance p.roomId w (.seqSetNx a max) (w.setNx (seqKey p.roomId) (.num max)) (.seqIncr a) := by
  have hl := World.lookup_setNx w (seqKey p.roomId) (seqKey p.roomId) (.num max)
  rw [if_pos rfl] at hl
  refine {
    ok := ⟨World.lasting_setNx hc.lasting _ _, fun v hv => ?_⟩
    own := by simp [Numbered, hl]
    counter := fun n hn' => ⟨n, le_rfl, by rw [hl, hn']; rfl⟩
    kept := by simp [hl]
    numbers := fun s hm => .inl (by rwa [World.setNx_db] at hm)
    issued := by simp }
  rw [hl, Option.some.injEq] at hv
  rw [World.setNx_db]
  cases hk : w.lookup (seqKey p.roomId) with
  | none => rw [hk] at hv; exact ⟨max, hv.symm, hn hk⟩
  | some x =>
    rw [hk] at hv
    obtain ⟨n, hx, hle⟩ := hc.ahead x hk
    exact ⟨n, hv.symm.trans hx, hle⟩

theorem advance_incr {seq : Nat} (hc : CounterOk p.roomId w)
    (hn : Numbered p.roomId w (.seqIncr a)) (hi : w.incr (seqKey p.roomId) = some (w', seq)) :
    Advance p.roomId w (.seqIncr a) w' (.insert a seq) := by
  obtain ⟨⟨_, rfl⟩, hl, -, hcase, hlast⟩ := World.incr_spec hi
  rcases hcase with ⟨hnone, -⟩ | ⟨m, hm, rfl⟩
  · exact absurd hnone hn
  · obtain ⟨n, hnum, hle⟩ := hc.ahead _ hm
    cases hnum
    refine {
      ok := ⟨hlast _ hc.lasting, fun v hv => ⟨m + 1, ?_, fun s hs => ?_⟩⟩
      own := ⟨Nat.succ_pos m, fun hs => ?_, m + 1, hl, le_rfl⟩
      counter := fun n hn' => ⟨m + 1, ?_, hl⟩
      kept := by simp [hl]
      numbers := fun s hs => .inl hs
      issued := fun a s hpc n hn' => ?_ }
    · rw [hl, Option.some.injEq] at hv
      exact hv.symm
    · have hold := hle s hs
      omega
    · have hold := hle _ hs
      omega
    · rw [hm] at hn'
      cases hn'
      omega
    · rw [hm] at hn'
      cases hn'
      cases hpc
      omega

theorem advance_inserted {seq : Nat} {m : Message} (hc : CounterOk p.roomId w)
    (hn : Numbered p.roomId w (.insert a seq)) (hcr : createRow p c.id seq w = .ok (w', m)) :
    Advance p.roomId w (.insert a seq) w' (.roomUpdate m) := by
  have hseqs := fun s => seqs_createRow (r := p.roomId) hcr s
  obtain ⟨type, t, -, rfl, -, rfl, -⟩ := createRow_ok hcr
  obtain ⟨-, hfresh, n, hn', hle⟩ := hn
  refine {
    ok := ⟨hc.lasting, fun v hv => ?_⟩
    own := trivial
    counter := fun n hn => ⟨n, le_rfl, hn⟩
    kept := id
    numbers := fun s hs => ?_
    issued := by simp }
  · obtain ⟨n', hv', hall⟩ := hc.ahead v hv
    have heq : n' = n := by
      have hnum := (hv' ▸ hv).symm.trans hn'
      cases hnum; rfl
    refine ⟨n', hv', fun s hs => ?_⟩
    rcases (hseqs s).1 hs with hs | ⟨-, rfl⟩
    · exact hall s hs
    · omega
  · rcases (hseqs s).1 hs with hs | ⟨-, rfl⟩
    · exact .inl hs
    · exact .inr ⟨a, rfl, by simp [hn']⟩

/-- Each action of a `createMessage` call in the room keeps its counter ahead. -/
theorem CreateActs.advance {r : String} (h : CreateActs json c p w pc w' pc') (hr : p.roomId = r)
    (hc : CounterOk r w) (hn : Numbered r w pc) : Advance r w pc w' pc' := by
  subst hr
  have same : ∀ {pc'}, idle pc' = true → Advance p.roomId w pc w pc' := fun hi =>
    .of_same hc rfl hc.lasting rfl (numbered_of_idle hi) (ne_insert_of_idle hi)
  cases h with
  | missed => exact same (idle_of_branch (branch_afterLookup p))
  | member => exact same (idle_of_branch (branch_afterMember p))
  | owned => exact same (idle_of_branch (branch_afterMedia p))
  | counter he =>
    obtain ⟨v, hv⟩ := World.exists?_eq_true.1 he
    exact .of_same hc rfl hc.lasting rfl (by simp [Numbered, hv]) (by simp)
  | seqMax => exact .of_same hc rfl hc.lasting rfl (fun _ s hs => le_dbMaxSeq hs) (by simp)
  | setNx => exact advance_setNx hc hn
  | incr hi => exact advance_incr hc hn hi
  | inserted _ hcr => exact advance_inserted hc hn hcr
  | seqTaken hs => exact absurd hs hn.2.1
  | resyncMax | resyncSet => exact hn.elim
  | @fetch dto got got' hf =>
    have hi := idle_of_branch (branch_emitCreated json dto got' w)
    obtain ⟨events, he⟩ := emitCreated_world json dto got' w
    rw [he]
    exact .of_same hc rfl hc.lasting rfl (numbered_of_idle hi) (ne_insert_of_idle hi)
  | roomUpdate => exact .of_same hc rfl hc.lasting rfl trivial (by simp)
  | _ => exact same rfl

end Actions

/-- What the other calls know stays true. -/
theorem Advance.keeps {r : String} {w w' : World} {pc pc' pc₂ : CreatePc}
    (h : Advance r w pc w' pc') (hn : Numbered r w pc₂)
    (hne : ∀ a s a₂, pc = .insert a s → pc₂ ≠ .insert a₂ s) : Numbered r w' pc₂ := by
  cases pc₂ with
  | seqSetNx a max =>
    intro hnone s hs
    have hnone' : w.lookup (seqKey r) = none := by
      by_contra hk
      exact h.kept hk hnone
    rcases h.numbers s hs with hs | ⟨_, -, hk⟩
    · exact hn hnone' s hs
    · exact absurd hnone' hk
  | seqIncr a => exact h.kept hn
  | insert a seq =>
    obtain ⟨hpos, hfresh, n, hl, hle⟩ := hn
    obtain ⟨n', hnn, hl'⟩ := h.counter n hl
    refine ⟨hpos, fun hs => ?_, n', hl', hle.trans hnn⟩
    rcases h.numbers seq hs with hs | ⟨a', hpc, -⟩
    · exact hfresh hs
    · exact hne a' seq a hpc rfl
  | resyncMax _ | resyncSet _ _ => exact hn.elim
  | _ => trivial

/-- The room is not touched. -/
structure Still (r : String) (w w' : World) : Prop where
  counter : w'.lookup (seqKey r) = w.lookup (seqKey r)
  lasting : KeyValue.Lasting (seqKey r) w.redis → KeyValue.Lasting (seqKey r) w'.redis
  numbers : ∀ s, s ∈ seqs w'.db r ↔ s ∈ seqs w.db r

theorem Still.numbered {r : String} {w w' : World} {pc : CreatePc} (h : Still r w w')
    (hn : Numbered r w pc) : Numbered r w' pc := by
  cases pc <;> simp only [Numbered, h.counter, h.numbers] at hn ⊢ <;> exact hn

theorem Still.ok {r : String} {w w' : World} (h : Still r w w') (hc : CounterOk r w) :
    CounterOk r w' where
  lasting := h.lasting hc.lasting
  ahead v hv := by simpa only [h.numbers] using hc.ahead v (h.counter ▸ hv)

theorem CreateActs.still {json : Json} {c : Choice} {p : CreateMessageParams} {w w' : World}
    {pc pc' : CreatePc} {r : String} (h : CreateActs json c p w pc w' pc') (hr : p.roomId ≠ r) :
    Still r w w' where
  counter := h.redis.1 _ fun he => hr (seqKey_inj he).symm
  lasting := h.redis.2 _
  numbers s := by
    rcases h.log with hs | ⟨a, seq, m, -, -, -, hcr, -⟩
    · exact seqs_congr hs r s
    · simp [seqs_createRow hcr, hr]

theorem Aside.still {w w' : World} {r : String} (h : Aside w w') : Still r w w' where
  counter := by rw [World.lookup, World.lookup, h.redis, h.now]
  lasting := by rw [h.redis]; exact id
  numbers := seqs_congr h.log r

theorem still_tick {w : World} {r : String} (hc : CounterOk r w) (ms : Nat) :
    Still r w (w.tick ms) where
  counter := World.lookup_tick hc.lasting ms
  lasting := id
  numbers _ := Iff.rfl

/-- What a step of the service does to a room: an action of a call in it, or nothing. -/
theorem step_room {cfg : AppConfig} {json : Json} {c : Choice} {call : Call} {w w' : World}
    {pc pc' : Pc} {r : String} (h : step cfg json c call w pc = some (w', pc')) :
    (∃ p pc₁ pc₁', call = .createMessage p ∧ p.roomId = r ∧ pc = .create pc₁ ∧
      pc' = .create pc₁' ∧ CreateActs json c p w pc₁ w' pc₁') ∨
    ((∀ p, call = .createMessage p → p.roomId ≠ r) ∧ Still r w w') := by
  rcases step_cases h with ⟨p, pc₁, pc₁', rfl, rfl, rfl, ha⟩ | ⟨hne, ha⟩
  · by_cases hr : p.roomId = r
    · exact .inl ⟨p, pc₁, pc₁', rfl, hr, rfl, rfl, ha⟩
    · exact .inr ⟨fun p' hp => by cases hp; exact hr, ha.still hr⟩
  · exact .inr ⟨fun p hp => absurd hp (hne p), ha.still⟩

theorem numbering_valid {cfg : AppConfig} {json : Json} {r : String}
    {D : Discipline World Call Pc} {B : Outline World Call Pc} :
    (numbering r).Valid (machine cfg json) D B where
  move {c call w pc w' pc'} a := by
    rcases step_room (r := r) a.step with ⟨p, pc₁, pc₁', rfl, hr, rfl, rfl, ha⟩ | ⟨hne, hst⟩
    · have hadv := ha.advance hr a.glob (a.own p pc₁ rfl rfl hr)
      refine ⟨hadv.ok, fun p' pc₂ hp hpc hr' => ?_⟩
      cases hpc
      exact hadv.own
    · exact ⟨hst.ok a.glob, fun p _ hp _ hr => absurd hr (hne p hp)⟩
  keep {c call w pc w' pc' call₂ pc₂} a b := by
    rcases step_room (r := r) a.step with ⟨p, pc₁, pc₁', rfl, hr, rfl, rfl, ha⟩ | ⟨hne, hst⟩
    · have hadv := ha.advance hr a.glob (a.own p pc₁ rfl rfl hr)
      refine ⟨fun p₂ pc₃ hp hpc hr₂ => ?_, fun s hs hs₂ => ?_⟩
      · refine hadv.keeps (b.own p₂ pc₃ hp hpc hr₂) ?_
        rintro a s a₂ rfl rfl
        exact b.apart s (pending_eq_some.2 ⟨_, _, rfl, rfl, hr⟩)
          (pending_eq_some.2 ⟨_, _, hp, hpc, hr₂⟩)
      · -- a number just taken is larger than the pending ones
        obtain ⟨p', at_, hp', hpc', -⟩ := pending_eq_some.1 hs
        obtain ⟨p₂, a₂, hp₂, hpc₂, hr₂⟩ := pending_eq_some.1 hs₂
        obtain ⟨-, -, n, hn, hle⟩ := b.own p₂ _ hp₂ hpc₂ hr₂
        have := hadv.issued at_ s (by cases hpc'; rfl) n hn
        omega
    · refine ⟨fun p₂ pc₃ hp hpc hr₂ => hst.numbered (b.own p₂ pc₃ hp hpc hr₂), fun s hs => ?_⟩
      obtain ⟨p', -, hp', -, hr'⟩ := pending_eq_some.1 hs
      exact absurd hr' (hne p' hp')
  symm h s hs hs₂ := h s hs₂ hs
  env ms {w} hg := ⟨(still_tick hg ms).ok hg, fun ho p pc₁ hp hpc hr =>
    (still_tick hg ms).numbered (ho p pc₁ hp hpc hr)⟩

theorem numbering_initial {ι : Type} {cfg : AppConfig} {json : Json} {calls : ι → Call}
    {w : World} {r : String} (hc : CounterOk r w) :
    (numbering r).Holds calls ((machine cfg json).initial calls w) := by
  have hstart : ∀ i p pc₁, calls i = .createMessage p →
      ((machine cfg json).initial calls w).pcs i = .create pc₁ → idle pc₁ = true := by
    intro i p pc₁ hp hpc
    have hpc' : start (calls i) = .create pc₁ := hpc
    rw [hp] at hpc'
    cases hpc'
    exact idle_createStart p
  refine ⟨hc, fun i p pc₁ hp hpc _ => numbered_of_idle (hstart i p pc₁ hp hpc),
    fun i j _ s hs => ?_⟩
  obtain ⟨p, a, hp, hpc, -⟩ := pending_eq_some.1 hs
  cases hstart i p _ hp hpc

/-- In every reachable state numbers are taken ahead of the room and apart from each other. -/
theorem numbering_run {ι : Type} [DecidableEq ι] {cfg : AppConfig} {json : Json}
    {calls : ι → Call} {w : World} {r : String} {D : Discipline World Call Pc}
    (hc : CounterOk r w) {P : Pool World Pc ι}
    (hrun : Run (machine cfg json) D calls ((machine cfg json).initial calls w) P) :
    (numbering r).Holds calls P :=
  numbering_valid.run (fun _ => Outline.top_holds _ _) (numbering_initial hc) hrun

/-! ## Replies -/

/-- The call has checked its reply target and has not inserted yet. -/
def numberingPc : CreatePc → Bool
  | .seqExists _ | .seqMax _ | .seqSetNx _ _ | .seqIncr _ | .insert _ _ => true
  | _ => false

/-- What a call in the room knows about the message it replies to. -/
structure Answers (r : String) (p : CreateMessageParams) (w : World) (pc : CreatePc) : Prop where
  system : p.isSystem = true → p.replyToId = none
  reply : ∀ t, pc = .reply t → truthy p.replyToId = some t
  target : ∀ t, truthy p.replyToId = some t → numberingPc pc = true →
    ∃ x ∈ stubs w.db, x.id = t ∧ x.roomId = r ∧ ∀ a seq, pc = .insert a seq → x.seq < seq

/-- Every reply in the room, but for those in `old`, comes after what it replies to. -/
def RepliesAfter (r : String) (old : List Message) (w : World) : Prop :=
  ∀ m ∈ stubs w.db, m ∉ old → m.roomId = r → ∀ t, m.replyToId = some t →
    ∃ x ∈ stubs w.db, x.id = t ∧ x.roomId = r ∧ x.seq < m.seq

def replies (r : String) (old : List Message) : Outline World Call Pc where
  glob w := (∀ m ∈ stubs w.db, m.id ≠ "") ∧ RepliesAfter r old w
  own call w pc := ∀ p pc₁, call = .createMessage p → pc = .create pc₁ → p.roomId = r →
    Answers r p w pc₁
  apart _ _ _ _ := True

theorem Answers.mono {r : String} {p : CreateMessageParams} {w w' : World} {pc : CreatePc}
    (h : Answers r p w pc) (hs : ∀ m ∈ stubs w.db, m ∈ stubs w'.db) : Answers r p w' pc where
  system := h.system
  reply := h.reply
  target t ht hp := let ⟨x, hx, hrest⟩ := h.target t ht hp; ⟨x, hs x hx, hrest⟩

theorem CreateActs.stubs_mono {json : Json} {c : Choice} {p : CreateMessageParams} {w w' : World}
    {pc pc' : CreatePc} (h : CreateActs json c p w pc w' pc') :
    ∀ m ∈ stubs w.db, m ∈ stubs w'.db := by
  intro m hm
  rcases h.log with hs | ⟨_, _, _, -, -, -, -, hs⟩ <;> rw [hs]
  · exact hm
  · exact List.mem_append_left _ hm

theorem reply_target {db : Db} {r t : String} (h : assertReplyTarget db r t = none) :
    ∃ x ∈ stubs db, x.id = t ∧ x.roomId = r := by
  simp only [assertReplyTarget] at h
  split at h
  · rename_i m hf
    split at h
    · rename_i hr
      obtain ⟨hm, hid⟩ := Table.find_some hf
      exact ⟨stub m, stub_mem hm, (by simpa using hid : m.id = t), hr⟩
    · cases h
  · cases h

theorem afterMedia_reply {p : CreateMessageParams} {t : String} (h : afterMedia p = .reply t) :
    truthy p.replyToId = some t := by
  unfold afterMedia at h
  split at h
  · rename_i ht; cases h; exact ht
  · cases h

theorem afterMedia_numbering {p : CreateMessageParams} (h : numberingPc (afterMedia p) = true) :
    truthy p.replyToId = none := by
  unfold afterMedia at h
  split at h
  · cases h
  · rename_i ht; exact ht

/-- A pc that has not come to the reply check, or has come to it with nothing to check. -/
theorem answers_of_none {r : String} {p : CreateMessageParams} {w : World} {pc : CreatePc}
    (hs : p.isSystem = true → p.replyToId = none)
    (hr : ∀ t, pc = .reply t → truthy p.replyToId = some t)
    (hn : numberingPc pc = true → truthy p.replyToId = none) : Answers r p w pc where
  system := hs
  reply := hr
  target t ht hp := by rw [hn hp] at ht; cases ht

theorem answers_afterLookup {r : String} {p : CreateMessageParams} {w : World}
    (hs : p.isSystem = true → p.replyToId = none) : Answers r p w (afterLookup p) := by
  unfold afterLookup
  split
  · rename_i h
    exact answers_of_none hs (fun _ h' => nomatch h') fun _ => by rw [hs h]; rfl
  · exact answers_of_none hs (fun _ h' => nomatch h') fun h' => nomatch h'

theorem answers_afterMedia {r : String} {p : CreateMessageParams} {w : World}
    (hs : p.isSystem = true → p.replyToId = none) : Answers r p w (afterMedia p) :=
  answers_of_none hs (fun _ h => afterMedia_reply h) afterMedia_numbering

theorem answers_afterMember {r : String} {p : CreateMessageParams} {w : World}
    (hs : p.isSystem = true → p.replyToId = none) : Answers r p w (afterMember p) := by
  rcases afterMember_cases p with h | ⟨e, h⟩ | ⟨i, h⟩ <;> rw [h]
  · exact answers_afterMedia hs
  · exact answers_of_none hs (fun _ h' => nomatch h') fun h' => nomatch h'
  · exact answers_of_none hs (fun _ h' => nomatch h') fun h' => nomatch h'

/-- Each action of a call in the room keeps what it knows about its reply target. -/
theorem CreateActs.answers {json : Json} {c : Choice} {p : CreateMessageParams} {w w' : World}
    {pc pc' : CreatePc} {r : String} (h : CreateActs json c p w pc w' pc') (hr : p.roomId = r)
    (hadv : Advance r w pc w' pc') (hc : CounterOk r w) (hn : Numbered r w pc)
    (ha : Answers r p w pc) : Answers r p w' pc' := by
  have hs := ha.system
  have hmono := h.stubs_mono
  -- from one pc of the numbering to another, other than to the insert
  have along : numberingPc pc = true → (∀ a s, pc' ≠ .insert a s) → (∀ t, pc' ≠ .reply t) →
      Answers r p w' pc' := fun hp hins hrep =>
    { system := hs
      reply := fun t ht => absurd ht (hrep t)
      target := fun t ht _ =>
        let ⟨x, hx, hid, hxr, _⟩ := ha.target t ht hp
        ⟨x, hmono x hx, hid, hxr, fun a s he => absurd he (hins a s)⟩ }
  have off : numberingPc pc' = false → (∀ t, pc' ≠ .reply t) → Answers r p w' pc' := fun hp hrep =>
    answers_of_none hs (fun t ht => absurd ht (hrep t)) fun h' => by rw [hp] at h'; cases h'
  cases h with
  | missed => exact answers_afterLookup hs
  | member => exact answers_afterMember hs
  | owned => exact answers_afterMedia hs
  | @target t ht =>
    subst hr
    refine ⟨hs, fun _ => CreatePc.noConfusion, fun t' ht' _ => ?_⟩
    have heq : t' = t := by rw [ha.reply t rfl] at ht'; cases ht'; rfl
    obtain ⟨x, hx, hid, hxr⟩ := reply_target ht
    exact ⟨x, hx, hid.trans heq.symm, hxr, fun _ _ h' => nomatch h'⟩
  | @incr a seq w' hi =>
    refine ⟨hs, fun _ => CreatePc.noConfusion, fun t ht _ => ?_⟩
    obtain ⟨x, hx, hid, hxr, -⟩ := ha.target t ht rfl
    refine ⟨x, hmono x hx, hid, hxr, fun a' s he => ?_⟩
    obtain ⟨v, hv⟩ := Option.ne_none_iff_exists'.1 hn
    obtain ⟨n, rfl, hle⟩ := hc.ahead v hv
    exact (hle _ (mem_seqs.2 ⟨x, hx, hxr, rfl⟩)).trans_lt (hadv.issued a' s he n hv)
  | counter | noCounter | seqMax | setNx => exact along rfl (by simp) (by simp)
  | resyncMax | resyncSet => exact hn.elim
  | @fetch dto got got' hf =>
    rcases emitCreated_cases json dto got' w with ⟨h, -⟩ | ⟨_, _, _, h⟩ | h <;> rw [h] at off ⊢ <;>
      exact off rfl (by simp)
  | _ => exact off rfl (by simp [CreatePc.fail])

/-- An insert whose sender knows its reply target keeps the replies after their targets. -/
theorem CreateActs.repliesAfter {json : Json} {c : Choice} {p : CreateMessageParams}
    {w w' : World} {pc pc' : CreatePc} {r : String} {old : List Message}
    (h : CreateActs json c p w pc w' pc') (ha : p.roomId = r → Answers r p w pc)
    (hid : ∀ m ∈ stubs w.db, m.id ≠ "") (hg : RepliesAfter r old w) :
    (∀ m ∈ stubs w'.db, m.id ≠ "") ∧ RepliesAfter r old w' := by
  have hmono := h.stubs_mono
  rcases h.log with hs | ⟨a, seq, m, rfl, rfl, hfresh, hcr, hs⟩
  · exact ⟨by rwa [hs], by rwa [RepliesAfter, hs]⟩
  · obtain ⟨type, t, -, rfl, -, -, hfk⟩ := createRow_ok hcr
    refine ⟨fun m hm => ?_, fun m hm hold hr t ht => ?_⟩
    · rw [hs, List.mem_append, List.mem_singleton] at hm
      rcases hm with hm | rfl
      · exact hid m hm
      · simp only [freshId, Bool.and_eq_true, bne_iff_ne] at hfresh
        exact hfresh.1.1
    · have hm' := hm
      rw [hs, List.mem_append, List.mem_singleton] at hm'
      rcases hm' with hm' | rfl
      · obtain ⟨x, hx, hrest⟩ := hg m hm' hold hr t ht
        exact ⟨x, hmono x hx, hrest⟩
      · -- an empty target would have to be the id of a message
        have hne : t ≠ "" := by
          rintro rfl
          simp only [Db.messageFk, Bool.and_eq_true] at hfk
          have hany := hfk.2
          rw [show (p.row type c.id seq w.now).replyToId = some "" from ht] at hany
          obtain ⟨x, hx, hxid⟩ := List.any_eq_true.1 hany
          exact hid _ (stub_mem hx) (by simpa using hxid : x.id = "")
        obtain ⟨x, hx, hxid, hxr, hlt⟩ := (ha hr).target t
          (by rw [show p.replyToId = some t from ht]; exact truthy_some hne) rfl
        exact ⟨x, hmono x hx, hxid, hxr, hlt a seq rfl⟩

theorem replies_valid {cfg : AppConfig} {json : Json} {r : String} {old : List Message}
    {D : Discipline World Call Pc} :
    (replies r old).Valid (machine cfg json) D (numbering r) where
  move {c call w pc w' pc'} a := by
    rcases step_cases a.step with ⟨p, pc₁, pc₁', rfl, rfl, rfl, ha⟩ | ⟨hne, ha⟩
    · refine ⟨ha.repliesAfter (a.own p pc₁ rfl rfl) a.glob.1 a.glob.2, fun p' pc₂ hp hpc hr => ?_⟩
      cases hp; cases hpc
      have hn := a.baseOwn p pc₁ rfl rfl hr
      exact ha.answers hr (ha.advance hr a.baseGlob hn) a.baseGlob hn (a.own p pc₁ rfl rfl hr)
    · exact ⟨by simpa only [replies, RepliesAfter, ha.log] using a.glob,
        fun p _ hp => absurd hp (hne p)⟩
  keep {c call w pc w' pc' call₂ pc₂} a b := by
    refine ⟨fun p pc₁ hp hpc hr => (b.own p pc₁ hp hpc hr).mono ?_, trivial⟩
    rcases step_cases a.step with ⟨p, pc₁, pc₁', rfl, rfl, rfl, ha⟩ | ⟨-, ha⟩
    · exact ha.stubs_mono
    · rw [ha.log]; exact fun _ h => h
  symm _ := trivial
  env ms {w} hg := ⟨hg, fun ho p pc₁ hp hpc hr => (ho p pc₁ hp hpc hr).mono fun _ h => h⟩

theorem replies_initial {ι : Type} {cfg : AppConfig} {json : Json} {calls : ι → Call}
    {w : World} {r : String} (hid : ∀ m ∈ w.db.messages.rows, m.id ≠ "")
    (hsys : ∀ i p, calls i = .createMessage p → p.isSystem = true → p.replyToId = none) :
    (replies r (stubs w.db)).Holds calls ((machine cfg json).initial calls w) := by
  refine ⟨⟨fun m hm => ?_, fun m hm hold => absurd hm hold⟩, fun i p pc₁ hp hpc _ => ?_,
    fun _ _ _ => trivial⟩
  · obtain ⟨x, hx, rfl⟩ := List.mem_map.1 hm
    exact hid x hx
  · have hpc' : start (calls i) = .create pc₁ := hpc
    rw [hp] at hpc'
    cases hpc'
    have hs := hsys i p hp
    unfold createStart
    split
    · exact answers_of_none hs (fun _ h' => nomatch h') fun h' => nomatch h'
    · exact answers_afterLookup hs

/-! ## No collision -/

/-- No `createMessage` call in the room resyncs, no number about to be inserted is taken, and every
reply persisted since `w` has a larger number than the message it replies to. -/
structure IssuedSafely {ι : Type} (calls : ι → Call) (w : World) (r : String)
    (P : Pool World Pc ι) : Prop where
  resync : ∀ i p, calls i = .createMessage p → p.roomId = r →
    (∀ a, P.pcs i ≠ .create (.resyncMax a)) ∧ ∀ a max, P.pcs i ≠ .create (.resyncSet a max)
  free : ∀ i p, calls i = .createMessage p → p.roomId = r → ∀ a seq,
    P.pcs i = .create (.insert a seq) → seq ∉ seqs P.shared.db r
  later : ∀ m ∈ P.shared.db.messages.rows, (∀ m₀ ∈ w.db.messages.rows, m.id ≠ m₀.id) →
    m.roomId = r → ∀ t, m.replyToId = some t →
      ∃ x ∈ P.shared.db.messages.rows, x.id = t ∧ x.roomId = r ∧ x.seq < m.seq

/-- As long as Redis keeps the counter. -/
theorem issued_of_run {ι : Type} [DecidableEq ι] {cfg : AppConfig} {json : Json}
    {calls : ι → Call} {w : World} {r : String} {D : Discipline World Call Pc}
    {P : Pool World Pc ι} (hc : CounterOk r w) (hid : ∀ m ∈ w.db.messages.rows, m.id ≠ "")
    (hsys : ∀ i p, calls i = .createMessage p → p.isSystem = true → p.replyToId = none)
    (hrun : Run (machine cfg json) D calls ((machine cfg json).initial calls w) P) :
    IssuedSafely calls w r P := by
  have hN : ∀ {Q}, Run (machine cfg json) D calls ((machine cfg json).initial calls w) Q →
      (numbering r).Holds calls Q := fun h => numbering_run hc h
  have hown := fun i p hp hr pc₁ hpc => (hN hrun).own i p pc₁ hp hpc hr
  refine ⟨fun i p hp hr => ⟨fun a h => hown i p hp hr _ h, fun a max h => hown i p hp hr _ h⟩,
    fun i p hp hr a seq h => (hown i p hp hr _ h).2.1, fun m hm hnew hr t ht => ?_⟩
  have hR := replies_valid.run hN (replies_initial hid hsys) hrun
  have hold : stub m ∉ stubs w.db := fun hmem => by
    obtain ⟨m₀, hm₀, heq⟩ := List.mem_map.1 hmem
    exact hnew m₀ hm₀ (congrArg Message.id heq).symm
  obtain ⟨x, hx, hxid, hxr, hlt⟩ := hR.glob.2 (stub m) (stub_mem hm) hold hr t ht
  obtain ⟨x₀, hx₀, rfl⟩ := List.mem_map.1 hx
  exact ⟨x₀, hx₀, hxid, hxr, hlt⟩

/-! ### Two senders in a room of two -/

def noJson : Json := ⟨fun _ => "", fun _ => none, fun _ => rfl⟩

/-- A text of `sender` in the room `r1`. -/
def say (sender : String) (key : Option String := none) (reply : Option String := none) : Call :=
  .createMessage { roomId := "r1", senderId := sender, type := some .TEXT, content := some "hi",
                   replyToId := reply, clientMessageId := key }

def messageR1 (id : String) (seq : Nat) : Message :=
  { id, roomId := "r1", senderId := "a", seq, type := .TEXT, content := some "hi", mediaId := none,
    replyToId := none, clientMessageId := none, createdAt := 0 }

def usersAB : Table User := ⟨[⟨"a", "ka", .ACTIVE⟩, ⟨"b", "kb", .ACTIVE⟩], by decide⟩

def roomsR1 : Table Room := ⟨[{ id := "r1", type := .GROUP, createdBy := "a" }], by decide⟩

/-- `a` and `b` are in `r1`, which holds `messages`; Redis knows nothing of it. -/
def worldR1 (messages : Table Message := .empty) : World where
  db.users := usersAB
  db.rooms := roomsR1
  db.roomMembers := ⟨[{ roomId := "r1", userId := "a", joinedAt := 0 },
                      { roomId := "r1", userId := "b", joinedAt := 0 }], by decide⟩
  db.messages := messages

def turn {ι : Type} (i : ι) (c : Choice := {}) : Move ι Choice Nat := .step i c

def turns {ι : Type} (i : ι) (n : Nat) : List (Move ι Choice Nat) := List.replicate n (turn i)

theorem worldR1_counterOk (messages : Table Message) : CounterOk "r1" (worldR1 messages) where
  lasting _ h := nomatch h
  ahead _ h := nomatch h

def twoTexts : Bool → Call
  | false => say "a"
  | true => say "b"

end Intaktok.Messages
