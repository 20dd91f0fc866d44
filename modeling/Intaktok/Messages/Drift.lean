import Intaktok.Messages.Numbers
/-
# A counter that has drifted: one sender

When Redis restarts from an older snapshot the counter of a room may be any number, or be gone.
`persistWithSeq` notices only when the number it took is already in use, and then resyncs
(`messages.service.ts:138`). `issued` is the number a call that runs alone ends up with
(`persistsAlone_seq`): the first one after the counter if it is free, else one past the database
maximum. It is past every number of the room unless the counter points below a gap
(`order_kept_iff`), and gaps are made by sends that took a number and inserted nothing
(`order_lost`).
-/

namespace Intaktok.Messages

open Interleave Tables

/-- The counter of the room, if it is there, is some number that never expires. -/
structure Counts (r : String) (w : World) : Prop where
  lasting : KeyValue.Lasting (seqKey r) w.redis
  number : ∀ v, w.lookup (seqKey r) = some v → ∃ n, v = .num n

theorem Counts.setNx {r : String} {w : World} (h : Counts r w) (max : Nat) :
    Counts r (w.setNx (seqKey r) (.num max)) := by
  refine ⟨World.lasting_setNx h.lasting _ _, fun v hv => ?_⟩
  rw [World.lookup_setNx, if_pos rfl, Option.some.injEq] at hv
  cases hk : w.lookup (seqKey r) with
  | none => rw [hk] at hv; exact ⟨max, hv.symm⟩
  | some x =>
    rw [hk] at hv
    obtain ⟨n, hn⟩ := h.number x hk
    exact ⟨n, hv.symm.trans hn⟩

theorem Counts.set {r : String} {w : World} (h : Counts r w) (max : Nat) :
    Counts r (w.set (seqKey r) (.num max)) := by
  refine ⟨World.lasting_set h.lasting _ _, fun v hv => ?_⟩
  rw [World.lookup_set_self, Option.some.injEq] at hv
  exact ⟨max, hv.symm⟩

theorem Counts.incr {r : String} {w w' : World} {n : Nat} (h : Counts r w)
    (hi : w.incr (seqKey r) = some (w', n)) : Counts r w' := by
  obtain ⟨-, hl, -, -, hlast⟩ := World.incr_spec hi
  refine ⟨hlast _ h.lasting, fun v hv => ?_⟩
  rw [hl, Option.some.injEq] at hv
  exact ⟨n, hv.symm⟩

theorem CreateActs.counts {json : Json} {c : Choice} {p : CreateMessageParams} {w w' : World}
    {pc pc' : CreatePc} (h : CreateActs json c p w pc w' pc') (hc : Counts p.roomId w) :
    Counts p.roomId w' := by
  cases h with
  | setNx => exact hc.setNx _
  | incr hi => exact hc.incr hi
  | resyncSet => exact hc.set _
  | inserted hid hcr =>
    obtain ⟨type, t, -, -, -, rfl, -⟩ := createRow_ok hcr
    exact ⟨hc.lasting, hc.number⟩
  | @fetch dto got got' hf =>
    obtain ⟨events, he⟩ := emitCreated_world json dto got' w
    rw [he]
    exact ⟨hc.lasting, hc.number⟩
  | _ => exact ⟨hc.lasting, hc.number⟩

theorem Counts.tick {r : String} {w : World} (h : Counts r w) (ms : Nat) : Counts r (w.tick ms) :=
  ⟨h.lasting, fun v hv => h.number v (World.lookup_tick h.lasting ms ▸ hv)⟩

/-- What the next `INCR` counts from: the counter, or the maximum published in its place. -/
def base (r : String) (w : World) : Nat :=
  match w.lookup (seqKey r) with
  | some (.num n) => n
  | _ => dbMaxSeq w.db r

/-- The number a lone call inserts. -/
def issued (r : String) (w : World) : Nat :=
  if base r w + 1 ∈ seqs w.db r then dbMaxSeq w.db r + 1 else base r w + 1

/-! ## One call from start to end -/

/-- The next number is the first one, or the first one was taken and the counter resynced. -/
def Ready (r : String) (w₀ w : World) : Prop :=
  base r w = base r w₀ ∨ base r w = dbMaxSeq w₀.db r ∧ base r w₀ + 1 ∈ seqs w₀.db r

/-- Where a call that started in `w₀` is when it is about to do `pc` in `w`, as long as it has
inserted nothing. -/
def Underway (r : String) (w₀ w : World) : CreatePc → Prop
  | .seqExists _ | .seqMax _ => Ready r w₀ w
  | .seqSetNx _ max => Ready r w₀ w ∧ max = dbMaxSeq w₀.db r
  | .seqIncr _ => Ready r w₀ w ∧ w.lookup (seqKey r) ≠ none
  | .insert _ seq => seq = base r w₀ + 1 ∨
      seq = dbMaxSeq w₀.db r + 1 ∧ base r w₀ + 1 ∈ seqs w₀.db r
  | .resyncMax _ => base r w₀ + 1 ∈ seqs w₀.db r
  | .resyncSet _ max => base r w₀ + 1 ∈ seqs w₀.db r ∧ max = dbMaxSeq w₀.db r
  | .lookup _ | .member | .media _ | .reply _ => base r w = base r w₀
  | .winner | .done _ => True
  | .roomUpdate _ | .fetch _ _ => False

/-- A lone call: nothing is inserted yet, or one message with the issued number is. -/
structure Alone (r : String) (w₀ w : World) (pc : CreatePc) : Prop where
  counts : Counts r w
  log : stubs w.db = stubs w₀.db ∧ Underway r w₀ w pc ∨
    (∀ m ∈ stubs w.db, m ∈ stubs w₀.db ∨ m.seq = issued r w₀) ∧
      ((∃ m, pc = .roomUpdate m) ∨ (∃ dto got, pc = .fetch dto got) ∨ ∃ x, pc = .done x)

theorem dbMaxSeq_congr {db db' : Db} (h : stubs db' = stubs db) (r : String) :
    dbMaxSeq db' r = dbMaxSeq db r := by
  refine Nat.le_antisymm (dbMaxSeq_le fun s hs => ?_) (dbMaxSeq_le fun s hs => ?_)
  · exact le_dbMaxSeq ((seqs_congr h r s).1 hs)
  · exact le_dbMaxSeq ((seqs_congr h r s).2 hs)

theorem base_of_some {r : String} {w : World} {n : Nat}
    (h : w.lookup (seqKey r) = some (.num n)) : base r w = n := by simp [base, h]

theorem base_of_none {r : String} {w : World} (h : w.lookup (seqKey r) = none) :
    base r w = dbMaxSeq w.db r := by simp [base, h]

theorem underway_of_checking {r : String} {w₀ w : World} {pc : CreatePc} (hpc : Checking pc)
    (h : base r w = base r w₀) : Underway r w₀ w pc := by
  cases hpc with
  | seqExists => exact .inl h
  | _ => exact h

theorem underway_afterMember {r : String} {w₀ w : World} (p : CreateMessageParams)
    (h : base r w = base r w₀) : Underway r w₀ w (afterMember p) := by
  rcases checking_afterMember p with e | ⟨x, e⟩
  · exact underway_of_checking e h
  · rw [e]; trivial

/-- The number of a row that has been accepted was free. -/
theorem free_of_createRow {p : CreateMessageParams} {id : String} {seq : Nat} {w w' : World}
    {m : Message} (h : createRow p id seq w = .ok (w', m)) : seq ∉ seqs w.db p.roomId := by
  obtain ⟨type, t, -, rfl, ht, -, -⟩ := createRow_ok h
  intro hs
  obtain ⟨x, hx, hr, hxs⟩ := mem_seqs.1 hs
  obtain ⟨y, hy, rfl⟩ := List.mem_map.1 hx
  have hfresh := Table.insert_fresh ht hy .roomSeq (by decide)
  simp only [Row.clash, CreateMessageParams.row, Bool.and_eq_false_iff, beq_eq_false_iff_ne]
    at hfresh
  rcases hfresh with hne | hne
  · exact hne hr.symm
  · exact hne hxs.symm

/-- A counter published in its place is what the next number is counted from anyway. -/
theorem base_setNx {r : String} {w : World} (hc : Counts r w) :
    base r (w.setNx (seqKey r) (.num (dbMaxSeq w.db r))) = base r w := by
  have hlook := World.lookup_setNx w (seqKey r) (seqKey r) (.num (dbMaxSeq w.db r))
  rw [if_pos rfl] at hlook
  cases hk : w.lookup (seqKey r) with
  | none =>
    rw [base_of_none hk]
    exact base_of_some (by rw [hlook, hk]; rfl)
  | some v =>
    obtain ⟨n, rfl⟩ := hc.number v hk
    rw [base_of_some hk]
    exact base_of_some (by rw [hlook, hk]; rfl)

section Alone
variable {json : Json} {c : Choice} {p : CreateMessageParams} {w₀ w w' : World}
  {pc pc' : CreatePc}

/-- An action of a call that has inserted nothing: it goes on so, or inserts the issued number. -/
theorem CreateActs.underway (h : CreateActs json c p w pc w' pc') (hc : Counts p.roomId w)
    (hl : stubs w.db = stubs w₀.db) (hu : Underway p.roomId w₀ w pc) :
    stubs w'.db = stubs w₀.db ∧ Underway p.roomId w₀ w' pc' ∨
      (∀ m ∈ stubs w'.db, m ∈ stubs w₀.db ∨ m.seq = issued p.roomId w₀) ∧
        ∃ m, pc' = .roomUpdate m := by
  have hmax := dbMaxSeq_congr hl p.roomId
  cases h with
  | found | notMember | notOwned | noTarget | noNumber | refused | keyTaken | winner | noWinner =>
    exact .inl ⟨hl, trivial⟩
  | missed => exact .inl ⟨hl, underway_of_checking (checking_afterLookup p) hu⟩
  | member => exact .inl ⟨hl, underway_afterMember p hu⟩
  | owned => exact .inl ⟨hl, underway_of_checking (checking_afterMedia p) hu⟩
  | target => exact .inl ⟨hl, .inl hu⟩
  | counter he =>
    obtain ⟨v, hv⟩ := World.exists?_eq_true.1 he
    exact .inl ⟨hl, hu, by simp [hv]⟩
  | noCounter => exact .inl ⟨hl, hu⟩
  | seqMax => exact .inl ⟨hl, hu, hmax⟩
  | @setNx a max =>
    obtain ⟨hready, rfl⟩ := hu
    refine .inl ⟨by rw [World.setNx_db]; exact hl, ?_, ?_⟩
    · have hbase := base_setNx hc
      rw [hmax] at hbase
      rw [Ready, hbase]
      exact hready
    · rw [World.lookup_setNx]
      simp
  | @incr a seq w' hi =>
    obtain ⟨hready, hne⟩ := hu
    obtain ⟨⟨_, rfl⟩, -, -, hcase, -⟩ := World.incr_spec hi
    rcases hcase with ⟨hnone, -⟩ | ⟨n, hn, rfl⟩
    · exact absurd hnone hne
    · refine .inl ⟨hl, ?_⟩
      rw [Ready, base_of_some hn] at hready
      rcases hready with h | ⟨h, htaken⟩
      · exact .inl (by rw [h])
      · exact .inr ⟨by rw [h], htaken⟩
  | @inserted a seq w' m hid hcr =>
    have hfree : seq ∉ seqs w₀.db p.roomId := fun hs =>
      free_of_createRow hcr ((seqs_congr hl p.roomId seq).2 hs)
    obtain ⟨type, t, -, rfl, ht, rfl, -⟩ := createRow_ok hcr
    refine .inr ⟨fun x hx => ?_, _, rfl⟩
    rw [stubs_insert ht, List.mem_append, List.mem_singleton, hl] at hx
    rcases hx with hx | rfl
    · exact .inl hx
    · refine .inr ?_
      rw [issued]
      rcases hu with rfl | ⟨rfl, htaken⟩
      · rw [if_neg hfree]; rfl
      · rw [if_pos htaken]; rfl
  | seqTaken hs =>
    rcases hu with rfl | ⟨-, htaken⟩
    · exact .inl ⟨hl, (seqs_congr hl _ _).1 hs⟩
    · exact .inl ⟨hl, htaken⟩
  | resyncMax => exact .inl ⟨hl, hu, hmax⟩
  | @resyncSet a max =>
    obtain ⟨htaken, rfl⟩ := hu
    have hlook := World.lookup_set_self w (seqKey p.roomId) (.num (dbMaxSeq w₀.db p.roomId))
    refine .inl ⟨hl, ?_⟩
    split
    · exact .inr ⟨base_of_some hlook, htaken⟩
    · trivial
  | roomUpdate | noRoom | fetch => exact hu.elim

/-- Each action of a lone call takes it from one place to the next. -/
theorem CreateActs.alone (h : CreateActs json c p w pc w' pc') (ha : Alone p.roomId w₀ w pc) :
    Alone p.roomId w₀ w' pc' := by
  refine ⟨h.counts ha.counts, ?_⟩
  rcases ha.log with ⟨hl, hu⟩ | ⟨hl, hpc⟩
  · exact (h.underway ha.counts hl hu).imp_right (And.imp_right .inl)
  · right
    rcases hpc with ⟨m, rfl⟩ | ⟨dto, got, rfl⟩ | ⟨x, rfl⟩ <;> cases h
    · exact ⟨hl, .inr (.inl ⟨_, _, rfl⟩)⟩
    · exact ⟨hl, .inr (.inr ⟨_, rfl⟩)⟩
    · rename_i got' hf
      rcases emitCreated_cases json dto got' w with ⟨he, hw⟩ | ⟨_, _, _, he⟩ | he
      · rw [he, hw]; exact ⟨hl, .inr (.inl ⟨_, _, rfl⟩)⟩
      · rw [he]; exact ⟨hl, .inr (.inr ⟨_, rfl⟩)⟩
      · rw [he]; exact ⟨hl, .inr (.inr ⟨_, rfl⟩)⟩

end Alone

/-! ## The number it gets -/

/-- `m` is a message the call persists when it runs alone from `w`. -/
def PersistsAlone (cfg : AppConfig) (json : Json) (p : CreateMessageParams) (w : World)
    (m : Message) : Prop :=
  ∃ w' pc', Solo (machine cfg json) (.createMessage p) w (start (.createMessage p)) w' pc' ∧
    m ∈ w'.db.messages.rows ∧ ∀ m₀ ∈ w.db.messages.rows, m.id ≠ m₀.id

/-- A lone call puts its message after all that are in the room. -/
def KeepsOrder (cfg : AppConfig) (json : Json) (p : CreateMessageParams) (w : World) : Prop :=
  ∀ m, PersistsAlone cfg json p w m → ∀ s ∈ seqs w.db p.roomId, s < m.seq

theorem alone_run {cfg : AppConfig} {json : Json} {p : CreateMessageParams} {w w' : World}
    {pc' : Pc} (hc : Counts p.roomId w)
    (h : Solo (machine cfg json) (.createMessage p) w (start (.createMessage p)) w' pc') :
    ∃ pc, pc' = .create pc ∧ Alone p.roomId w w' pc := by
  refine h.invariant (fun w' pc' => ∃ pc, pc' = .create pc ∧ Alone p.roomId w w' pc) ?_ ?_ ?_
  · refine ⟨_, rfl, hc, .inl ⟨rfl, ?_⟩⟩
    exact underway_of_checking (checking_createStart p) rfl
  · rintro c w₁ _ w₂ pc₂ ⟨pc₁, rfl, ha⟩ hs
    have hs' : step cfg json c (.createMessage p) w₁ (.create pc₁) = some (w₂, pc₂) := hs
    rcases step_cases hs' with ⟨p', pc₁', pc₂', hp, hpc, rfl, hact⟩ | ⟨hne, -⟩
    · cases hp; cases hpc
      exact ⟨pc₂', rfl, hact.alone ha⟩
    · exact absurd rfl (hne p)
  · rintro ms w₁ _ ⟨pc₁, rfl, hcw, hlog⟩
    have hlook := World.lookup_tick hcw.lasting ms
    have hbase : base p.roomId (w₁.tick ms) = base p.roomId w₁ := by rw [base, base, hlook]; rfl
    refine ⟨pc₁, rfl, ⟨hcw.lasting, fun v hv => hcw.number v (hlook ▸ hv)⟩,
      hlog.imp_left fun ⟨hl, hu⟩ => ⟨hl, ?_⟩⟩
    cases pc₁ <;> simp only [Underway, Ready, machine, hbase, hlook] at hu ⊢ <;> exact hu

theorem persistsAlone_seq {cfg : AppConfig} {json : Json} {p : CreateMessageParams} {w : World}
    {m : Message} (hc : Counts p.roomId w) (h : PersistsAlone cfg json p w m) :
    m.seq = issued p.roomId w := by
  obtain ⟨w', pc', hsolo, hm, hnew⟩ := h
  obtain ⟨pc, -, -, hlog⟩ := alone_run hc hsolo
  have hold : stub m ∉ stubs w.db := fun hmem => by
    obtain ⟨m₀, hm₀, heq⟩ := List.mem_map.1 hmem
    exact hnew m₀ hm₀ (congrArg Message.id heq).symm
  rcases hlog with ⟨hl, -⟩ | ⟨hl, -⟩
  · exact absurd (hl ▸ stub_mem hm) hold
  · exact (hl (stub m) (stub_mem hm)).resolve_left hold

/-- **When a drifted counter keeps the order.** A call that runs alone and persists a message puts
it after all that are in the room if and only if the counter is gone, is not behind the room, or
has a number that is taken next to it. -/
theorem order_kept_iff (cfg : AppConfig) (json : Json) (p : CreateMessageParams) (w : World)
    (hc : Counts p.roomId w) (hp : ∃ m, PersistsAlone cfg json p w m) :
    KeepsOrder cfg json p w ↔ ∀ n, w.lookup (seqKey p.roomId) = some (.num n) →
      dbMaxSeq w.db p.roomId ≤ n ∨ n + 1 ∈ seqs w.db p.roomId := by
  constructor
  · intro hk n hn
    by_contra hno
    obtain ⟨hlt, hfree⟩ := not_or.1 hno
    obtain ⟨m, hm⟩ := hp
    have hseq : m.seq = n + 1 := by
      rw [persistsAlone_seq hc hm, issued, base_of_some hn, if_neg hfree]
    -- the largest number of the room is past the gap the message falls into
    rcases dbMaxSeq_mem w.db p.roomId with h0 | hmem
    · omega
    · have := hk m hm _ hmem
      omega
  · intro hsafe m hm s hs
    have hle := le_dbMaxSeq hs
    rw [persistsAlone_seq hc hm, issued]
    split
    · omega
    · rename_i hfree
      cases hk : w.lookup (seqKey p.roomId) with
      | none => rw [base_of_none hk]; omega
      | some v =>
        obtain ⟨n, rfl⟩ := hc.number v hk
        rw [base_of_some hk] at hfree ⊢
        have := (hsafe n hk).resolve_right hfree
        omega

/-! ### With and without a gap -/

def sayParams (sender : String) (key : Option String := none) : CreateMessageParams where
  roomId := "r1"
  senderId := sender
  type := some .TEXT
  content := some "hi"
  clientMessageId := key

/-- The numbers of the room are `messages`, the counter is back at `n`. -/
def rolledBack (messages : Table Message) (n : Nat) : World :=
  (worldR1 messages).set (seqKey "r1") (.num n)

theorem rolledBack_counts (messages : Table Message) (n : Nat) :
    Counts "r1" (rolledBack messages n) where
  lasting := World.lasting_set (worldR1_counterOk messages).lasting _ _
  number v hv := by
    rw [rolledBack, World.lookup_set_self] at hv
    exact ⟨n, by simpa using hv.symm⟩

/-- What a schedule of one call persists. -/
theorem persistsAlone_of_exec {cfg : AppConfig} {json : Json} {p : CreateMessageParams} {w : World}
    {ms : List (Move Unit Choice Nat)} {q : Message → Bool}
    (h : ((machine cfg json).exec always (fun _ => .createMessage p) ((machine cfg json).initial
      (fun _ => .createMessage p) w) ms).any (fun P => P.shared.db.messages.rows.any fun m =>
        q m && w.db.messages.rows.all (fun m₀ => m.id != m₀.id)) = true) :
    ∃ m, PersistsAlone cfg json p w m ∧ q m = true := by
  obtain ⟨P, hrun, hP⟩ := Machine.exec_reaches_free h
  obtain ⟨m, hm, hq⟩ := List.any_eq_true.1 hP
  simp only [Bool.and_eq_true, List.all_eq_true, bne_iff_ne] at hq
  exact ⟨m, ⟨P.shared, P.pcs (), hrun.solo, hm, hq.2⟩, hq.1⟩

/-- The numbers 1 and 2 with the counter back at 1: the collision leads to a resync. -/
theorem order_kept_r1 : KeepsOrder {} noJson (sayParams "a")
    (rolledBack ⟨[messageR1 "m1" 1, messageR1 "m2" 2], by decide⟩ 1) := by
  let w := rolledBack ⟨[messageR1 "m1" 1, messageR1 "m2" 2], by decide⟩ 1
  let go : Move Unit Choice Nat := .step () { id := "m3" }
  have hexec : ((machine {} noJson).exec always (fun _ => .createMessage (sayParams "a"))
      ((machine {} noJson).initial (fun _ => .createMessage (sayParams "a")) w)
      (List.replicate 9 go)).any (fun P => P.shared.db.messages.rows.any fun m =>
        true && w.db.messages.rows.all (fun m₀ => m.id != m₀.id)) = true := by decide
  obtain ⟨m, hm, -⟩ := persistsAlone_of_exec (q := fun _ => true) hexec
  refine (order_kept_iff {} noJson (sayParams "a") w (rolledBack_counts _ 1) ⟨m, hm⟩).2
    fun n hn => .inr ?_
  have hone : w.lookup (seqKey "r1") = some (.num 1) := World.lookup_set_self _ _ _
  have heq := hone.symm.trans hn
  cases heq
  decide

/-- Redis came back with a state of the counter that is not ahead of the one it had. -/
structure Snapshot (r : String) (w w' : World) : Prop where
  db : w'.db = w.db
  lasting : KeyValue.Lasting (seqKey r) w'.redis
  behind : ∀ v, w'.lookup (seqKey r) = some v →
    ∃ n N, v = .num n ∧ w.lookup (seqKey r) = some (.num N) ∧ n ≤ N

/-- Two sends of `a` with one key race, and `b` writes. -/
def raceAndText : Fin 3 → Call
  | 0 => say "a" (some "k")
  | 1 => say "a" (some "k")
  | 2 => say "b"

/-- **Lost order.** The loser of a race for a key has taken the number 2 and inserted nothing, so
the room holds 1 and 3; with the counter back at 1 the next message gets 2. -/
theorem order_lost : ¬ ∀ (ι : Type) [DecidableEq ι] (cfg : AppConfig) (json : Json)
    (calls : ι → Call) (w₀ : World) (r : String), CounterOk r w₀ → seqs w₀.db r = [] →
    ∀ P : Pool World Pc ι,
    Run (machine cfg json) Discipline.free calls ((machine cfg json).initial calls w₀) P →
    ∀ w, Snapshot r P.shared w → ∀ p : CreateMessageParams, p.roomId = r →
    KeepsOrder cfg json p w := by
  intro h
  let go (i : Fin 3) (id : String) : Move (Fin 3) Choice Nat := .step i { id }
  let alone : Move Unit Choice Nat := .step () { id := "m4" }
  let back (w : World) := w.set (seqKey "r1") (.num 1)
  let schedule := [go 0 "", go 1 ""] ++ List.replicate 5 (go 0 "") ++ [go 0 "m1"] ++
    List.replicate 3 (go 1 "") ++ [go 1 "m2"] ++ List.replicate 3 (go 2 "") ++ [go 2 "m3"]
  have hexec : ((machine {} noJson).exec always raceAndText
      ((machine {} noJson).initial raceAndText (worldR1 .empty)) schedule).any (fun P =>
        P.shared.lookup (seqKey "r1") == some (.num 3) && (seqs P.shared.db "r1").contains 3 &&
        ((machine {} noJson).exec always (fun _ => .createMessage (sayParams "a"))
          ((machine {} noJson).initial (fun _ => .createMessage (sayParams "a")) (back P.shared))
          (List.replicate 4 alone)).any fun Q => Q.shared.db.messages.rows.any fun m =>
            (m.seq == 2) && (back P.shared).db.messages.rows.all (fun m₀ => m.id != m₀.id)) =
      true := by decide
  obtain ⟨P, hrun, hP⟩ := Machine.exec_reaches_free hexec
  simp only [Bool.and_eq_true, beq_iff_eq, List.contains_iff_mem] at hP
  obtain ⟨⟨hcount, h3⟩, hsend⟩ := hP
  obtain ⟨m, hm, hseq⟩ := persistsAlone_of_exec (q := fun m => m.seq == 2) hsend
  have hlast := ((numbering_run (worldR1_counterOk .empty) hrun).glob).lasting
  have hsnap : Snapshot "r1" P.shared (back P.shared) :=
    ⟨rfl, World.lasting_set hlast _ _, fun v hv => ⟨1, 3, by
      rw [World.lookup_set_self] at hv; simpa using hv.symm, hcount, by omega⟩⟩
  have hlt := h (Fin 3) {} noJson raceAndText _ "r1" (worldR1_counterOk .empty) rfl P hrun
    (back P.shared) hsnap (sayParams "a") rfl m hm 3 h3
  simp only [beq_iff_eq] at hseq
  omega

end Intaktok.Messages
