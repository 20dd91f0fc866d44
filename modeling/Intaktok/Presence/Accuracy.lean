import Mathlib.Data.List.Find
import Intaktok.Presence.Service
import Intaktok.Lib.Interleave
/-
# Is presence accurate?

`addConnection` and `removeConnection` of any number of sockets, interleaved. `removeConnection`
counts the sockets that are left and deletes the key in another action: where the key is still
empty then, the set holds the registered sockets in every state (`presence_accurate`); where a
socket has registered in between, the user is offline with a socket connected
(`presence_inaccurate`).

| here | there |
| --- | --- |
| `SocketPc` | one socket: `addConnection`, then at any time, or never, `removeConnection` |
| `Lapse` | time, as long as no key expires, and `refresh` (`presence.service.ts:53`) |
-/

namespace Intaktok.Presence

open Interleave

/-! ## The set of a user -/

/-- The sockets in the set. -/
def online (w : World) (userId : String) : List String :=
  match w.lookup (key userId) with
  | some (.set members) => members
  | _ => []

/-- The key holds a set, or nothing. -/
def HoldsSet (w : World) (userId : String) : Prop :=
  w.lookup (key userId) = none ∨ ∃ members, w.lookup (key userId) = some (.set members)

theorem key_inj {u v : String} (h : key u = key v) : u = v :=
  (String.append_right_inj "presence:online:").1 h

theorem online_congr {w w' : World} {u : String}
    (h : w'.lookup (key u) = w.lookup (key u)) : online w' u = online w u := by
  unfold online
  rw [h]

theorem holdsSet_congr {w w' : World} {u : String}
    (h : w'.lookup (key u) = w.lookup (key u)) (hw : HoldsSet w u) : HoldsSet w' u := by
  unfold HoldsSet
  rwa [h]

theorem online_of_set {w : World} {u : String} {members : List String}
    (h : w.lookup (key u) = some (.set members)) : online w u = members := by
  rw [online, h]

theorem online_of_none {w : World} {u : String} (h : w.lookup (key u) = none) :
    online w u = [] := by
  rw [online, h]

/-- What a command leaves under the key it rewrites and under every other one. -/
theorem lookup_put {w : World} {k j : String} {v : RedisValue} {ttl : Option Nat}
    (hl : ttl.all (w.now < ·) = true) :
    World.lookup { w with redis := KeyValue.put k ⟨v, ttl⟩ w.redis } j =
      if j = k then some v else w.lookup j := by
  split
  · rename_i hj; rw [hj]; exact KeyValue.get_put_self _ _ _ _ hl
  · rename_i hj; exact KeyValue.get_put_ne _ hj _ _

theorem lookup_of_entry {w : World} {k : String} {e : KeyValue.Entry RedisValue}
    (h : KeyValue.entry w.now k w.redis = some e) : w.lookup k = some e.value := by
  simp [World.lookup, KeyValue.get, h]

theorem lookup_of_no_entry {w : World} {k : String}
    (h : KeyValue.entry w.now k w.redis = none) : w.lookup k = none := by
  simp [World.lookup, KeyValue.get, h]

/-- The key of one user is rewritten, and his set becomes that of the `x` with `p x`. -/
structure Rewritten (w w' : World) (u : String) (p : String → Prop) : Prop where
  holds : HoldsSet w' u
  mem : ∀ x, x ∈ online w' u ↔ p x
  others : ∀ j, j ≠ key u → w'.lookup j = w.lookup j

theorem rewritten_put {w : World} {u : String} {members : List String} {ttl : Option Nat}
    (hl : ttl.all (w.now < ·) = true) :
    Rewritten w { w with redis := KeyValue.put (key u) ⟨.set members, ttl⟩ w.redis } u
      (· ∈ members) := by
  have hself := (lookup_put (k := key u) (j := key u) (v := .set members) hl).trans (if_pos rfl)
  exact ⟨.inr ⟨members, hself⟩, fun x => by rw [online_of_set hself],
    fun j hj => (lookup_put hl).trans (if_neg hj)⟩

theorem rewritten_del (w : World) (u : String) : Rewritten w (w.del (key u)) u fun _ => False where
  holds := .inl (World.lookup_del_self w (key u))
  mem x := by simp [online_of_none (World.lookup_del_self w (key u))]
  others j hj := World.lookup_del_ne w hj

theorem Rewritten.congr {w w' : World} {u : String} {p q : String → Prop}
    (h : Rewritten w w' u p) (hpq : ∀ x, p x ↔ q x) : Rewritten w w' u q :=
  ⟨h.holds, fun x => (h.mem x).trans (hpq x), h.others⟩

section Commands
variable {w w' : World} {u m : String}

theorem sadd_ok (h : w.sadd (key u) m = some w') : ∃ ttl : Option Nat,
    ttl.all (w.now < ·) = true ∧ w' = { w with
      redis := KeyValue.put (key u)
        ⟨.set (if (online w u).contains m then online w u else online w u ++ [m]), ttl⟩
        w.redis } := by
  simp only [World.sadd] at h
  split at h
  · rename_i he
    cases h
    refine ⟨none, rfl, ?_⟩
    rw [online_of_none (lookup_of_no_entry he)]
    rfl
  · rename_i members ttl he
    cases h
    refine ⟨ttl, (KeyValue.entry_some he).2, ?_⟩
    rw [online_of_set (lookup_of_entry he)]
  · cases h

/-- `SADD` adds one. -/
theorem sadd_spec (h : w.sadd (key u) m = some w') :
    Rewritten w w' u fun x => x = m ∨ x ∈ online w u := by
  obtain ⟨ttl, hl, rfl⟩ := sadd_ok h
  refine (rewritten_put hl).congr fun x => ?_
  split
  · rename_i hm
    exact ⟨.inr, fun hx => hx.elim (fun hxm => hxm ▸ List.contains_iff_mem.1 hm) id⟩
  · simp [or_comm]

theorem srem_ok (h : w.srem (key u) m = some w') :
    online w u = [] ∧ w' = w ∨
    (online w u).filter (· != m) = [] ∧ w' = w.del (key u) ∨
    ∃ ttl : Option Nat, ttl.all (w.now < ·) = true ∧ w' = { w with
      redis := KeyValue.put (key u) ⟨.set ((online w u).filter (· != m)), ttl⟩ w.redis } := by
  simp only [World.srem] at h
  split at h
  · rename_i he
    cases h
    exact .inl ⟨online_of_none (lookup_of_no_entry he), rfl⟩
  · rename_i members ttl he
    rw [online_of_set (lookup_of_entry he)]
    split at h <;> cases h
    · rename_i hempty
      exact .inr (.inl ⟨List.isEmpty_iff.1 hempty, rfl⟩)
    · exact .inr (.inr ⟨ttl, (KeyValue.entry_some he).2, rfl⟩)
  · cases h

/-- `SREM` takes one away. -/
theorem srem_spec (hw : HoldsSet w u) (h : w.srem (key u) m = some w') :
    Rewritten w w' u fun x => x ≠ m ∧ x ∈ online w u := by
  have hmem : ∀ x, x ∈ (online w u).filter (· != m) ↔ x ≠ m ∧ x ∈ online w u := by
    intro x
    rw [List.mem_filter, bne_iff_ne, and_comm]
  rcases srem_ok h with ⟨hnil, rfl⟩ | ⟨hnil, rfl⟩ | ⟨ttl, hl, rfl⟩
  · exact ⟨hw, fun x => by simp [hnil], fun _ _ => rfl⟩
  · exact (rewritten_del w u).congr fun x => by rw [← hmem, hnil]; simp
  · exact (rewritten_put hl).congr hmem

theorem expire_ok {ttl : Nat} (hw : HoldsSet w u) :
    w.expire (key u) ttl = w ∨
    w.expire (key u) ttl = { w with
      redis := KeyValue.put (key u) ⟨.set (online w u), some (w.now + ttl * 1000)⟩ w.redis } := by
  unfold World.expire
  split
  · exact .inl rfl
  · rename_i value ttl₀ he
    rcases hw with hw | ⟨members, hw⟩
    · rw [lookup_of_entry he] at hw; cases hw
    · rw [lookup_of_entry he, Option.some.injEq] at hw
      obtain rfl : value = .set members := hw
      rw [online_of_set (lookup_of_entry he)]
      exact .inr rfl

/-- `EXPIRE` with a time to live leaves the set as it is. -/
theorem expire_spec {ttl : Nat} (httl : 0 < ttl) (hw : HoldsSet w u) :
    Rewritten w (w.expire (key u) ttl) u (· ∈ online w u) := by
  rcases @expire_ok w u ttl hw with he | he <;> rw [he]
  · exact ⟨hw, fun _ => .rfl, fun _ _ => rfl⟩
  · exact rewritten_put (by simpa using httl)

end Commands

theorem scard_spec {w : World} {u : String} (hw : HoldsSet w u) :
    w.scard (key u) = some (online w u).length := by
  unfold World.scard online
  rcases hw with hw | ⟨members, hw⟩ <;> simp only [hw, List.length_nil]

theorem sadd_holds {w : World} {u : String} (hw : HoldsSet w u) (m : String) :
    w.sadd (key u) m ≠ none := by
  unfold World.sadd
  split
  · exact Option.some_ne_none _
  · exact Option.some_ne_none _
  · rename_i e he1 he2
    rcases hw with hw | ⟨members, hw⟩ <;> rw [lookup_of_entry he2] at hw
    · cases hw
    · exact absurd (Option.some.inj hw) fun hv => he1 members e.expireAt (by rw [← hv])

theorem srem_holds {w : World} {u : String} (hw : HoldsSet w u) (m : String) :
    w.srem (key u) m ≠ none := by
  unfold World.srem
  split
  · exact Option.some_ne_none _
  · dsimp only
    split <;> exact Option.some_ne_none _
  · rename_i e he1 he2
    rcases hw with hw | ⟨members, hw⟩ <;> rw [lookup_of_entry he2] at hw
    · cases hw
    · exact absurd (Option.some.inj hw) fun hv => he1 members e.expireAt (by rw [← hv])

/-! ## Sockets that come and go -/

/-- A socket of a user. -/
structure Connection where
  userId : String
  socketId : String
deriving DecidableEq

inductive SocketPc where
  | add (pc : AddPc)
  /-- `addConnection` has returned, `removeConnection` has not been called. -/
  | connected
  | remove (pc : RemovePc)

def socketStep (cfg : AppConfig) (k : Connection) (w : World) :
    SocketPc → Option (World × SocketPc)
  | .add pc => (addStep cfg k.userId k.socketId w pc).map fun r => (r.1, match r.2 with
      | .done (.ok _) => .connected
      | pc' => .add pc')
  | .connected => (removeStep k.userId k.socketId w .srem).map fun r => (r.1, .remove r.2)
  | .remove pc => (removeStep k.userId k.socketId w pc).map fun r => (r.1, .remove r.2)

inductive Lapse where
  | tick (ms : Nat)
  | refresh (userId : String)

/-- Time does not pass while it would let a key expire. -/
def lapse (cfg : AppConfig) : Lapse → World → World
  | .tick ms, w =>
    if w.redis.all fun p => !p.2.live w.now || p.2.live (w.now + ms) then w.tick ms else w
  | .refresh userId, w => refresh cfg userId w

def connections (cfg : AppConfig) : Machine World Connection SocketPc Unit Lapse where
  start _ := .add .sadd
  step _ := socketStep cfg
  env := lapse cfg

/-- The key is deleted while the set is still empty. -/
def DeletesEmpty : Discipline World Connection SocketPc where
  alone k w pc := pc = .remove .del → online w k.userId = []
  beside _ _ _ _ _ := True

/-- The socket is in the set, if nobody else has interfered. -/
def registered : SocketPc → Bool
  | .add .expire | .add .scard | .connected => true
  | _ => false

/-- A call of the socket is in flight. -/
def calling : SocketPc → Bool
  | .add .expire | .add .scard | .remove .scard | .remove .del | .remove .lastSeenAt => true
  | _ => false

theorem rewritten_refl {w : World} {u : String} (hw : HoldsSet w u) :
    Rewritten w w u (· ∈ online w u) := ⟨hw, fun _ => .rfl, fun _ _ => rfl⟩

section Step
variable {cfg : AppConfig} {k : Connection} {w w' : World}

theorem Rewritten.settled {b : Prop} (h : Rewritten w w' k.userId (· ∈ online w k.userId))
    (hin : k.socketId ∈ online w k.userId ↔ b) :
    Rewritten w w' k.userId fun x => if x = k.socketId then b else x ∈ online w k.userId := by
  refine h.congr fun x => ?_
  split
  · rename_i hx; rw [hx, hin]
  · rfl

theorem rewritten_add (httl : 0 < cfg.presenceTtlSec) {pc pc' : AddPc}
    (hw : HoldsSet w k.userId)
    (hin : k.socketId ∈ online w k.userId ↔ registered (.add pc) = true)
    (h : addStep cfg k.userId k.socketId w pc = some (w', pc')) :
    (Rewritten w w' k.userId fun x => if x = k.socketId then True else x ∈ online w k.userId) ∧
      (pc' = .expire ∨ pc' = .scard ∨ ∃ first, pc' = .done (.ok first)) := by
  cases pc with
  | sadd =>
    simp only [addStep] at h
    split at h
    · rename_i w₁ hs
      cases h
      refine ⟨(sadd_spec hs).congr fun x => ?_, .inl rfl⟩
      split
      · rename_i hx; simp [hx]
      · rename_i hx; simp [hx]
    · rename_i hs; exact absurd hs (sadd_holds hw _)
  | expire =>
    cases h
    exact ⟨(expire_spec httl hw).settled (hin.trans (by simp [registered])), .inr (.inl rfl)⟩
  | scard =>
    simp only [addStep, scard_spec hw] at h
    cases h
    exact ⟨(rewritten_refl hw).settled (hin.trans (by simp [registered])), .inr (.inr ⟨_, rfl⟩)⟩
  | done r => cases h

theorem rewritten_remove {pc pc' : RemovePc} (hw : HoldsSet w k.userId)
    (hin : pc ≠ .srem → k.socketId ∉ online w k.userId)
    (hdel : pc = .del → online w k.userId = [])
    (h : removeStep k.userId k.socketId w pc = some (w', pc')) :
    Rewritten w w' k.userId fun x => if x = k.socketId then False else x ∈ online w k.userId := by
  cases pc with
  | srem =>
    simp only [removeStep] at h
    split at h
    · rename_i w₁ hs
      cases h
      refine (srem_spec hw hs).congr fun x => ?_
      split
      · rename_i hx; simp [hx]
      · rename_i hx; simp [hx]
    · rename_i hs; exact absurd hs (srem_holds hw _)
  | scard =>
    simp only [removeStep, scard_spec hw] at h
    cases h
    exact (rewritten_refl hw).settled (iff_false_intro (hin RemovePc.noConfusion))
  | del =>
    cases h
    refine (rewritten_del w k.userId).congr fun x => ?_
    simp [hdel rfl]
  | lastSeenAt =>
    cases h
    have hlook := lookup_updateLastSeenAt k.userId w
    have hsame : Rewritten w (updateLastSeenAt k.userId w) k.userId (· ∈ online w k.userId) :=
      ⟨holdsSet_congr (hlook _) hw, fun x => by rw [online_congr (hlook _)], fun j _ => hlook j⟩
    exact hsame.settled (iff_false_intro (hin RemovePc.noConfusion))
  | done r => cases h

/-- What an action of a socket leaves of the set of its user. -/
theorem rewritten_step (httl : 0 < cfg.presenceTtlSec) {pc pc' : SocketPc}
    (hw : HoldsSet w k.userId) (hin : k.socketId ∈ online w k.userId ↔ registered pc = true)
    (hdel : pc = .remove .del → online w k.userId = [])
    (h : socketStep cfg k w pc = some (w', pc')) :
    Rewritten w w' k.userId fun x =>
      if x = k.socketId then registered pc' = true else x ∈ online w k.userId := by
  cases pc with
  | add pc =>
    obtain ⟨⟨w₁, pc₁⟩, hs, he⟩ := Option.map_eq_some_iff.1 h
    cases he
    obtain ⟨hrew, hpc⟩ := rewritten_add httl hw hin hs
    rcases hpc with rfl | rfl | ⟨first, rfl⟩ <;> simpa [registered] using hrew
  | connected =>
    obtain ⟨⟨w₁, pc₁⟩, hs, he⟩ := Option.map_eq_some_iff.1 h
    cases he
    simpa [registered] using rewritten_remove hw (absurd rfl) RemovePc.noConfusion hs
  | remove pc =>
    obtain ⟨⟨w₁, pc₁⟩, hs, he⟩ := Option.map_eq_some_iff.1 h
    cases he
    have hout : k.socketId ∉ online w k.userId := fun h => Bool.false_ne_true (hin.1 h)
    simpa [registered] using
      rewritten_remove hw (fun _ => hout) (fun hpc => hdel (by rw [hpc])) hs

end Step

/-! ## Nothing expires -/

theorem live_of_later {e : KeyValue.Entry RedisValue} {now ms : Nat}
    (h : e.live (now + ms) = true) : e.live now = true := by
  unfold KeyValue.Entry.live at h ⊢
  cases he : e.expireAt with
  | none => rfl
  | some t =>
    simp only [he, Option.all_some, decide_eq_true_eq] at h ⊢
    omega

theorem lookup_lapse_tick (cfg : AppConfig) (ms : Nat) (w : World) (k : String) :
    (lapse cfg (.tick ms) w).lookup k = w.lookup k := by
  simp only [lapse]
  split
  · rename_i hall
    simp only [World.lookup, KeyValue.get, KeyValue.entry, World.tick]
    congr 2
    refine List.find?_congr fun p hp => ?_
    have hlater := List.all_eq_true.1 hall p hp
    have hnow := @live_of_later p.2 w.now ms
    cases h₁ : p.2.live w.now <;> cases h₂ : p.2.live (w.now + ms) <;> simp_all
  · rfl

/-! ## Runs -/

section Runs
variable {ι : Type} {cfg : AppConfig} {calls : ι → Connection} {w : World}
  {P : Pool World SocketPc ι}

/-- No call is in flight. -/
def Idle (P : Pool World SocketPc ι) : Prop := ∀ i, calling (P.pcs i) = false

/-- The sockets that have been added and not been removed. -/
def Connected (calls : ι → Connection) (P : Pool World SocketPc ι) (userId socketId : String) :
    Prop :=
  ∃ i, calls i = ⟨userId, socketId⟩ ∧ P.pcs i = .connected

/-- Presence is accurate: the set of a user holds his connected sockets and nothing else, and he
is online if and only if there is one. -/
structure Accurate (calls : ι → Connection) (P : Pool World SocketPc ι) (userId : String) :
    Prop where
  sockets : ∀ socketId, socketId ∈ online P.shared userId ↔ Connected calls P userId socketId
  online : isOnline P.shared userId = some true ↔ ∃ socketId, Connected calls P userId socketId

/-- The set of every user holds his registered sockets. -/
def Exact (calls : ι → Connection) (P : Pool World SocketPc ι) : Prop :=
  ∀ u, HoldsSet P.shared u ∧ ∀ x, x ∈ online P.shared u ↔
    ∃ i, calls i = ⟨u, x⟩ ∧ registered (P.pcs i) = true

theorem exact_env (httl : 0 < cfg.presenceTtlSec) {Q : Pool World SocketPc ι}
    (hI : Exact calls Q) (e : Lapse) : Exact calls ⟨lapse cfg e Q.shared, Q.pcs⟩ := by
  intro u
  obtain ⟨hholds, hmem⟩ := hI u
  cases e with
  | tick ms =>
    have hlook := lookup_lapse_tick cfg ms Q.shared (key u)
    exact ⟨holdsSet_congr hlook hholds, fun x => by rw [online_congr hlook, hmem]⟩
  | refresh v =>
    have hrew := expire_spec httl (hI v).1
    by_cases hu : u = v
    · subst hu
      exact ⟨hrew.holds, fun x => (hrew.mem x).trans (hmem x)⟩
    · have hlook := hrew.others (key u) fun hk => hu (key_inj hk)
      have honline : online (lapse cfg (.refresh v) Q.shared) u = online Q.shared u :=
        online_congr hlook
      exact ⟨holdsSet_congr hlook hholds, fun x => honline ▸ hmem x⟩

variable [DecidableEq ι]

theorem exact_move (httl : 0 < cfg.presenceTtlSec) (hinj : Function.Injective calls)
    {Q : Pool World SocketPc ι} (hI : Exact calls Q) {i : ι} {s' : World} {l' : SocketPc}
    (ha : DeletesEmpty.allows calls Q i)
    (hs : socketStep cfg (calls i) Q.shared (Q.pcs i) = some (s', l')) :
    Exact calls ⟨s', Function.update Q.pcs i l'⟩ := by
  obtain ⟨hholds, hmem⟩ := hI (calls i).userId
  have hin : (calls i).socketId ∈ online Q.shared (calls i).userId ↔
      registered (Q.pcs i) = true := by
    rw [hmem]
    constructor
    · rintro ⟨j, hj, hreg⟩
      rwa [← hinj hj]
    · exact fun hreg => ⟨i, rfl, hreg⟩
  have hrew := rewritten_step httl hholds hin ha.1 hs
  -- the other processes are other sockets
  have hother : ∀ u x, (⟨u, x⟩ : Connection) ≠ calls i →
      ((∃ j, calls j = ⟨u, x⟩ ∧ registered (Function.update Q.pcs i l' j) = true) ↔
        ∃ j, calls j = ⟨u, x⟩ ∧ registered (Q.pcs j) = true) := by
    intro u x hne
    refine exists_congr fun j => and_congr_right fun hj => ?_
    have hji : j ≠ i := by rintro rfl; exact hne hj.symm
    rw [Function.update_of_ne hji]
  intro u
  by_cases hu : u = (calls i).userId
  · subst hu
    refine ⟨hrew.holds, fun x => ?_⟩
    rw [hrew.mem]
    split
    · rename_i hx
      subst hx
      constructor
      · exact fun hreg => ⟨i, rfl, by simpa using hreg⟩
      · rintro ⟨j, hj, hreg⟩
        obtain rfl := hinj hj
        simpa using hreg
    · rename_i hx
      rw [hmem, hother]
      exact fun he => hx (congrArg Connection.socketId he)
  · have hlook := hrew.others (key u) fun hk => hu (key_inj hk)
    obtain ⟨hholds₂, hmem₂⟩ := hI u
    refine ⟨holdsSet_congr hlook hholds₂, fun x => ?_⟩
    rw [online_congr hlook, hmem₂, hother]
    exact fun he => hu (congrArg Connection.userId he)

theorem exact_run (httl : 0 < cfg.presenceTtlSec) (hinj : Function.Injective calls)
    (h0 : ∀ u, w.lookup (key u) = none)
    (hrun : Run (connections cfg) DeletesEmpty calls ((connections cfg).initial calls w) P) :
    Exact calls P := by
  refine hrun.invariant (Exact calls) ?_ ?_ ?_
  · refine fun u => ⟨.inl (h0 u), fun x => ?_⟩
    have hempty : online w u = [] := online_of_none (h0 u)
    simp [Machine.initial, connections, hempty, registered]
  · exact fun _ hI ha hs => exact_move httl hinj hI ha hs
  · exact fun e hI => exact_env httl hI e

omit [DecidableEq ι] in
/-- Where no call is in flight the registered sockets are the connected ones. -/
theorem mem_online_of_idle (hI : Exact calls P) (hidle : Idle P) (userId socketId : String) :
    socketId ∈ online P.shared userId ↔ Connected calls P userId socketId := by
  rw [(hI userId).2]
  refine exists_congr fun i => and_congr_right fun _ => ?_
  have hi := hidle i
  cases hpc : P.pcs i with
  | connected => simp [registered]
  | add pc => rw [hpc] at hi; cases pc <;> simp_all [registered, calling]
  | remove pc => simp [registered]

/-- **Presence is accurate** in every run in which no key is deleted under a socket that has
registered meanwhile. -/
theorem presence_accurate (httl : 0 < cfg.presenceTtlSec) (hinj : Function.Injective calls)
    (h0 : ∀ u, w.lookup (key u) = none)
    (hrun : Run (connections cfg) DeletesEmpty calls ((connections cfg).initial calls w) P)
    (hidle : Idle P) (userId : String) : Accurate calls P userId := by
  have hI : Exact calls P := exact_run httl hinj h0 hrun
  refine ⟨mem_online_of_idle hI hidle userId, ?_⟩
  rw [isOnline, scard_spec (hI userId).1, Option.map_some, Option.some.injEq, decide_eq_true_eq,
    List.length_pos_iff_exists_mem]
  exact exists_congr (mem_online_of_idle hI hidle userId)

end Runs

/-! ### Two devices -/

/-- Two sockets of `u`. -/
def devices : Bool → Connection
  | false => ⟨"u", "s1"⟩
  | true => ⟨"u", "s2"⟩

theorem devices_injective : Function.Injective devices := by
  intro i j h
  cases i <;> cases j <;> simp_all [devices]

def moves (i : Bool) (n : Nat) : List (Move Bool Unit Lapse) := List.replicate n (.step i ())

def isConnected : SocketPc → Bool
  | .connected => true
  | _ => false

theorem isConnected_iff {pc : SocketPc} : isConnected pc = true ↔ pc = .connected := by
  cases pc <;> simp [isConnected]

/-- **A live socket forgotten.** `s1` has counted the sockets that are left when `s2` registers,
and deletes the key. -/
theorem presence_inaccurate : ¬ ∀ (ι : Type) [DecidableEq ι] (cfg : AppConfig)
    (calls : ι → Connection) (w : World) (P : Pool World SocketPc ι), 0 < cfg.presenceTtlSec →
    Function.Injective calls → (∀ u, w.lookup (key u) = none) →
    Run (connections cfg) Discipline.free calls ((connections cfg).initial calls w) P →
    Idle P → ∀ userId, Accurate calls P userId := by
  intro h
  have hexec : ((connections {}).exec always devices ((connections {}).initial devices {})
      (moves false 5 ++ moves true 3 ++ moves false 2)).any (fun P =>
        !calling (P.pcs false) && !calling (P.pcs true) && isConnected (P.pcs true) &&
        (isOnline P.shared "u" == some false)) = true := by decide
  obtain ⟨P, hrun, hP⟩ := Machine.exec_reaches_free hexec
  simp only [Bool.and_eq_true, Bool.not_eq_true', beq_iff_eq] at hP
  obtain ⟨⟨⟨h₁, h₂⟩, hc⟩, hoff⟩ := hP
  have hidle : Idle P := fun i => by cases i <;> assumption
  have hacc := h Bool {} devices {} P (by decide) devices_injective (fun _ => rfl) hrun hidle "u"
  have hon := hacc.online.2 ⟨"s2", true, rfl, isConnected_iff.1 hc⟩
  rw [hoff] at hon
  cases hon

/-- `DeletesEmpty` for a schedule. -/
def deletesEmptyOk (P : Pool World SocketPc Bool) (i : Bool) : Bool :=
  match P.pcs i with
  | .remove .del => (online P.shared (devices i).userId).isEmpty
  | _ => true

theorem deletesEmptyOk_allows {P : Pool World SocketPc Bool} {i : Bool}
    (h : deletesEmptyOk P i = true) : DeletesEmpty.allows devices P i := by
  refine ⟨fun hpc => ?_, fun _ _ => trivial⟩
  rw [deletesEmptyOk, hpc] at h
  exact List.isEmpty_iff.1 h

/-- `s2` registers before `s1` counts, or after its key is deleted. -/
theorem presence_accurate_devices : ∃ P : Pool World SocketPc Bool,
    Run (connections {}) DeletesEmpty devices ((connections {}).initial devices {}) P ∧
    isConnected (P.pcs true) = true ∧ isConnected (P.pcs false) = false ∧
    Accurate devices P "u" := by
  have hexec : ((connections {}).exec deletesEmptyOk devices ((connections {}).initial devices {})
      (moves false 4 ++ moves true 3 ++ moves false 1)).any (fun P =>
        !calling (P.pcs false) && !calling (P.pcs true) && isConnected (P.pcs true) &&
        !isConnected (P.pcs false)) = true := by decide
  obtain ⟨P, hrun, hP⟩ := Machine.exec_reaches (D := DeletesEmpty) deletesEmptyOk_allows hexec
  simp only [Bool.and_eq_true, Bool.not_eq_true'] at hP
  obtain ⟨⟨⟨h₁, h₂⟩, hc⟩, hno⟩ := hP
  have hidle : Idle P := fun i => by cases i <;> assumption
  exact ⟨P, hrun, hc, hno, presence_accurate (by decide) devices_injective (fun _ => rfl) hrun
    hidle "u"⟩

end Intaktok.Presence
