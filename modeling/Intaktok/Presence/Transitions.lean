import Intaktok.Presence.Accuracy
/-
# Is every transition reported once?

`addConnection` returns true, and the gateway tells the room mates that the user is online, when
the set counts one socket; `removeConnection` does so for offline when it counts none. The count
is an action of its own, after the set has been changed, so a socket that comes or goes in between
is counted with it. Where no socket does that in a way that matters to a count still to be made
(`Undisturbed`), there is one online more than there are offlines exactly while a socket is
connected (`transitions_balanced`); two devices that come together are both the second one, and
nobody reports that the user is online (`online_unreported`).

| here | there |
| --- | --- |
| `reported` | the `return` of `addConnection` and `removeConnection` (`presence.service.ts:36`, `:48`) |
| `reporting` | the calls of the sockets, with a log of those that returned true |
-/

namespace Intaktok.Presence

open Interleave

/-! ## What the calls return -/

/-- A call returns true: its user has come online, or gone offline (`false`). A removal that has
deleted the key does so whatever comes. -/
def reported (cfg : AppConfig) (k : Connection) (w : World) : SocketPc → Option (String × Bool)
  | .add pc => match addStep cfg k.userId k.socketId w pc with
    | some (_, .done (.ok true)) => some (k.userId, true)
    | _ => none
  | .connected => none
  | .remove pc => match removeStep k.userId k.socketId w pc with
    | some (_, .lastSeenAt) => some (k.userId, false)
    | _ => none

abbrev Reports := List (String × Bool)

def reporting (cfg : AppConfig) : Machine (World × Reports) Connection SocketPc Unit Lapse :=
  (connections cfg).recorded (reported cfg)

/-- How much oftener the user has been reported online than offline. -/
def balance (reports : Reports) (u : String) : Int :=
  reports.count (u, true) - reports.count (u, false)

/-- What a report adds to it. -/
def weight : Option Bool → Int
  | some true => 1
  | some false => -1
  | none => 0

/-- The size of the set for which a call that has changed it returns true. -/
def edge : SocketPc → Option Nat
  | .add .expire | .add .scard => some 1
  | .remove .scard | .remove .del => some 0
  | _ => none

/-- What the next action of a socket makes of a set of `n`. -/
def resized (n : Nat) : SocketPc → Nat
  | .add .sadd => n + 1
  | .connected => n - 1
  | _ => n

/-- No socket comes or goes if another call of its user that is still to count, or to delete the
key, would return something else for it. -/
def Undisturbed : Discipline (World × Reports) Connection SocketPc where
  alone _ _ _ := True
  beside k s pc k₂ pc₂ := k₂.userId = k.userId → ∀ n, edge pc₂ = some n →
    (resized (online s.1 k.userId).length pc = n ↔ (online s.1 k.userId).length = n)

/-! ## One action -/

section Commands
variable {w w' : World} {u m : String}

theorem online_sadd (hnew : m ∉ online w u) (h : w.sadd (key u) m = some w') :
    online w' u = online w u ++ [m] := by
  obtain ⟨ttl, hl, rfl⟩ := sadd_ok h
  rw [if_neg (by simpa using hnew)]
  exact online_of_set ((lookup_put hl).trans (if_pos rfl))

theorem online_srem (h : w.srem (key u) m = some w') :
    online w' u = (online w u).filter (· != m) := by
  rcases srem_ok h with ⟨hnil, rfl⟩ | ⟨hnil, rfl⟩ | ⟨ttl, hl, rfl⟩
  · rw [hnil]
    rfl
  · rw [hnil]
    exact online_of_none (World.lookup_del_self w (key u))
  · exact online_of_set ((lookup_put hl).trans (if_pos rfl))

theorem online_expire {ttl : Nat} (httl : 0 < ttl) (hw : HoldsSet w u) :
    online (w.expire (key u) ttl) u = online w u := by
  rcases @expire_ok w u ttl hw with he | he <;> rw [he]
  exact online_of_set ((lookup_put (by simpa using httl)).trans (if_pos rfl))

end Commands

/-- An action of a socket, by the size of the set of its user before and after it, with what it
reports. -/
inductive Sized : Nat → SocketPc → Nat → SocketPc → Option Bool → Prop
  | joined {n} : Sized n (.add .sadd) (n + 1) (.add .expire) none
  | lasting {n} : Sized n (.add .expire) n (.add .scard) none
  | counted {n} : Sized n (.add .scard) n .connected (if n = 1 then some true else none)
  | left {n} : Sized (n + 1) .connected n (.remove .scard) none
  | more {n} : 0 < n → Sized n (.remove .scard) n (.remove (.done (.ok false))) none
  | last : Sized 0 (.remove .scard) 0 (.remove .del) none
  | deleted {n} : Sized n (.remove .del) 0 (.remove .lastSeenAt) (some false)
  | seen {n} : Sized n (.remove .lastSeenAt) n (.remove (.done (.ok true))) none

section Step
variable {cfg : AppConfig} {k : Connection} {w w' : World} {pc pc' : SocketPc}

theorem length_filter_ne {l : List String} {x : String} (hl : l.Nodup) (hx : x ∈ l) :
    l.length = (l.filter (· != x)).length + 1 := by
  rw [← hl.erase_eq_filter, List.length_erase_of_mem hx]
  have hpos : 0 < l.length := List.length_pos_of_mem hx
  omega

theorem sized_of_step (httl : 0 < cfg.presenceTtlSec) (hw : HoldsSet w k.userId)
    (hnodup : (online w k.userId).Nodup)
    (hin : k.socketId ∈ online w k.userId ↔ registered pc = true) (hpc : pc ≠ .remove .srem)
    (h : socketStep cfg k w pc = some (w', pc')) :
    (online w' k.userId).Nodup ∧ ∃ r, reported cfg k w pc = r.map (k.userId, ·) ∧
      Sized (online w k.userId).length pc (online w' k.userId).length pc' r := by
  have hcard := scard_spec hw
  cases pc with
  | add pc =>
    obtain ⟨⟨w₁, pc₁⟩, hs, he⟩ := Option.map_eq_some_iff.1 h
    cases he
    cases pc with
    | sadd =>
      have hnew : k.socketId ∉ online w k.userId := fun hx => Bool.false_ne_true (hin.1 hx)
      simp only [addStep] at hs
      split at hs
      · rename_i w₂ hadd
        cases hs
        have honline := online_sadd hnew hadd
        refine ⟨?_, none, by simp [reported, addStep, hadd], ?_⟩
        · rw [honline, List.nodup_append]
          refine ⟨hnodup, List.pairwise_singleton _ _, fun x hx y hy => ?_⟩
          rintro rfl
          exact hnew (List.mem_singleton.1 hy ▸ hx)
        · rw [honline, List.length_append]
          exact .joined
      · rename_i hadd
        exact absurd hadd (sadd_holds hw _)
    | expire =>
      cases hs
      rw [online_expire httl hw]
      exact ⟨hnodup, none, rfl, .lasting⟩
    | scard =>
      simp only [addStep, hcard, Option.some.injEq, Prod.mk.injEq] at hs
      obtain ⟨rfl, rfl⟩ := hs
      refine ⟨hnodup, _, ?_, .counted⟩
      by_cases hone : (online w k.userId).length = 1 <;> simp [reported, addStep, hcard, hone]
    | done r => cases hs
  | connected =>
    obtain ⟨⟨w₁, pc₁⟩, hs, he⟩ := Option.map_eq_some_iff.1 h
    cases he
    simp only [removeStep] at hs
    split at hs
    · rename_i w₂ hrem
      cases hs
      have honline := online_srem hrem
      refine ⟨honline ▸ hnodup.filter _, none, rfl, ?_⟩
      rw [length_filter_ne hnodup (hin.2 rfl), honline]
      exact .left
    · rename_i hrem
      exact absurd hrem (srem_holds hw _)
  | remove pc =>
    obtain ⟨⟨w₁, pc₁⟩, hs, he⟩ := Option.map_eq_some_iff.1 h
    cases he
    cases pc with
    | srem => exact absurd rfl hpc
    | scard =>
      simp only [removeStep, hcard, Option.some.injEq, Prod.mk.injEq] at hs
      obtain ⟨rfl, rfl⟩ := hs
      by_cases hzero : (online w k.userId).length = 0
      · refine ⟨hnodup, none, by simp [reported, removeStep, hcard, hzero], ?_⟩
        rw [if_pos hzero, hzero]
        exact .last
      · refine ⟨hnodup, none, by simp [reported, removeStep, hcard, hzero], ?_⟩
        rw [if_neg hzero]
        exact .more (Nat.pos_of_ne_zero hzero)
    | del =>
      cases hs
      have hnone : online (w.del (key k.userId)) k.userId = [] :=
        online_of_none (World.lookup_del_self w (key k.userId))
      rw [hnone]
      exact ⟨.nil, some false, rfl, .deleted⟩
    | lastSeenAt =>
      cases hs
      rw [online_congr (lookup_updateLastSeenAt k.userId w _)]
      exact ⟨hnodup, none, rfl, .seen⟩
    | done r => cases hs

theorem ne_srem_of_sized {n n' : Nat} {r : Option Bool} (h : Sized n pc n' pc' r) :
    pc' ≠ .remove .srem := by
  cases h <;> rintro ⟨⟩

end Step

/-! ## The balance -/

/-- A set of `n` sockets and a balance of `b`, where the calls `due` are about to return true: one
at most, and without it the balance is that of the set. -/
structure Settled {ι : Type} (due : ι → Prop) (n : Nat) (b : Int) : Prop where
  one : ∀ i j, due i → due j → i = j
  owed : ∀ i, due i → b = if n = 0 then 1 else 0
  even : (∀ i, ¬ due i) → b = if n = 0 then 0 else 1

section Balance
variable {ι : Type} {due due' : ι → Prop} {n n' : Nat} {b : Int} {i : ι} {pc pc' : SocketPc}
  {r : Option Bool}

theorem Settled.same (h : Settled due n b) (hdue : ∀ j, due' j ↔ due j) (hn : n' = 0 ↔ n = 0) :
    Settled due' n' b where
  one i j hi hj := h.one i j ((hdue i).1 hi) ((hdue j).1 hj)
  owed i hi := by
    simp only [hn]
    exact h.owed i ((hdue i).1 hi)
  even hno := by
    simp only [hn]
    exact h.even fun j hj => hno j ((hdue j).2 hj)

/-- The set is filled, or emptied, and one call is to report it. -/
theorem Settled.turn (h : Settled due n b) (hno : ∀ j, ¬ due j) (hi : due' i)
    (hother : ∀ j, j ≠ i → ¬ due' j) (hn : n' = 0 ↔ n ≠ 0) : Settled due' n' b where
  one j j' hj hj' := by
    have honly : ∀ k, due' k → k = i := fun k hk => by_contra fun hne => hother k hne hk
    rw [honly j hj, honly j' hj']
  owed _ _ := by
    rw [h.even hno]
    by_cases h0 : n = 0
    · have hn' : n' ≠ 0 := fun he => hn.1 he h0
      rw [if_pos h0, if_neg hn']
    · rw [if_neg h0, if_pos (hn.2 h0)]
  even hno' := absurd hi (hno' i)

/-- It is reported. -/
theorem Settled.report (h : Settled due n b) (hi : due i) (hi' : ¬ due' i)
    (hother : ∀ j, j ≠ i → (due' j ↔ due j)) {b' : Int}
    (hb : b' = b + if n = 0 then -1 else 1) : Settled due' n b' := by
  have hnone : ∀ j, ¬ due' j := by
    intro j hj
    by_cases hji : j = i
    · exact hi' (hji ▸ hj)
    · exact hji (h.one j i ((hother j hji).1 hj) hi)
  refine ⟨fun j _ hj => absurd hj (hnone j), fun j hj => absurd hj (hnone j), fun _ => ?_⟩
  rw [hb, h.owed i hi]
  split <;> rfl

/-- An action of `i` that disturbs no other call. -/
theorem Settled.sized (h : Settled due n b) (hsized : Sized n pc n' pc' r)
    (hempty : pc = .remove .del → n = 0) (hi : due i ↔ edge pc = some n)
    (hi' : due' i ↔ edge pc' = some n') (hother : ∀ j, j ≠ i → (due' j ↔ due j))
    (hnone : n' ≠ n → ∀ j, j ≠ i → ¬ due j) : Settled due' n' (b + weight r) := by
  -- what `i` is due to report decides whether anything has changed
  have same : (edge pc' = some n' ↔ edge pc = some n) → (n' = 0 ↔ n = 0) →
      Settled due' n' b := by
    intro hedge hzero
    refine h.same (fun j => ?_) hzero
    by_cases hj : j = i
    · rw [hj, hi', hi, hedge]
    · exact hother j hj
  have turn : edge pc = none → n' ≠ n → edge pc' = some n' → (n' = 0 ↔ n ≠ 0) →
      Settled due' n' b := by
    intro hedge hne hedge' hzero
    refine h.turn (fun j => ?_) (hi'.2 hedge') (fun j hj => ?_) hzero
    · by_cases hj : j = i
      · rw [hj, hi, hedge]
        rintro ⟨⟩
      · exact hnone hne j hj
    · rw [hother j hj]
      exact hnone hne j hj
  have report : edge pc = some n → edge pc' = none → ∀ {b' : Int},
      b' = b + (if n = 0 then -1 else 1) → Settled due' n b' := by
    intro hedge hedge' b' hb
    refine h.report (hi.2 hedge) (fun hdue => ?_) hother hb
    rw [hi', hedge'] at hdue
    cases hdue
  cases hsized with
  | @joined n =>
    rw [weight, Int.add_zero]
    by_cases h0 : n = 0
    · exact turn rfl (by omega) (by rw [h0]; rfl) (by omega)
    · exact same (by simp [edge, h0]) (by omega)
  | lasting =>
    rw [weight, Int.add_zero]
    exact same .rfl .rfl
  | @counted n =>
    by_cases h1 : n = 1
    · exact report (by rw [h1]; rfl) rfl (by simp [h1, weight])
    · rw [if_neg h1, weight, Int.add_zero]
      exact same (by simp [edge, Ne.symm h1]) .rfl
  | left =>
    rw [weight, Int.add_zero]
    by_cases h0 : n' = 0
    · exact turn rfl (by omega) (by rw [h0]; rfl) (by omega)
    · exact same (by simp [edge, Ne.symm h0]) (by omega)
  | more hpos =>
    rw [weight, Int.add_zero]
    exact same (by simp [edge, hpos.ne]) .rfl
  | last =>
    rw [weight, Int.add_zero]
    exact same .rfl .rfl
  | deleted =>
    obtain rfl := hempty rfl
    exact report rfl rfl rfl
  | seen =>
    rw [weight, Int.add_zero]
    exact same .rfl .rfl

end Balance

section Runs
variable {ι : Type} {cfg : AppConfig} {calls : ι → Connection} {u : String}
  {P Q : Pool (World × Reports) SocketPc ι}

/-- The sockets without the log. -/
def shown (P : Pool (World × Reports) SocketPc ι) : Pool World SocketPc ι := ⟨P.shared.1, P.pcs⟩

def size (P : Pool (World × Reports) SocketPc ι) (u : String) : Nat :=
  (online P.shared.1 u).length

/-- A call of a socket of `u` returns true, if the set stays as it is. -/
def Due (calls : ι → Connection) (P : Pool (World × Reports) SocketPc ι) (u : String) (i : ι) :
    Prop :=
  (calls i).userId = u ∧ edge (P.pcs i) = some (size P u)

structure Balanced (calls : ι → Connection) (P : Pool (World × Reports) SocketPc ι) (u : String) :
    Prop where
  settled : Settled (Due calls P u) (size P u) (balance P.shared.2 u)
  deletes : ∀ i, (calls i).userId = u → P.pcs i = .remove .del → size P u = 0

theorem balance_append (reports : Reports) (v : String) (r : Option Bool) (u : String) :
    balance (reports ++ (r.map (v, ·)).toList) u =
      balance reports u + if v = u then weight r else 0 := by
  cases r with
  | none => simp [balance, weight]
  | some b =>
    by_cases hv : v = u <;> cases b <;> simp [balance, weight, List.count_append, hv] <;> omega

variable [DecidableEq ι] {i : ι} {s' : World × Reports} {pc pc' : SocketPc} {r : Option Bool}
  {n n' : Nat}

/-- Whose answer is not disturbed, it is due after an action as it was before. -/
theorem due_update_of_ne (hn : size Q u = n) (hpc : Q.pcs i = pc)
    (hsize : (online s'.1 u).length = resized n pc)
    (hundisturbed : ∀ j, j ≠ i → (calls j).userId = u → ∀ e, edge (Q.pcs j) = some e →
      (resized (size Q u) (Q.pcs i) = e ↔ size Q u = e)) {j : ι} (hj : j ≠ i) :
    Due calls ⟨s', Function.update Q.pcs i pc'⟩ u j ↔ Due calls Q u j := by
  simp only [Due, Function.update_of_ne hj]
  refine and_congr_right fun hu => ?_
  show edge (Q.pcs j) = some (online s'.1 u).length ↔ _
  rw [hsize, ← hn, ← hpc]
  constructor
  · intro he
    exact he.trans (congrArg some ((hundisturbed j hj hu _ he).1 rfl).symm)
  · intro he
    exact he.trans (congrArg some ((hundisturbed j hj hu _ he).2 rfl).symm)

/-- What a socket of the user does, where nobody is disturbed by it. -/
theorem Balanced.act (h : Balanced calls Q u) (hi : (calls i).userId = u) (hn : size Q u = n)
    (hpc : Q.pcs i = pc) (hn' : (online s'.1 u).length = n') (hsized : Sized n pc n' pc' r)
    (hbalance : balance s'.2 u = balance Q.shared.2 u + weight r)
    (hundisturbed : ∀ j, j ≠ i → (calls j).userId = u → ∀ e, edge (Q.pcs j) = some e →
      (resized (size Q u) (Q.pcs i) = e ↔ size Q u = e)) :
    Balanced calls ⟨s', Function.update Q.pcs i pc'⟩ u := by
  have hempty : pc = .remove .del → n = 0 := fun he => hn ▸ h.deletes i hi (hpc.trans he)
  have hsize : n' = resized n pc := by
    cases hsized with
    | deleted => exact (hempty rfl).symm
    | _ => rfl
  have hother : ∀ j, j ≠ i →
      (Due calls ⟨s', Function.update Q.pcs i pc'⟩ u j ↔ Due calls Q u j) :=
    fun j hj => due_update_of_ne hn hpc (hn'.trans hsize) hundisturbed hj
  have hself : Due calls ⟨s', Function.update Q.pcs i pc'⟩ u i ↔ edge pc' = some n' := by
    simp only [Due, hi, true_and, Function.update_self, size, hn']
  have hbefore : Due calls Q u i ↔ edge pc = some n := by
    simp only [Due, hi, true_and, hpc, hn]
  refine ⟨?_, fun j hju hdel => ?_⟩
  · show Settled _ (online s'.1 u).length (balance s'.2 u)
    have hs : Settled (Due calls Q u) n (balance Q.shared.2 u) := hn ▸ h.settled
    rw [hn', hbalance]
    refine hs.sized hsized hempty hbefore hself hother fun hne j hj hdue => hne ?_
    -- if the set changes, no other call is due
    rw [hsize, ← hn, ← hpc]
    exact (hundisturbed j hj hdue.1 _ hdue.2).2 rfl
  · show (online s'.1 u).length = 0
    rw [hn']
    by_cases hj : j = i
    · subst hj
      simp only [Function.update_self] at hdel
      rw [hdel] at hsized
      cases hsized
      rfl
    · simp only [Function.update_of_ne hj] at hdel
      have hzero := h.deletes j hju hdel
      rw [hsize, ← hpc, ← hn]
      exact ((hundisturbed j hj hju 0 (by rw [hdel]; rfl)).2 hzero)

/-- An action of another user's socket. -/
theorem Balanced.other (h : Balanced calls Q u) (hi : (calls i).userId ≠ u)
    (honline : online s'.1 u = online Q.shared.1 u)
    (hbalance : balance s'.2 u = balance Q.shared.2 u) :
    Balanced calls ⟨s', Function.update Q.pcs i pc'⟩ u := by
  have hsize : size ⟨s', Function.update Q.pcs i pc'⟩ u = size Q u := congrArg List.length honline
  have hpcs : ∀ j, (calls j).userId = u → Function.update Q.pcs i pc' j = Q.pcs j := by
    intro j hj
    refine Function.update_of_ne ?_ ..
    rintro rfl
    exact hi hj
  refine ⟨?_, fun j hj hdel => ?_⟩
  · rw [hsize]
    show Settled _ _ (balance s'.2 u)
    rw [hbalance]
    refine h.settled.same (fun j => and_congr_right fun hj => ?_) .rfl
    rw [hsize]
    exact hpcs j hj ▸ .rfl
  · rw [hsize]
    exact h.deletes j hj (hpcs j hj ▸ hdel)

/-- The sockets in the sets are those registered, once each, and every user's reports balance. -/
structure Kept (calls : ι → Connection) (P : Pool (World × Reports) SocketPc ι) : Prop where
  exact : Exact calls (shown P)
  nodup : ∀ u, (online P.shared.1 u).Nodup
  pcs : ∀ i, P.pcs i ≠ .remove .srem
  balanced : ∀ u, Balanced calls P u

theorem kept_move (httl : 0 < cfg.presenceTtlSec) (hinj : Function.Injective calls)
    (h : Kept calls Q) (ha : Undisturbed.allows calls Q i)
    (hs : (reporting cfg).step () (calls i) Q.shared (Q.pcs i) = some (s', pc')) :
    Kept calls ⟨s', Function.update Q.pcs i pc'⟩ := by
  obtain ⟨hsocket, hlog⟩ := Machine.recorded_step.1 hs
  obtain ⟨hholds, hmem⟩ := h.exact (calls i).userId
  have hin : (calls i).socketId ∈ online Q.shared.1 (calls i).userId ↔
      registered (Q.pcs i) = true := by
    refine (hmem _).trans ⟨?_, fun hreg => ⟨i, rfl, hreg⟩⟩
    rintro ⟨j, hj, hreg⟩
    rwa [← hinj hj]
  have hdel : Q.pcs i = .remove .del → online Q.shared.1 (calls i).userId = [] := fun hpc =>
    List.eq_nil_of_length_eq_zero ((h.balanced _).deletes i rfl hpc)
  obtain ⟨hnodup, r, hr, hsized⟩ :=
    sized_of_step (w := Q.shared.1) httl hholds (h.nodup _) hin (h.pcs i) hsocket
  have hothers := (rewritten_step httl hholds hin hdel hsocket).others
  have hsame : ∀ u, u ≠ (calls i).userId → online s'.1 u = online Q.shared.1 u := fun u hu =>
    online_congr (hothers (key u) fun hk => hu (key_inj hk))
  have hbalance : ∀ u, balance s'.2 u =
      balance Q.shared.2 u + if (calls i).userId = u then weight r else 0 := by
    intro u
    rw [hlog, hr, balance_append]
  refine ⟨?_, fun u => ?_, fun j => ?_, fun u => ?_⟩
  · have hempty : DeletesEmpty.allows calls (shown Q) i := ⟨hdel, fun _ _ => trivial⟩
    exact exact_move httl hinj h.exact hempty hsocket
  · by_cases hu : u = (calls i).userId
    · rw [hu]
      exact hnodup
    · rw [show online s'.1 u = _ from hsame u hu]
      exact h.nodup u
  · by_cases hj : j = i
    · subst hj
      simpa using ne_srem_of_sized hsized
    · simpa [Function.update_of_ne hj] using h.pcs j
  · by_cases hu : u = (calls i).userId
    · subst hu
      refine (h.balanced _).act rfl rfl rfl rfl hsized ?_ fun j hj hju => ha.2 j hj hju
      simpa using hbalance (calls i).userId
    · refine (h.balanced u).other (fun he => hu he.symm) (hsame u hu) ?_
      rw [hbalance, if_neg fun he => hu he.symm, Int.add_zero]

omit [DecidableEq ι] in
theorem kept_env (httl : 0 < cfg.presenceTtlSec) (h : Kept calls Q) (e : Lapse) :
    Kept calls ⟨(reporting cfg).env e Q.shared, Q.pcs⟩ := by
  have honline : ∀ u, online (lapse cfg e Q.shared.1) u = online Q.shared.1 u := by
    intro u
    cases e with
    | tick ms => exact online_congr (lookup_lapse_tick cfg ms Q.shared.1 (key u))
    | refresh v =>
      by_cases hu : u = v
      · subst hu
        exact online_expire httl (h.exact u).1
      · have hothers := (expire_spec httl (h.exact v).1).others
        exact online_congr (hothers (key u) fun hk => hu (key_inj hk))
  have hsize : ∀ u, size ⟨(reporting cfg).env e Q.shared, Q.pcs⟩ u = size Q u := fun u =>
    congrArg List.length (honline u)
  refine ⟨exact_env httl h.exact e, fun u => ?_, h.pcs, fun u => ?_⟩
  · rw [show online ((reporting cfg).env e Q.shared).1 u = _ from honline u]
    exact h.nodup u
  · obtain ⟨hsettled, hdel⟩ := h.balanced u
    refine ⟨?_, fun i hi hpc => (hsize u).trans (hdel i hi hpc)⟩
    rw [hsize]
    exact hsettled.same (fun j => by rw [Due, Due, hsize]) .rfl

theorem kept_run {w : World} (httl : 0 < cfg.presenceTtlSec) (hinj : Function.Injective calls)
    (h0 : ∀ u, w.lookup (key u) = none)
    (h : Run (reporting cfg) Undisturbed calls ((reporting cfg).initial calls (w, [])) P) :
    Kept calls P := by
  refine h.invariant (Kept calls) ?_ ?_ fun e hI => kept_env httl hI e
  · have hempty : ∀ u, online w u = [] := fun u => online_of_none (h0 u)
    refine ⟨fun u => ⟨.inl (h0 u), fun x => ?_⟩, fun u => ?_, fun _ => by rintro ⟨⟩, fun u => ?_⟩
    · show x ∈ online w u ↔ ∃ i, calls i = ⟨u, x⟩ ∧ registered (.add .sadd) = true
      simp [hempty, registered]
    · show (online w u).Nodup
      rw [hempty]
      exact .nil
    · have hsize : size ((reporting cfg).initial calls (w, [])) u = 0 :=
        congrArg List.length (hempty u)
      have hdue : ∀ i, ¬ Due calls ((reporting cfg).initial calls (w, [])) u i := by
        rintro i ⟨-, ⟨⟩⟩
      refine ⟨⟨fun i _ hi => absurd hi (hdue i), fun i hi => absurd hi (hdue i), fun _ => ?_⟩,
        fun _ _ _ => hsize⟩
      rw [hsize]
      rfl
  · exact fun _ hI ha hs => kept_move httl hinj hI ha hs

/-- **Every transition is reported once.** The sockets of any number of users come and go; no
socket comes or goes where that matters to another call of its user that is still to count. Where
no call is in flight, a user has been reported online once oftener than offline if he has a
connected socket, and as often if he has none. -/
theorem transitions_balanced (cfg : AppConfig) (calls : ι → Connection) (w : World)
    (P : Pool (World × Reports) SocketPc ι) (httl : 0 < cfg.presenceTtlSec)
    (hinj : Function.Injective calls) (h0 : ∀ u, w.lookup (key u) = none)
    (h : Run (reporting cfg) Undisturbed calls ((reporting cfg).initial calls (w, [])) P)
    (hidle : Idle (shown P)) (u : String) :
    ((∃ x, Connected calls (shown P) u x) → balance P.shared.2 u = 1) ∧
      ((¬ ∃ x, Connected calls (shown P) u x) → balance P.shared.2 u = 0) := by
  have hkept := kept_run httl hinj h0 h
  have hmem := mem_online_of_idle hkept.exact hidle u
  have hbalance : balance P.shared.2 u = if size P u = 0 then 0 else 1 := by
    refine (hkept.balanced u).settled.even fun i hdue => ?_
    have hi : calling (P.pcs i) = false := hidle i
    have hedge := hdue.2
    unfold edge at hedge
    split at hedge <;> simp_all [calling]
  constructor
  · rintro ⟨x, hx⟩
    have hsize : size P u ≠ 0 := (List.length_pos_of_mem ((hmem x).2 hx)).ne'
    rw [hbalance, if_neg hsize]
  · intro hno
    have hsize : size P u = 0 := by
      refine congrArg List.length (List.eq_nil_iff_forall_not_mem.2 fun x hx => ?_)
      exact hno ⟨x, (hmem x).1 hx⟩
    rw [hbalance, if_pos hsize]

end Runs

/-! ### Devices that come and go together -/

/-- `Undisturbed` for a schedule of two devices. -/
def undisturbedOk (P : Pool (World × Reports) SocketPc Bool) (i : Bool) : Bool :=
  (edge (P.pcs !i)).all fun n => (resized (size P "u") (P.pcs i) == n) == (size P "u" == n)

theorem devices_userId (i : Bool) : (devices i).userId = "u" := by
  cases i <;> rfl

theorem undisturbedOk_allows {P : Pool (World × Reports) SocketPc Bool} {i : Bool}
    (h : undisturbedOk P i = true) : Undisturbed.allows devices P i := by
  refine ⟨trivial, fun j hj _ n hn => ?_⟩
  have hnot : j = !i := by cases i <;> cases j <;> simp_all
  rw [hnot] at hn
  rw [undisturbedOk, hn, Option.all_some, beq_iff_eq, Bool.eq_iff_iff, beq_iff_eq, beq_iff_eq] at h
  rw [devices_userId]
  exact h

/-- The second device comes when the first one is there, and stays when that goes. -/
theorem transitions_balanced_devices : ∃ P : Pool (World × Reports) SocketPc Bool,
    Run (reporting {}) Undisturbed devices ((reporting {}).initial devices ({}, [])) P ∧
    Connected devices (shown P) "u" "s2" ∧ balance P.shared.2 "u" = 1 := by
  have hexec : ((reporting {}).exec undisturbedOk devices
      ((reporting {}).initial devices ({}, []))
      (moves false 3 ++ moves true 3 ++ moves false 2)).any (fun P =>
        !calling (P.pcs false) && !calling (P.pcs true) && isConnected (P.pcs true)) = true := by
    decide
  obtain ⟨P, hrun, hP⟩ := Machine.exec_reaches (D := Undisturbed) undisturbedOk_allows hexec
  simp only [Bool.and_eq_true, Bool.not_eq_true'] at hP
  obtain ⟨⟨h₁, h₂⟩, hc⟩ := hP
  have hidle : Idle (shown P) := fun i => by cases i <;> assumption
  have hs2 : Connected devices (shown P) "u" "s2" := ⟨true, rfl, isConnected_iff.1 hc⟩
  exact ⟨P, hrun, hs2, (transitions_balanced {} devices {} P (by decide) devices_injective
    (fun _ => rfl) hrun hidle "u").1 ⟨"s2", hs2⟩⟩

/-- **Online and unreported.** Two devices register before either counts, and both count two. -/
theorem online_unreported : ¬ ∀ (ι : Type) [DecidableEq ι] (cfg : AppConfig)
    (calls : ι → Connection) (w : World) (P : Pool (World × Reports) SocketPc ι),
    0 < cfg.presenceTtlSec → Function.Injective calls → (∀ u, w.lookup (key u) = none) →
    Run (reporting cfg) Discipline.free calls ((reporting cfg).initial calls (w, [])) P →
    Idle (shown P) → ∀ u,
    ((∃ x, Connected calls (shown P) u x) → balance P.shared.2 u = 1) ∧
      ((¬ ∃ x, Connected calls (shown P) u x) → balance P.shared.2 u = 0) := by
  intro h
  have hexec : ((reporting {}).exec always devices ((reporting {}).initial devices ({}, []))
      (moves false 2 ++ moves true 2 ++ moves false 1 ++ moves true 1)).any (fun P =>
        !calling (P.pcs false) && !calling (P.pcs true) && isConnected (P.pcs true) &&
          balance P.shared.2 "u" == 0) = true := by
    decide
  obtain ⟨P, hrun, hP⟩ := Machine.exec_reaches_free hexec
  simp only [Bool.and_eq_true, Bool.not_eq_true', beq_iff_eq] at hP
  obtain ⟨⟨⟨h₁, h₂⟩, hc⟩, hzero⟩ := hP
  have hidle : Idle (shown P) := fun i => by cases i <;> assumption
  have hone := (h Bool {} devices {} P (by decide) devices_injective (fun _ => rfl) hrun hidle
    "u").1 ⟨"s2", true, rfl, isConnected_iff.1 hc⟩
  rw [hzero] at hone
  cases hone

end Intaktok.Presence
