import Intaktok.Http.Front
import Intaktok.Lib.Refinement
/-
# The front refines the services behind it

Whatever the guards, the pipe, the queries and the relayed typing do in between: seen from the
database, Redis and the sockets, a run of the program is one of the services, in which each request
is served as the user its token names (`front_refines`). So what is known of the runs of
`Realtime.server` holds of the program.
-/

namespace Intaktok.Http

open Interleave Realtime

variable {d : Deps}

/-- What a process is behind the front: still at its start until the method is called. -/
def behind (d : Deps) (k : FrontCall) : FrontPc → ServerPc
  | .server pc => pc
  | _ => (back d).start (k.call d)

theorem behind_ended (k : FrontCall) (r : Option Thrown) :
    behind d k (.ended r) = (back d).start (k.call d) := rfl

/-- The method is called at its start. -/
theorem behind_enter (req : Request) :
    behind d (.http req) (enter d req) = (back d).start ((FrontCall.http req).call d) := by
  unfold enter
  cases h : req.handler d with
  | serve s call => simp only [behind, FrontCall.call, h]
  | query q => rfl
  | ended r => rfl

theorem behind_passed (req : Request) :
    behind d (.http req) (passed d req) = (back d).start ((FrontCall.http req).call d) := by
  unfold passed
  split
  · exact behind_ended _ _
  · exact behind_enter req

theorem behind_proceed (req : Request) (todo : List Guard) :
    behind d (.http req) (proceed d req todo) = (back d).start ((FrontCall.http req).call d) := by
  cases todo with
  | nil => exact behind_passed req
  | cons g todo => rfl

theorem behind_guardStep {c : FrontChoice} {req : Request} {w : World} {pc pc' : FrontPc}
    (h : guardStep d c req w pc = some pc') :
    behind d (.http req) pc' = (back d).start ((FrontCall.http req).call d) := by
  unfold guardStep at h
  split at h
  · cases h
    split
    · rfl
    · split
      · rfl
      · exact behind_passed req
  · cases h
    split
    · rfl
    · split <;> rfl
  · cases h
    split
    · rfl
    · exact behind_proceed req _
  · cases h
    split
    · rfl
    · exact behind_proceed req _
  · cases h

/-- The method of the controller has been called. -/
def FrontPc.called : FrontPc → Bool
  | .server _ | .query _ => true
  | _ => false

/-- What a request that only reads has been answered. -/
def FrontPc.answer : FrontPc → Option Answer
  | .query (.done (.ok answer)) => some answer
  | _ => none

theorem FrontPc.answer_eq_some {pc : FrontPc} {answer : Answer} :
    pc.answer = some answer ↔ pc = .query (.done (.ok answer)) := by
  constructor
  · intro h
    unfold FrontPc.answer at h
    split at h <;> cases h
    rfl
  · rintro rfl
    rfl

/-- The guards and the pipe let a request pass to its method, or do not. -/
theorem enter_of_passed {req : Request} (h : (passed d req).called = true) :
    passed d req = enter d req := by
  unfold passed at h ⊢
  split
  · rename_i hpipe
    rw [hpipe] at h
    cases h
  · rfl

theorem enter_of_guardStep {c : FrontChoice} {req : Request} {w : World} {pc pc' : FrontPc}
    (h : guardStep d c req w pc = some pc') (hcalled : pc'.called = true) :
    pc' = enter d req := by
  have hproceed : ∀ {todo}, (proceed d req todo).called = true →
      proceed d req todo = enter d req := by
    intro todo h
    cases todo with
    | nil => exact enter_of_passed h
    | cons => cases h
  unfold guardStep at h
  split at h
  · have h := Option.some.inj h
    subst h
    split at hcalled
    · cases hcalled
    · split at hcalled
      · cases hcalled
      · rename_i hno hyes
        rw [if_neg hno, if_neg hyes]
        exact enter_of_passed hcalled
  · cases h
    split at hcalled
    · cases hcalled
    · split at hcalled <;> cases hcalled
  · cases h
    split at hcalled
    · cases hcalled
    · exact hproceed hcalled
  · cases h
    split at hcalled
    · cases hcalled
    · exact hproceed hcalled
  · cases h

theorem query_of_guardStep {c : FrontChoice} {req : Request} {q : Query} {w : World} {l : FrontPc}
    {pc : QueryPc} (hq : req.handler d = .query q) (h : guardStep d c req w l = some (.query pc)) :
    pc = q.start := by
  have h := enter_of_guardStep h rfl
  rw [enter, hq] at h
  cases h
  rfl

theorem hub_typingStep {id : String} {roomId : JsValue} {isTyping : Bool} {s s' : Site}
    {pc pc' : TypingPc} (h : typingStep id roomId isTyping s pc = some (s', pc')) :
    s'.hub = s.hub := by
  cases pc <;> simp only [typingStep] at h
  case recipients => cases h; split <;> rfl
  all_goals cases h <;> rfl

/-! ## What an action of the program is -/

/-- The kinds of actions of the program. -/
inductive FrontActs (d : Deps) (c : FrontChoice) (s : Site) :
    FrontCall → FrontPc → Site → FrontPc → Prop
  | served {k pc h' pc'} : (back d).step c.choice (k.call d) s.hub pc = some (h', pc') →
      FrontActs d c s k (.server pc) { s with hub := h' } (.server pc')
  | typed {id roomId isTyping pc s' pc'} : typingStep id roomId isTyping s pc = some (s', pc') →
      FrontActs d c s (.typing id roomId isTyping) (.typing pc) s' (.typing pc')
  | queried {req q pc pc'} : req.handler d = .query q →
      queryStep d.toQueryDeps c.orders q s.hub.world pc = some pc' →
      FrontActs d c s (.http req) (.query pc) s (.query pc')
  | guarded {req pc pc'} : guardStep d c req s.hub.world pc = some pc' →
      FrontActs d c s (.http req) pc s pc'

theorem acts_of_front {c : FrontChoice} {k : FrontCall} {s s' : Site} {pc pc' : FrontPc}
    (h : (front d).step c k s pc = some (s', pc')) : FrontActs d c s k pc s' pc' := by
  have hguard : ∀ {req : Request}, ((guardStep d c req s.hub.world pc).map fun pc' => (s, pc')) =
      some (s', pc') → FrontActs d c s (.http req) pc s' pc' := by
    intro req h
    obtain ⟨pc₁, hs, he⟩ := Option.map_eq_some_iff.1 h
    cases he
    exact .guarded hs
  change frontStep d c k s pc = some (s', pc') at h
  cases pc with
  | server pc =>
    obtain ⟨⟨h', pc₁⟩, hs, he⟩ := Option.map_eq_some_iff.1 h
    cases he
    exact .served hs
  | typing pc =>
    cases k <;> try cases h
    obtain ⟨⟨s₁, pc₁⟩, hs, he⟩ := Option.map_eq_some_iff.1 h
    cases he
    exact .typed hs
  | query pc =>
    cases k <;> try cases h
    rename_i req
    simp only [frontStep] at h
    split at h
    · rename_i q hq
      obtain ⟨pc₁, hs, he⟩ := Option.map_eq_some_iff.1 h
      cases he
      exact .queried hq hs
    · cases h
  | throttle | token | account | guards | ended =>
    cases k <;> first | exact hguard h | cases h

/-! ## The refinement -/

theorem fronts (d : Deps) : Fronts (front d) (back d) Site.hub (FrontCall.call d) (behind d) where
  start k := by
    cases k <;> rfl
  step {c k s pc s' pc'} h := by
    cases acts_of_front h with
    | served hs => exact .inr ⟨_, hs⟩
    | typed hs => exact .inl ⟨hub_typingStep hs, rfl⟩
    | queried => exact .inl ⟨rfl, rfl⟩
    | guarded hs =>
      refine .inl ⟨rfl, (behind_guardStep hs).trans ?_⟩
      cases pc <;> first | rfl | cases hs
  env e s := ⟨e, rfl⟩

/-- The services behind, in a state of the program. -/
abbrev Behind {ι : Type} (d : Deps) (calls : ι → FrontCall) (Q : Pool Site FrontPc ι) :
    Pool Hub ServerPc ι := Q.behind Site.hub (behind d) calls

end Intaktok.Http
