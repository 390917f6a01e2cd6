import Ratelimit.Engine.Process
import Ratelimit.Rls.Server

/-!
# What one check answers and charges

The loop over the descriptors has four exits. An answer of OK needs every descriptor that is
not exempt admitted; the error that lets a gateway fail open needs an error of the store with
nothing refused before it.
-/
namespace Ratelimit.Rls

open Library Engine Store Memory Compile Identity

section Attempts

variable {S : Type}

structure Attempt (S : Type) where
  check : Check
  before : S
  after : S
  outcome : Except Failure Decision

def Attempt.admitted (x : Attempt S) : Bool :=
  match x.outcome with
  | .ok d => d.allowed
  | .error _ => false

def Attempt.storeFailed (x : Attempt S) : Bool :=
  match x.outcome with
  | .error (.store _) => true
  | _ => false

/-- The calls that the loop makes: an error is the last one. -/
def attempts (eng : Decider S) : S → List Check → List (Attempt S)
  | _, [] => []
  | s, c :: cs =>
    let r := eng.attempt s c
    ⟨c, s, r.1, r.2⟩ ::
      match r.2 with
      | .ok _ => attempts eng r.1 cs
      | .error _ => []

def lastState (s : S) (made : List (Attempt S)) : S := (made.getLast?.map Attempt.after).getD s

variable {eng : Decider S} {s s' : S} {c : Check} {cs : List Check}

theorem attempts_of_ok {d : Decision} (h : eng.attempt s c = (s', .ok d)) :
    attempts eng s (c :: cs) = ⟨c, s, s', .ok d⟩ :: attempts eng s' cs := by
  simp [attempts, h]

theorem attempts_of_error {e : Failure} (h : eng.attempt s c = (s', .error e)) :
    attempts eng s (c :: cs) = [⟨c, s, s', .error e⟩] := by
  simp [attempts, h]

@[simp] theorem lastState_nil : lastState s [] = s := rfl

theorem lastState_cons (x : Attempt S) (made : List (Attempt S)) :
    lastState s (x :: made) = lastState x.after made := by
  cases made with
  | nil => rfl
  | cons y made =>
    unfold lastState
    rw [List.getLast?_cons_cons]
    cases hlast : (y :: made).getLast? with
    | none => cases List.getLast?_eq_none_iff.mp hlast
    | some z => rfl

theorem attempts_own : ∀ {s : S}, ∀ x ∈ attempts eng s cs,
    (x.after, x.outcome) = eng.attempt x.before x.check := by
  induction cs with
  | nil => exact fun x hx => by cases hx
  | cons c cs ih =>
    intro s x hx
    rcases h : eng.attempt s c with ⟨s', e | d⟩
    · rw [attempts_of_error h] at hx
      obtain rfl := List.mem_singleton.mp hx
      exact h.symm
    · rw [attempts_of_ok h] at hx
      rcases List.mem_cons.mp hx with rfl | hx
      · exact h.symm
      · exact ih x hx

/-- Each call is made in the state that the one before it left. -/
theorem attempts_chain : ∀ {s : S}, (∀ x ∈ (attempts eng s cs).head?, x.before = s) ∧
    (attempts eng s cs).IsChain fun x y => x.after = y.before := by
  induction cs with
  | nil =>
    intro s
    exact ⟨fun _ hx => (Option.not_mem_none _ hx).elim, .nil⟩
  | cons c cs ih =>
    intro s
    rcases h : eng.attempt s c with ⟨s', e | d⟩
    · rw [attempts_of_error h]
      refine ⟨fun x hx => ?_, .singleton _⟩
      cases hx
      rfl
    · rw [attempts_of_ok h]
      refine ⟨fun x hx => ?_, List.isChain_cons.mpr ⟨fun y hy => (ih.1 y hy).symm, ih.2⟩⟩
      cases hx
      rfl

/-- The last call met an error of the store, and every earlier one was admitted. -/
def FailedFirst (made : List (Attempt S)) : Prop :=
  ∃ earlier x, made = earlier ++ [x] ∧ x.storeFailed = true ∧ ∀ y ∈ earlier, y.admitted = true

theorem failedFirst_singleton {x : Attempt S} : FailedFirst [x] ↔ x.storeFailed = true := by
  constructor
  · rintro ⟨earlier, y, hsplit, hfailed, -⟩
    obtain ⟨rfl, rfl⟩ := List.append_eq_singleton_iff.mp hsplit.symm |>.resolve_right (by simp)
      |>.imp_right List.singleton_inj.mp
    exact hfailed
  · exact fun h => ⟨[], x, rfl, h, fun y hy => by cases hy⟩

theorem failedFirst_cons {x : Attempt S} {made : List (Attempt S)} (h : x.storeFailed = false) :
    FailedFirst (x :: made) ↔ x.admitted = true ∧ FailedFirst made := by
  constructor
  · rintro ⟨earlier, y, hsplit, hfailed, hadmitted⟩
    cases earlier with
    | nil =>
      obtain ⟨rfl, -⟩ := List.cons.inj hsplit
      cases h.symm.trans hfailed
    | cons z earlier =>
      obtain ⟨rfl, hrest⟩ := List.cons.inj hsplit
      exact ⟨hadmitted x List.mem_cons_self, earlier, y, hrest, hfailed,
        fun w hw => hadmitted w (List.mem_cons_of_mem _ hw)⟩
  · rintro ⟨hx, earlier, y, rfl, hfailed, hadmitted⟩
    exact ⟨x :: earlier, y, rfl, hfailed, List.forall_mem_cons.mpr ⟨hx, hadmitted⟩⟩

end Attempts

section Loop

variable {S : Type} {srv : Server} {eng : Decider S} {cs : List Check}

theorem decideAll_state : ∀ {s : S} {decisions : List Decision} {allowed : Bool},
    (srv.decideAll eng s cs decisions allowed).1 = lastState s (attempts eng s cs) := by
  induction cs with
  | nil => exact fun {_ _ _} => rfl
  | cons c cs ih =>
    intro s decisions allowed
    rcases h : eng.attempt s c with ⟨s', (n | e) | d⟩ <;> rw [Server.decideAll, h]
    · rw [attempts_of_error h]
      rfl
    · rw [attempts_of_error h]
      dsimp only
      split_ifs <;> rfl
    · rw [attempts_of_ok h, lastState_cons]
      exact ih

/-- The answer is OK exactly where nothing was refused before and every descriptor
is admitted now. -/
theorem decideAll_ok_iff : ∀ {s : S} {decisions : List Decision} {allowed : Bool},
    (∃ hs, (srv.decideAll eng s cs decisions allowed).2 = .ok ⟨.ok, hs⟩) ↔
      allowed = true ∧ (attempts eng s cs).map Attempt.check = cs ∧
        ∀ x ∈ attempts eng s cs, x.admitted = true := by
  induction cs with
  | nil =>
    intro s decisions allowed
    cases allowed <;> simp [Server.decideAll, attempts]
  | cons c cs ih =>
    intro s decisions allowed
    rcases h : eng.attempt s c with ⟨s', (n | e) | d⟩ <;> rw [Server.decideAll, h]
    · rw [attempts_of_error h]
      simp [Attempt.admitted]
    · rw [attempts_of_error h]
      cases allowed <;> simp [Attempt.admitted]
    · rw [attempts_of_ok h, List.forall_mem_cons, List.map_cons, List.cons_inj_right]
      refine ih.trans ?_
      rw [Bool.and_eq_true]
      exact ⟨fun ⟨⟨ha, hd⟩, hc, hr⟩ => ⟨ha, hc, hd, hr⟩, fun ⟨ha, hc, hd, hr⟩ => ⟨⟨ha, hd⟩, hc, hr⟩⟩

theorem decideAll_error_iff : ∀ {s : S} {decisions : List Decision} {allowed : Bool},
    (∃ e, (srv.decideAll eng s cs decisions allowed).2 = .error e) ↔
      allowed = true ∧ FailedFirst (attempts eng s cs) := by
  induction cs with
  | nil =>
    intro s decisions allowed
    simp [Server.decideAll, attempts, FailedFirst]
  | cons c cs ih =>
    intro s decisions allowed
    rcases h : eng.attempt s c with ⟨s', (n | e) | d⟩ <;> rw [Server.decideAll, h]
    · rw [attempts_of_error h, failedFirst_singleton]
      simp [Attempt.storeFailed]
    · rw [attempts_of_error h, failedFirst_singleton]
      cases allowed <;> simp [Attempt.storeFailed]
    · rw [attempts_of_ok h, failedFirst_cons rfl]
      refine ih.trans ?_
      rw [Bool.and_eq_true, and_assoc]
      rfl

end Loop

section Checks

variable {S : Type}

def Server.exempts (srv : Server) (domain : Text) (c : Check) : Bool :=
  decide (domain ∈ srv.exemptDomains) && underPrefix c.request.path srv.exemptPrefix

def Server.toDecide (srv : Server) (req : RateLimitRequest) : List Check :=
  (engineRequests req).filter fun c => !srv.exempts req.domain c

/-- The request breaks a bound of the protocol. -/
def RateLimitRequest.violates (req : RateLimitRequest) : Bool :=
  decide (maxDescriptorsPerCheck < (engineRequests req).length) || (costViolation req).isSome

def Server.attempted (srv : Server) (eng : Decider S) (s : S) (req : RateLimitRequest) :
    List (Attempt S) :=
  if req.violates then [] else attempts eng s (srv.toDecide req)

theorem withoutExempt_eq (srv : Server) (req : RateLimitRequest) :
    srv.withoutExempt req.domain (engineRequests req) = srv.toDecide req := by
  unfold Server.withoutExempt Server.toDecide Server.exempts
  by_cases h : req.domain ∈ srv.exemptDomains
  · rw [if_neg (not_not.mpr h)]
    simp [h]
  · rw [if_pos h]
    simp [h]

theorem int64Of_eq_zero {n : UInt64} (h : int64Of n = 0) : n = 0 := by
  have hdvd : (2 ^ 64 : ℕ) ∣ n.toNat := by
    have hdvd := Int.dvd_of_bmod_eq_zero h
    exact_mod_cast hdvd
  exact UInt64.toNat_inj.mp (Nat.eq_zero_of_dvd_of_lt hdvd n.toNat_lt)

theorem engineRequest_free (cost : ℤ) (d : Descriptor) :
    (engineRequest cost d).free = decide (d.hitsAddend = some 0) := by
  unfold engineRequest
  cases d.hitsAddend with
  | none => rfl
  | some addend =>
    have hzero : int64Of addend = 0 ↔ addend = 0 := ⟨int64Of_eq_zero, by rintro rfl; decide⟩
    simp [hzero]

/-- What a check answers and how it asks the engine. -/
structure Answered (srv : Server) (eng : Decider S) (s : S) (req : RateLimitRequest)
    (r : S × Reply) : Prop where
  ok : (∃ hs, r.2 = .ok ⟨.ok, hs⟩) ↔ req.violates = false ∧
    (srv.attempted eng s req).map Attempt.check = srv.toDecide req ∧
    ∀ x ∈ srv.attempted eng s req, x.admitted = true
  error : (∃ e, r.2 = .error e) ↔ FailedFirst (srv.attempted eng s req)
  overLimit : (∃ hs, r.2 = .ok ⟨.overLimit, hs⟩) ↔
    ¬ (req.violates = false ∧ (srv.attempted eng s req).map Attempt.check = srv.toDecide req ∧
      ∀ x ∈ srv.attempted eng s req, x.admitted = true) ∧
    ¬ FailedFirst (srv.attempted eng s req)
  free : ∀ (i : ℕ) (d : Descriptor), req.descriptors[i]? = some d →
    (engineRequests req)[i]?.map Check.free = some (decide (d.hitsAddend = some 0))
  own : ∀ x ∈ srv.attempted eng s req, (x.after, x.outcome) =
    if x.check.free then eng.peek x.before x.check.request else eng.decide x.before x.check.request
  chain : (∀ x ∈ (srv.attempted eng s req).head?, x.before = s) ∧
    (srv.attempted eng s req).IsChain fun x y => x.after = y.before
  state : r.1 = lastState s (srv.attempted eng s req)

theorem not_failedFirst_nil : ¬ FailedFirst ([] : List (Attempt S)) := by
  rintro ⟨earlier, x, hsplit, -⟩
  cases earlier <;> cases hsplit

theorem overLimit_iff {r : Reply} :
    (∃ hs, r = .ok ⟨.overLimit, hs⟩) ↔ ¬ (∃ hs, r = .ok ⟨.ok, hs⟩) ∧ ¬ ∃ e, r = .error e := by
  rcases r with e | ⟨_ | _, hs⟩ <;> simp

theorem engineRequests_free {req : RateLimitRequest} {i : ℕ} {d : Descriptor}
    (h : req.descriptors[i]? = some d) :
    (engineRequests req)[i]?.map Check.free = some (decide (d.hitsAddend = some 0)) := by
  have hsome : req.descriptors ≠ [] := by
    rintro hnil
    rw [hnil] at h
    cases h
  unfold engineRequests
  dsimp only
  rw [if_neg hsome, List.getElem?_map, h]
  exact congrArg some (engineRequest_free _ d)

section Bound

variable {srv : Server} {engines : Text → Option (Decider S)} {eng : Decider S}
  {req : RateLimitRequest} {s : S}

theorem shouldRateLimit_of_violates (h : engines req.domain = some eng) (hviolates : req.violates = true) :
    srv.shouldRateLimit engines s req = (s, .ok ⟨.overLimit, []⟩) := by
  unfold Server.shouldRateLimit
  rw [h]
  dsimp only
  rcases (Bool.or_eq_true _ _).mp hviolates with hmany | hcost
  · rw [if_pos (of_decide_eq_true hmany)]
  · obtain ⟨violation, hviolation⟩ := Option.isSome_iff_exists.mp hcost
    rw [hviolation]
    split_ifs <;> rfl

theorem shouldRateLimit_of_sound (h : engines req.domain = some eng) (hsound : req.violates = false) :
    srv.shouldRateLimit engines s req = srv.decideAll eng s (srv.toDecide req) [] true := by
  obtain ⟨hmany, hcost⟩ := Bool.or_eq_false_iff.mp hsound
  unfold Server.shouldRateLimit
  rw [h]
  dsimp only
  rw [if_neg (of_decide_eq_false hmany), Option.not_isSome_iff_eq_none.mp (Bool.eq_false_iff.mp hcost),
    withoutExempt_eq]
  dsimp only
  split_ifs with hnone
  · rw [hnone]
    rfl
  · rfl

end Bound

theorem answered_of_bound (srv : Server) {engines : Text → Option (Decider S)} {eng : Decider S}
    {req : RateLimitRequest} (h : engines req.domain = some eng) (s : S) :
    Answered srv eng s req (srv.shouldRateLimit engines s req) := by
  have hcases : ((∃ hs, (srv.shouldRateLimit engines s req).2 = .ok ⟨.ok, hs⟩) ↔
        req.violates = false ∧
        (srv.attempted eng s req).map Attempt.check = srv.toDecide req ∧
        ∀ x ∈ srv.attempted eng s req, x.admitted = true) ∧
      ((∃ e, (srv.shouldRateLimit engines s req).2 = .error e) ↔
        FailedFirst (srv.attempted eng s req)) ∧
      (srv.shouldRateLimit engines s req).1 = lastState s (srv.attempted eng s req) := by
    by_cases hviolates : req.violates = true
    · have hrefused : srv.shouldRateLimit engines s req = (s, .ok ⟨.overLimit, []⟩) :=
        shouldRateLimit_of_violates h hviolates
      rw [hrefused, Server.attempted, if_pos hviolates]
      simp [hviolates, not_failedFirst_nil]
    · have hsound : req.violates = false := Bool.eq_false_iff.mpr hviolates
      rw [shouldRateLimit_of_sound h hsound, Server.attempted, if_neg hviolates, decideAll_ok_iff,
        decideAll_error_iff, decideAll_state]
      simp [hsound]
  obtain ⟨hok, herror, hstate⟩ := hcases
  refine ⟨hok, herror, ?_, fun i d hd => engineRequests_free hd, ?_, ?_, hstate⟩
  · rw [overLimit_iff, hok, herror]
  · intro x hx
    unfold Server.attempted at hx
    split_ifs at hx with hviolates
    · cases hx
    · exact attempts_own x hx
  · unfold Server.attempted
    split_ifs with hviolates
    · exact ⟨fun _ hx => (Option.not_mem_none _ hx).elim, .nil⟩
    · exact attempts_chain

end Checks

section Counters

/-- The moment of one engine call: what else happens to the store before it, the
reading of the clock, and whether the store answers at all. -/
structure Moment where
  traffic : List Event
  now : ℕ
  failure : Option Message

def Moment.call (μ : Moment) (judge : ℕ → Entries → List Bucket → Entries × Store.Answer)
    (m : Entries) (bs : List Bucket) : Entries × Store.Answer :=
  match μ.failure with
  | some e => (m, .error e)
  | none => judge μ.now m bs

def Moment.store (μ : Moment) (m : Entries) : Entries := (runs perform m μ.traffic).1

/-- An engine on the in-memory store. The state counts the calls made. -/
def memoryEngine (codec : Codec) (snap : Snapshot) (moments : ℕ → Moment) :
    Decider (Entries × ℕ) where
  decide s req :=
    let μ := moments s.2
    let r := evaluate codec snap (μ.call storeDecide) (μ.store s.1) req
    ((r.1, s.2 + 1), r.2)
  peek s req :=
    let μ := moments s.2
    let r := evaluate codec snap (μ.call storePeek) (μ.store s.1) req
    ((r.1, s.2 + 1), r.2)

/-- The clock right after the call before the given one. -/
def clockBefore (t : ℕ) (moments : ℕ → Moment) : ℕ → ℕ
  | 0 => t
  | i + 1 => (moments i).now

/-- The clock never reads less than before, from `t` on. -/
def ClockRuns (t : ℕ) (moments : ℕ → Moment) : Prop :=
  ∀ i, MonotoneFrom Event.now (clockBefore t moments i) (moments i).traffic ∧
    lastClock Event.now (clockBefore t moments i) (moments i).traffic ≤ (moments i).now

/-- A call without a charge changes no counter, any other decided one charges what
its own decision charges. -/
structure Charges (codec : Codec) (snap : Snapshot) (moments : ℕ → Moment)
    (x : Attempt (Entries × ℕ)) : Prop where
  free : x.check.free = true → ∀ k, live (moments x.before.2).now x.after.1 k =
    live (moments x.before.2).now ((moments x.before.2).store x.before.1) k
  own : x.check.free = false → ∀ d, x.outcome = .ok d → (x.after.1, x.outcome) =
    decideRequest codec snap (moments x.before.2).now ((moments x.before.2).store x.before.1)
      x.check.request

variable {codec : Codec} {snap : Snapshot} {moments : ℕ → Moment} {t : ℕ} {m : Entries}

theorem reachable_runs {es : List Event} : ∀ {t : ℕ} {m : Entries}, Reachable t m →
    MonotoneFrom Event.now t es → Reachable (lastClock Event.now t es) (runs perform m es).1 := by
  induction es with
  | nil => exact fun h _ => h
  | cons e es ih => exact fun h hclock => ih (reachable_perform (h.wait hclock.1)) hclock.2

theorem Moment.reachable {μ : Moment} (h : Reachable t m)
    (hclock : MonotoneFrom Event.now t μ.traffic ∧ lastClock Event.now t μ.traffic ≤ μ.now) :
    Reachable μ.now (μ.store m) := (reachable_runs h hclock.1).wait hclock.2

theorem call_eq {μ : Moment} (h : μ.failure = none)
    (judge : ℕ → Entries → List Bucket → Entries × Store.Answer) : μ.call judge = judge μ.now := by
  funext m bs
  rw [Moment.call, h]

theorem evaluate_call_ok {μ : Moment} {judge : ℕ → Entries → List Bucket → Entries × Store.Answer}
    {req : Request} {d : Decision} (h : (evaluate codec snap (μ.call judge) m req).2 = .ok d) :
    evaluate codec snap (μ.call judge) m req = evaluate codec snap (judge μ.now) m req := by
  cases hfailure : μ.failure with
  | none => rw [call_eq hfailure]
  | some e =>
    by_cases hnil : requestBuckets codec snap req = []
    · obtain ⟨targeted, skips, names, heq⟩ := @evaluate_of_nil Entries _ _ _ hnil
      rw [heq, heq]
    · have hcall : μ.call judge m (requestBuckets codec snap req) = (m, .error e) := by
        rw [Moment.call, hfailure]
      rw [evaluate_of_ne_nil hnil, hcall] at h
      split_ifs at h

theorem evaluate_call_failed {μ : Moment} {e : Message}
    {judge : ℕ → Entries → List Bucket → Entries × Store.Answer} (h : μ.failure = some e)
    (req : Request) : (evaluate codec snap (μ.call judge) m req).1 = m := by
  rcases evaluate_fst codec snap (μ.call judge) m req with hstate | hstate
  · exact hstate
  · rw [hstate, Moment.call, h]

variable {namespaceName domain : Text} {p : Option Model.Policy}

theorem reachable_attempt (t : ℕ) {i : ℕ} {c : Check} {s' : Entries × ℕ} {outcome : Except Failure Decision}
    (h : Reachable (moments i).now ((moments i).store m))
    (hc : (memoryEngine codec (compile namespaceName domain p).1 moments).attempt (m, i) c =
      (s', outcome)) : Reachable (clockBefore t moments s'.2) s'.1 ∧ s'.2 = i + 1 := by
  suffices hmoment : Reachable (moments i).now s'.1 ∧ s'.2 = i + 1 by
    rw [hmoment.2]
    exact ⟨hmoment.1, rfl⟩
  unfold Decider.attempt memoryEngine at hc
  dsimp only at hc
  cases hfailure : (moments i).failure with
  | some e =>
    split_ifs at hc <;> obtain ⟨rfl, -⟩ := Prod.mk.inj hc
    · exact ⟨(evaluate_call_failed hfailure _).symm ▸ h, rfl⟩
    · exact ⟨(evaluate_call_failed hfailure _).symm ▸ h, rfl⟩
  | none =>
    rw [call_eq hfailure, call_eq hfailure] at hc
    split_ifs at hc <;> obtain ⟨rfl, -⟩ := Prod.mk.inj hc
    · exact ⟨h.peek codec namespaceName domain p c.request, rfl⟩
    · exact ⟨h.decide codec namespaceName domain p c.request, rfl⟩

theorem attempt_decided {i : ℕ} {c : Check} {s' : Entries × ℕ} {d : Decision}
    (hc : (memoryEngine codec snap moments).attempt (m, i) c = (s', .ok d)) :
    (s'.1, .ok d) =
      if c.free then peekRequest codec snap (moments i).now ((moments i).store m) c.request
      else decideRequest codec snap (moments i).now ((moments i).store m) c.request := by
  unfold Decider.attempt memoryEngine at hc
  dsimp only at hc
  split_ifs at hc ⊢ <;> obtain ⟨rfl, hd⟩ := Prod.mk.inj hc
  · rw [← hd, evaluate_call_ok hd]
    rfl
  · rw [← hd, evaluate_call_ok hd]
    rfl

theorem charges_attempt {i : ℕ} {c : Check} {s' : Entries × ℕ} {outcome : Except Failure Decision}
    (h : Reachable (moments i).now ((moments i).store m))
    (hc : (memoryEngine codec (compile namespaceName domain p).1 moments).attempt (m, i) c =
      (s', outcome)) :
    Charges codec (compile namespaceName domain p).1 moments ⟨c, (m, i), s', outcome⟩ := by
  obtain ⟨scope, hsnap⟩ := compile_sound namespaceName domain p
  constructor <;> intro hfree
  · intro k
    unfold Decider.attempt memoryEngine at hc
    dsimp only at hc
    rw [if_pos hfree] at hc
    obtain ⟨rfl, -⟩ := Prod.mk.inj hc
    cases hfailure : (moments i).failure with
    | some e => rw [evaluate_call_failed hfailure]
    | none =>
      rw [call_eq hfailure]
      exact agreeOn_peek hsnap h k (Set.mem_univ k)
  · rintro d rfl
    have hfree' : c.free = false := hfree
    have hown := attempt_decided hc
    rwa [hfree', if_neg Bool.false_ne_true] at hown

/-- Every engine call of a check finds a reachable store and leaves one. -/
theorem reachable_attempts (hclock : ClockRuns t moments) {cs : List Check} :
    ∀ {i : ℕ} {m : Entries}, Reachable (clockBefore t moments i) m →
    ∀ x ∈ attempts (memoryEngine codec (compile namespaceName domain p).1 moments) (m, i) cs,
      Reachable (moments x.before.2).now ((moments x.before.2).store x.before.1) ∧
        Reachable (moments x.before.2).now x.after.1 := by
  induction cs with
  | nil => exact fun _ x hx => by cases hx
  | cons c cs ih =>
    intro i m h x hx
    have hfound := Moment.reachable h (hclock i)
    rcases hc : (memoryEngine codec (compile namespaceName domain p).1 moments).attempt (m, i) c with
      ⟨⟨m', j⟩, e | d⟩ <;> obtain ⟨hleft, rfl⟩ := reachable_attempt t hfound hc
    · rw [attempts_of_error hc] at hx
      obtain rfl := List.mem_singleton.mp hx
      exact ⟨hfound, hleft⟩
    · rw [attempts_of_ok hc] at hx
      rcases List.mem_cons.mp hx with rfl | hx
      · exact ⟨hfound, hleft⟩
      · exact ih hleft x hx

theorem reachable_attempted {srv : Server} {req : RateLimitRequest} (hreach : Reachable t m)
    (hclock : ClockRuns t moments) {x : Attempt (Entries × ℕ)}
    (hx : x ∈ srv.attempted (memoryEngine codec (compile namespaceName domain p).1 moments) (m, 0)
      req) :
    Reachable (moments x.before.2).now ((moments x.before.2).store x.before.1) ∧
      Reachable (moments x.before.2).now x.after.1 ∧
      (memoryEngine codec (compile namespaceName domain p).1 moments).attempt x.before x.check =
        (x.after, x.outcome) := by
  unfold Server.attempted at hx
  split_ifs at hx with hviolates
  · cases hx
  · have hstart : Reachable (clockBefore t moments 0) m := hreach
    obtain ⟨hfound, hleft⟩ := reachable_attempts hclock hstart x hx
    exact ⟨hfound, hleft, (attempts_own x hx).symm⟩

/-- A refusal is never turned into an allow: a check answers OK exactly where it breaks no bound and
every descriptor that is not exempt was admitted, and an error exactly where the store failed with
everything before it admitted. A descriptor with an explicit zero changes no counter. -/
theorem refusal_never_allowed (srv : Server) (req : RateLimitRequest) :
    (∀ (S : Type) (engines : Text → Option (Decider S)) (eng : Decider S) (s : S),
      engines req.domain = some eng → Answered srv eng s req (srv.shouldRateLimit engines s req)) ∧
    ∀ (codec : Codec) (namespaceName : Text) (p : Option Model.Policy) (moments : ℕ → Moment) (t : ℕ)
      (m : Entries), Reachable t m → ClockRuns t moments →
      ∀ x ∈ srv.attempted (memoryEngine codec (compile namespaceName req.domain p).1 moments) (m, 0) req,
        Charges codec (compile namespaceName req.domain p).1 moments x := by
  refine ⟨fun S engines eng s h => answered_of_bound srv h s, ?_⟩
  intro codec namespaceName p moments t m hreach hclock x hx
  obtain ⟨hfound, -, hown⟩ := reachable_attempted hreach hclock hx
  exact charges_attempt hfound hown

def edgeDescriptor (cost : UInt64) : Descriptor :=
  ⟨[⟨descriptorKeyPath, ascii "/x"⟩, ⟨descriptorKeyMethod, ascii "GET"⟩], some cost, false⟩

def edgeCheck (costs : List UInt64) : RateLimitRequest := ⟨ascii "shop", costs.map edgeDescriptor, 0⟩

/-- The engine of the shop at one moment, with no other traffic. -/
def edgeEngine : Decider (Entries × ℕ) :=
  memoryEngine .inert (compileShop shopPolicy).1
    fun _ => ⟨[], 0, none⟩

theorem clockRuns_edge : ClockRuns 0 fun _ => ⟨[], 0, none⟩ := by
  rintro (_ | i) <;> exact ⟨trivial, le_rfl⟩

theorem refusal_never_allowed_edge :
    let srv : Server := ⟨true, [], []⟩
    let made := srv.attempted edgeEngine (∅, 0) (edgeCheck [60, 0, 60])
    made.map (fun x => (x.check.free, x.admitted)) = [(false, true), (true, true), (false, false)] ∧
      Answered srv edgeEngine (∅, 0) (edgeCheck [60, 0, 60])
        (srv.shouldRateLimit (fun _ => some edgeEngine) (∅, 0) (edgeCheck [60, 0, 60])) ∧
      ∀ x ∈ made, Charges .inert (compileShop shopPolicy).1 (fun _ => ⟨[], 0, none⟩) x := by
  intro srv made
  obtain ⟨hanswered, hcharges⟩ := refusal_never_allowed srv (edgeCheck [60, 0, 60])
  exact ⟨by decide +kernel, hanswered _ _ edgeEngine _ rfl,
    hcharges _ _ _ _ _ _ (.empty 0) clockRuns_edge⟩

end Counters

end Ratelimit.Rls
