import Ratelimit.Engine.Room
import Ratelimit.Store.Observation

/-!
# What is left, and how long until there is more

A verdict reports what a bucket of that key would be told next. So `Remaining` is the largest
cost the next call can bring, and the effective window is the wait that a call at one unit
more is told.
-/
namespace Ratelimit.Engine

open Algo Store Library Memory

/-- What the contract says of the buckets that reach a store: the window is checked,
and the key carries the period. -/
def Keyed (period : Text → ℤ) (b : Bucket) : Prop :=
  ∀ a : Algorithm, b.algorithm = a.id →
    check a b.window = .ok () ∧ b.window.period = period b.key

/-- What the numbers of a verdict promise about the store after the call. -/
structure Exact (now : ℕ) (m : Entries) (b : Bucket) (v : Verdict) : Prop where
  remaining (c : ℤ) (hc : 1 ≤ c) : PeekAllows now m (withCost b c) ↔ c ≤ v.remaining
  full : effectiveWindow b v < 0 ↔ v.remaining = bucketCapacity b.window
  -- with no other traffic, one unit more is admitted from this wait on and not before
  least : v.remaining ≠ bucketCapacity b.window → ∃ wait : ℕ,
    effectiveWindow b v = microsDuration wait ∧
      ∀ u : ℕ, PeekAllows (now + u) m (withCost b (v.remaining + 1)) ↔ wait ≤ u
  le_resetAfter : effectiveWindow b v ≤ v.resetAfter
  le_retryAfter : v.allowed = false → v.costExceedsCapacity = false →
    effectiveWindow b v ≤ v.retryAfter

section Exactness

variable {now : ℕ} {m : Entries} {b : Bucket} {a : Algorithm} {v : Verdict}
variable (ha : b.algorithm = a.id) (hcheck : check a b.window = .ok ()) (hv : Reports now m b v)
include ha hcheck hv

theorem Reports.remaining_bounds (h : LastsFor m b) :
    0 ≤ v.remaining ∧ v.remaining ≤ bucketCapacity b.window := by
  rw [hv.remaining]
  exact remainCurrent_bounds ha hcheck h

theorem Reports.refuses_more (h : LastsFor m b) :
    (outcome now m (withCost b (v.remaining + 1))).allowed = false := by
  have hlow := (hv.remaining_bounds ha hcheck h).1
  rw [Bool.eq_false_iff, Ne, allowed_withCost_iff ha hcheck (by omega), ← hv.remaining]
  omega

theorem effectiveWindow_micros (h : LastsFor m b) (hroom : v.remaining < bucketCapacity b.window) :
    ∃ wait : ℕ, 1 ≤ wait ∧ effectiveWindow b v = microsDuration wait := by
  have hmore : (withCost b (v.remaining + 1)).algorithm = a.id := ha
  rw [effectiveWindow_eq_retryAfter ha hcheck hv hroom]
  exact retryAfter_micros hmore hcheck (hv.refuses_more ha hcheck h) hroom

theorem effectiveWindow_neg_iff (h : LastsFor m b) :
    effectiveWindow b v < 0 ↔ v.remaining = bucketCapacity b.window := by
  have hhigh := (hv.remaining_bounds ha hcheck h).2
  constructor
  · intro hneg
    by_contra hne
    obtain ⟨wait, -, heq⟩ := effectiveWindow_micros ha hcheck hv h (by omega)
    rw [heq, microsDuration, microsecond] at hneg
    omega
  · intro hfull
    rw [effectiveWindow, if_pos hfull.ge]
    decide

theorem effectiveWindow_least (h : LastsFor m b) (hroom : v.remaining < bucketCapacity b.window)
    (u : ℕ) : PeekAllows (now + u) m (withCost b (v.remaining + 1)) ↔
      effectiveWindow b v ≤ microsDuration u := by
  have hlow := (hv.remaining_bounds ha hcheck h).1
  have hmore : (withCost b (v.remaining + 1)).algorithm = a.id := ha
  have hcost : 1 ≤ (withCost b (v.remaining + 1)).cost := by
    change 1 ≤ v.remaining + 1
    omega
  rw [peekAllows_iff hmore hcheck hcost, effectiveWindow_eq_retryAfter ha hcheck hv hroom]
  exact allowed_later_iff hmore hcheck h (hv.refuses_more ha hcheck h) hroom u

/-- A refusal that waiting cures asks for more than is left, and waits longer. -/
theorem effectiveWindow_le_retryAfter (h : LastsFor m b) (hcost : 1 ≤ b.cost)
    (hrefused : v.allowed = false) (hcurable : v.costExceedsCapacity = false) :
    effectiveWindow b v ≤ v.retryAfter := by
  obtain rfl := hv.refusal hrefused
  have hno : (outcome now m b).allowed = false := hrefused
  have hholds : b.cost ≤ bucketCapacity b.window := by
    by_contra hlt
    have hexceeds : (outcome now m b).costExceeds = true :=
      (costExceeds_iff ha hcheck).mpr (not_le.mp hlt)
    exact Bool.false_ne_true (hcurable.symm.trans hexceeds)
  have hlarge : (outcome now m b).remainCurrent < b.cost := by
    by_contra hle
    have hself : (outcome now m b).allowed = true :=
      (allowed_withCost_iff ha hcheck hcost).mpr (not_lt.mp hle)
    exact Bool.false_ne_true (hno.symm.trans hself)
  have hroom : (currentVerdict (outcome now m b)).remaining < bucketCapacity b.window :=
    hlarge.trans_le hholds
  rw [effectiveWindow_eq_retryAfter ha hcheck hv hroom]
  exact retryAfter_mono ha hcheck hlarge hholds (hv.refuses_more ha hcheck h) hno

theorem Reports.exact (h : LastsFor m b) (hcost : 1 ≤ b.cost) : Exact now m b v := by
  have hhigh := (hv.remaining_bounds ha hcheck h).2
  refine ⟨fun c hc => ?_, effectiveWindow_neg_iff ha hcheck hv h, fun hne => ?_,
    effectiveWindow_le_resetAfter ha hcheck hv, effectiveWindow_le_retryAfter ha hcheck hv h hcost⟩
  · have hother : (withCost b c).algorithm = a.id := ha
    rw [peekAllows_iff hother hcheck hc, allowed_withCost_iff ha hcheck hc, hv.remaining]
  · have hroom : v.remaining < bucketCapacity b.window := by omega
    obtain ⟨wait, -, heq⟩ := effectiveWindow_micros ha hcheck hv h hroom
    refine ⟨wait, heq, fun u => ?_⟩
    rw [effectiveWindow_least ha hcheck hv h hroom, heq, microsDuration, microsDuration,
      microsecond]
    omega

end Exactness

section Lasts

variable {period : Text → ℤ} {m m' : Entries}

/-- Every entry lasts for the period that its key carries. -/
def Lasts (period : Text → ℤ) (m : Entries) : Prop :=
  ∀ k e, m.lookup k = some e → ∀ w : Window, w.period = period k → Lasting w e

theorem Lasts.of_dropped (h : Lasts period m)
    (hdrop : ∀ k, m'.lookup k = m.lookup k ∨ m'.lookup k = none) : Lasts period m' := by
  intro k e he
  rcases hdrop k with hk | hk
  · exact h k e (hk ▸ he)
  · rw [hk] at he
    cases he

theorem Lasts.lastsFor (h : Lasts period m) {b : Bucket} {a : Algorithm} (hb : Keyed period b)
    (ha : b.algorithm = a.id) : LastsFor m b := fun e he => h _ e he _ (hb a ha).2

theorem lasting_next {now : ℕ} {b : Bucket} {a : Algorithm} (h : LastsFor m b)
    (ha : b.algorithm = a.id) (hcost : 1 ≤ b.cost) (hallowed : (outcome now m b).allowed = true)
    {w : Window} (hw : w.period = b.window.period) : Lasting w (outcome now m b).next := by
  cases a with
  | gcra =>
    rw [outcome_of_gcra ha] at hallowed ⊢
    rw [evalGCRA_next (evalGCRA_allowed_iff.mp hallowed).1]
    exact ⟨le_rfl, fun _ => rfl, fun hid => by cases hid⟩
  | fixedWindow =>
    have hcount := h.counted_nonneg now (windowStart now (periodMicros b.window))
    rw [outcome_of_fixedWindow ha]
    refine ⟨?_, (fun hid => by cases hid), fun _ => ?_⟩
    · dsimp only [evalFixed]
      omega
    · unfold periodMicros
      rw [hw]
      rfl

end Lasts

section Calls

variable {now : ℕ} {m m' : Entries} {b : Bucket} {a : Algorithm}

theorem reports_of_held (hheld : held now m' b = held now m b) :
    Reports now m' b (currentVerdict (outcome now m b)) := by
  rw [← outcome_of_held hheld]
  exact ⟨rfl, rfl, fun _ => rfl⟩

theorem held_next (ha : b.algorithm = a.id) (hcheck : check a b.window = .ok ())
    (hcost : 1 ≤ b.cost) (hallowed : (outcome now m b).allowed = true)
    (hlookup : m'.lookup b.key = some (outcome now m b).next) :
    held now m' b = some (outcome now m b).next := by
  refine held_eq_some_iff.mpr ⟨hlookup, ?_, outcome_next_algorithm ha hallowed⟩
  cases a with
  | gcra =>
    have harrival := le_arrival (held now m b) now
    have hspent : 1 ≤ emissionMicros b.window * b.cost :=
      one_le_mul_of_one_le_of_one_le (one_le_emission hcheck) hcost
    rw [outcome_of_gcra ha] at hallowed ⊢
    rw [evalGCRA_next (evalGCRA_allowed_iff.mp hallowed).1]
    dsimp only
    omega
  | fixedWindow =>
    rw [outcome_of_fixedWindow ha]
    exact lt_windowStart_add (one_le_periodMicros hcheck)

theorem reports_of_charged (h : LastsFor m b) (ha : b.algorithm = a.id)
    (hcheck : check a b.window = .ok ()) (hcost : 1 ≤ b.cost)
    (hallowed : (outcome now m b).allowed = true)
    (hlookup : m'.lookup b.key = some (outcome now m b).next) :
    Reports now m' b (chargedVerdict (outcome now m b)) := by
  have hheld := held_next ha hcheck hcost hallowed hlookup
  have hlive := (held_eq_some_iff.mp hheld).2.1
  cases a with
  | gcra =>
    rw [outcome_of_gcra ha] at hallowed hheld hlive ⊢
    have hburst := (evalGCRA_allowed_iff.mp hallowed).1
    rw [evalGCRA_next hburst] at hheld hlive
    have harrival : arrival (held now m' b) now =
        arrival (held now m b) now + emissionMicros b.window * b.cost := by
      rw [hheld]
      exact if_pos hlive
    refine ⟨?_, ?_, fun hno => by cases hno⟩
    · rw [outcome_of_gcra ha, evalGCRA_remainCurrent, harrival]
      simp only [chargedVerdict, evalGCRA, if_neg (not_lt.mpr hburst)]
      congr 2
      ring
    · rw [outcome_of_gcra ha, evalGCRA_resetCurrent, harrival]
      simp only [chargedVerdict, evalGCRA, if_neg (not_lt.mpr hburst)]
  | fixedWindow =>
    have hcount := h.counted_nonneg now (windowStart now (periodMicros b.window))
    rw [outcome_of_fixedWindow ha] at hallowed hheld ⊢
    rw [evalFixed_allowed_iff] at hallowed
    have hcounted : counted (held now m' b) (windowStart now (periodMicros b.window)) =
        counted (held now m b) (windowStart now (periodMicros b.window)) + b.cost := by
      rw [hheld]
      exact if_pos rfl
    refine ⟨?_, ?_, fun hno => by cases hno⟩
    · rw [outcome_of_fixedWindow ha]
      dsimp only [chargedVerdict, evalFixed]
      omega
    · rw [outcome_of_fixedWindow ha]
      dsimp only [chargedVerdict, evalFixed]
      rw [hcounted, if_neg (by omega)]

theorem storeCall_reports {period : Text → ℤ} {c : Call} {vs : List Verdict}
    (hlasts : Lasts period m) (hkeyed : ∀ b ∈ c.op.buckets, Keyed period b)
    (hvs : (storeCall m c).2 = .ok vs) {x : Bucket × Verdict} (hx : x ∈ c.op.buckets.zip vs) :
    1 ≤ x.1.cost ∧ (∃ a : Algorithm, x.1.algorithm = a.id) ∧
      Reports c.now (storeCall m c).1 x.1 x.2 := by
  obtain ⟨now, op⟩ := c
  cases op with
  | decide bs =>
    obtain ⟨hguard, hreg, rfl⟩ := storeDecide_ok hvs
    rw [Op.buckets, zip_outcomes] at hx
    obtain ⟨b, hb, rfl⟩ := List.mem_map.mp hx
    have hcost := ((guardBuckets_ok_iff.mp hguard).1 b hb).1
    obtain ⟨a, ha⟩ := hreg b hb
    refine ⟨hcost, ⟨a, ha⟩, ?_⟩
    have hlookup : (storeDecide now m bs).1.lookup b.key = _ :=
      lookup_storeDecide_of_mem hguard hreg hb
    simp only [storeCall, answered]
    split_ifs at hlookup ⊢ with hcommit
    · have hallowed := (Bool.and_eq_true_iff.mp hcommit).2
      exact reports_of_charged (hlasts.lastsFor (hkeyed b hb) ha) ha (hkeyed b hb a ha).1 hcost
        hallowed hlookup
    · exact reports_of_held (held_of_lookup_held le_rfl hlookup)
  | peek bs =>
    obtain ⟨hguard, hreg, rfl⟩ := storePeek_ok hvs
    rw [Op.buckets, zip_outcomes] at hx
    obtain ⟨b, hb, rfl⟩ := List.mem_map.mp hx
    obtain ⟨hguarded, hnodup⟩ := guardBuckets_ok_iff.mp hguard
    refine ⟨(hguarded b hb).1, hreg b hb, reports_of_held (held_of_lookup_held le_rfl ?_)⟩
    simp only [storeCall, storePeek, hguard]
    exact lookup_evalAll_of_mem hnodup hreg hb
  | reset ks => simp [Op.buckets] at hx

end Calls

section Runs

variable {period : Text → ℤ} {m : Entries}

theorem Lasts.probe (h : Lasts period m) {p : Probe} (hp : ∀ b ∈ p.buckets, Keyed period b) :
    Lasts period (probe m p).1 := by
  obtain ⟨now, ask⟩ := p
  cases ask with
  | store op =>
    intro k e he
    refine entry_storeCall (c := ⟨now, op⟩) (h k) (fun bs b hb hmem hkey w hw => ?_) he
    subst hkey
    obtain ⟨a, ha⟩ := hb.registered b hb.mem
    have hkeyed : Keyed period b := hp b hmem
    have hcost := ((guardBuckets_ok_iff.mp hb.guard).1 b hb.mem).1
    exact lasting_next (h.lastsFor hkeyed ha) ha hcost hb.allowed (hw.trans (hkeyed a ha).2.symm)
  | scan pre cursor limit =>
    exact h.of_dropped fun k => lookup_storeScan_cases

theorem Lasts.runs (history : List Probe) (hkeyed : ∀ p ∈ history, ∀ b ∈ p.buckets, Keyed period b)
    (h : Lasts period m) : Lasts period (runs Memory.probe m history).1 := by
  have hstep : ∀ (s : Entries) (p : Probe), (∀ b ∈ p.buckets, Keyed period b) →
      Lasts period s → Lasts period (Memory.probe s p).1 := fun _ _ hp hs => hs.probe hp
  exact invariant_runs (fun _ => Lasts period) (fun _ _ _ _ hs => hs) hstep history 0 m
    (monotoneFrom_const 0 history) hkeyed h

end Runs

/-- After any history of calls the verdicts of the next one are exact, at whatever
readings of the clock and however the windows of a key were tuned in between. -/
theorem verdicts_exact (period : Text → ℤ) (history : List Probe)
    (hhistory : ∀ p ∈ history, ∀ b ∈ p.buckets, Keyed period b) (c : Call)
    (hc : ∀ b ∈ c.op.buckets, Keyed period b) (vs : List Verdict)
    (hvs : (storeCall (runs probe ∅ history).1 c).2 = .ok vs) :
    ∀ x ∈ c.op.buckets.zip vs,
      Exact c.now (storeCall (runs probe ∅ history).1 c).1 x.1 x.2 := by
  have hlasts : Lasts period (runs probe ∅ history).1 := by
    apply Lasts.runs history hhistory
    intro k e he
    simp at he
  have hafter : Lasts period (storeCall (runs probe ∅ history).1 c).1 := by
    have hp : ∀ b ∈ (Probe.mk c.now (.store c.op)).buckets, Keyed period b := hc
    exact hlasts.probe hp
  intro x hx
  obtain ⟨hcost, ⟨a, ha⟩, hreports⟩ := storeCall_reports hlasts hc hvs hx
  have hkeyed := hc x.1 (List.of_mem_zip hx).1
  exact hreports.exact ha (hkeyed a ha).1 (hafter.lastsFor hkeyed ha) hcost

theorem verdicts_exact_tuned :
    let rate (burst cost : ℤ) : Bucket :=
      ⟨ascii "rate", .gcraID, ⟨10, 10 * second, burst⟩, false, cost⟩
    let quota (requests cost : ℤ) : Bucket :=
      ⟨ascii "quota", .fixedWindowID, ⟨requests, 10 * second, 0⟩, true, cost⟩
    let history : List Probe := [⟨1700000000000000, .store (.decide [rate 10 8, quota 4 3])⟩]
    let c : Call := ⟨1700000001000000, .decide [rate 2 1, quota 6 2]⟩
    let vs : List Verdict := [⟨false, 0, false, 6 * second, 7 * second⟩,
      ⟨true, 3, false, -1, 9 * second⟩]
    (storeCall (runs probe ∅ history).1 c).2 = .ok vs ∧
      ∀ x ∈ c.op.buckets.zip vs,
        Exact c.now (storeCall (runs probe ∅ history).1 c).1 x.1 x.2 := by
  intro rate quota history c vs
  have hrate : ∀ burst cost, check .gcra ⟨10, 10 * second, burst⟩ = .ok () →
      Keyed (fun _ => 10 * second) (rate burst cost) := by
    intro burst cost hcheck a ha
    cases a with
    | gcra => exact ⟨hcheck, rfl⟩
    | fixedWindow => cases ha
  have hquota : ∀ requests cost, check .fixedWindow ⟨requests, 10 * second, 0⟩ = .ok () →
      Keyed (fun _ => 10 * second) (quota requests cost) := by
    intro requests cost hcheck a ha
    cases a with
    | gcra => cases ha
    | fixedWindow => exact ⟨hcheck, rfl⟩
  have hvs : (storeCall (runs probe ∅ history).1 c).2 = .ok vs := by decide +kernel
  refine ⟨hvs, verdicts_exact (fun _ => 10 * second) history ?_ c ?_ vs hvs⟩
  · simp only [history, Probe.buckets, Op.buckets, List.mem_cons, List.not_mem_nil, or_false,
      forall_eq_or_imp, forall_eq]
    exact ⟨hrate 10 8 rfl, hquota 4 3 rfl⟩
  · simp only [c, Op.buckets, List.mem_cons, List.not_mem_nil, or_false, forall_eq_or_imp,
      forall_eq]
    exact ⟨hrate 2 1 rfl, hquota 6 2 rfl⟩

end Ratelimit.Engine
