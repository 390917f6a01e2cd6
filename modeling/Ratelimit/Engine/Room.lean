import Ratelimit.Engine.Decision
import Ratelimit.Store.Later

/-!
# What is left in a bucket

Both algorithms admit a cost exactly when it is within what they report to be left,
also when a lowered burst leaves a GCRA bucket deeper than it may get now. One unit
more is refused, and the effective window is the wait of that refusal.
-/
namespace Ratelimit.Engine

open Algo Store Library Memory

def withCost (b : Bucket) (cost : ℤ) : Bucket := { b with cost }

def PeekAllows (now : ℕ) (m : Entries) (b : Bucket) : Prop :=
  ∃ v, (storePeek now m [b]).2 = .ok [v] ∧ v.allowed = true

section Room

variable {e : Option Entry} {now : ℤ} {w : Window} {cost other : ℤ}

theorem evalGCRA_remainCurrent : (evalGCRA e now w cost).remainCurrent =
    nonNegative ((tauMicros w - (arrival e now - now)).tdiv (emissionMicros w)) := by
  unfold evalGCRA
  dsimp only
  split_ifs <;> rfl

theorem evalGCRA_resetCurrent :
    (evalGCRA e now w cost).resetCurrent = microsDuration (arrival e now - now) := by
  unfold evalGCRA
  dsimp only
  split_ifs <;> rfl

theorem le_nonNegative_tdiv_iff {x d c : ℤ} (hd : 1 ≤ d) (hc : 1 ≤ c) :
    c ≤ nonNegative (x.tdiv d) ↔ d * c ≤ x := by
  have hmul : d ≤ d * c := le_mul_of_one_le_right (by omega) hc
  rw [nonNegative_tdiv (by omega), mul_comm, ← Int.le_ediv_iff_mul_le (by omega)]
  split_ifs <;> omega

theorem nonNegative_nonneg (x : ℤ) : 0 ≤ nonNegative x := by
  unfold nonNegative
  split_ifs <;> omega

theorem gcra_retryAfter (hburst : cost ≤ w.burst)
    (hrefused : tauMicros w < arrival e now - now + emissionMicros w * cost) :
    (evalGCRA e now w cost).retryAfter =
      microsDuration (arrival e now - now + emissionMicros w * cost - tauMicros w) := by
  have hdiff : ¬0 ≤ now - (arrival e now + emissionMicros w * cost - tauMicros w) := by omega
  simp only [evalGCRA, if_neg (not_lt.mpr hburst), if_neg hdiff]
  congr 1
  ring

section Gcra

variable (hcheck : check .gcra w = .ok ())
include hcheck

theorem one_le_emission : 1 ≤ emissionMicros w :=
  one_le_emissionMicros (one_le_requests hcheck) (one_le_periodMicros hcheck)

/-- The depth leaves room for a cost exactly when the bucket admits it. -/
theorem gcra_fits_iff (hcost : 1 ≤ cost) :
    cost ≤ (evalGCRA e now w other).remainCurrent ↔
      arrival e now - now + emissionMicros w * cost ≤ tauMicros w := by
  rw [evalGCRA_remainCurrent, le_nonNegative_tdiv_iff (one_le_emission hcheck) hcost]
  omega

theorem gcra_remainCurrent_le : (evalGCRA e now w other).remainCurrent ≤ w.burst := by
  by_contra hlt
  have hburst := (gcra_bounds hcheck).1
  have hfits := (gcra_fits_iff hcheck (by omega : 1 ≤ w.burst + 1)).mp
    (by omega : w.burst + 1 ≤ (evalGCRA e now w other).remainCurrent)
  have hemission := one_le_emission hcheck
  have harrival := le_arrival e now
  unfold tauMicros at hfits
  rw [mul_add, mul_one] at hfits
  omega

theorem gcra_allowed_iff (hcost : 1 ≤ cost) :
    (evalGCRA e now w cost).allowed = true ↔ cost ≤ (evalGCRA e now w other).remainCurrent := by
  rw [evalGCRA_allowed_iff]
  constructor
  · rintro ⟨-, hfits⟩
    exact (gcra_fits_iff hcheck hcost).mpr (by omega)
  · intro hle
    have hfits := (gcra_fits_iff hcheck hcost).mp hle
    exact ⟨hle.trans (gcra_remainCurrent_le hcheck), by omega⟩

end Gcra

end Room

section Bucket

variable {now : ℕ} {m : Entries} {b : Bucket} {a : Algorithm}

theorem bucketCapacity_gcra {w : Window} (hcheck : check .gcra w = .ok ()) :
    bucketCapacity w = w.burst := by
  have hburst := (gcra_bounds hcheck).1
  exact if_pos (by omega)

theorem bucketCapacity_fixedWindow {w : Window} (hcheck : check .fixedWindow w = .ok ()) :
    bucketCapacity w = w.requests := by
  unfold check at hcheck
  split_ifs at hcheck with hburst
  have hzero : w.burst = 0 := by
    by_contra hne
    exact hburst ⟨rfl, hne⟩
  exact if_neg (by omega)

theorem outcome_withCost_gcra (ha : b.algorithm = .gcraID) (c : ℤ) :
    outcome now m (withCost b c) = evalGCRA (held now m b) now b.window c := outcome_of_gcra ha

theorem outcome_withCost_fixedWindow (ha : b.algorithm = .fixedWindowID) (c : ℤ) :
    outcome now m (withCost b c) = evalFixed (held now m b) now b.window c :=
  outcome_of_fixedWindow ha

variable (ha : b.algorithm = a.id) (hcheck : check a b.window = .ok ())
include ha hcheck

theorem allowed_withCost_iff {c : ℤ} (hc : 1 ≤ c) :
    (outcome now m (withCost b c)).allowed = true ↔ c ≤ (outcome now m b).remainCurrent := by
  cases a with
  | gcra =>
    rw [outcome_of_gcra ha, outcome_withCost_gcra ha]
    exact gcra_allowed_iff hcheck hc
  | fixedWindow =>
    rw [outcome_of_fixedWindow ha, outcome_withCost_fixedWindow ha]
    exact evalFixed_allowed_iff

theorem remainCurrent_bounds (h : LastsFor m b) :
    0 ≤ (outcome now m b).remainCurrent ∧
      (outcome now m b).remainCurrent ≤ bucketCapacity b.window := by
  cases a with
  | gcra =>
    rw [outcome_of_gcra ha, bucketCapacity_gcra hcheck]
    refine ⟨?_, gcra_remainCurrent_le hcheck⟩
    rw [evalGCRA_remainCurrent]
    exact nonNegative_nonneg _
  | fixedWindow =>
    have hcount := h.counted_nonneg now (windowStart now (periodMicros b.window))
    have hrequests := one_le_requests hcheck
    rw [outcome_of_fixedWindow ha, bucketCapacity_fixedWindow hcheck]
    dsimp only [evalFixed]
    omega

theorem costExceeds_iff :
    (outcome now m b).costExceeds = true ↔ bucketCapacity b.window < b.cost := by
  cases a with
  | gcra =>
    rw [outcome_of_gcra ha, bucketCapacity_gcra hcheck]
    by_cases hburst : b.window.burst < b.cost <;> simp [evalGCRA, hburst]
  | fixedWindow =>
    rw [outcome_of_fixedWindow ha, bucketCapacity_fixedWindow hcheck]
    simp [evalFixed]

theorem peekAllows_iff (hcost : 1 ≤ b.cost) :
    PeekAllows now m b ↔ (outcome now m b).allowed = true := by
  have hperiod := (period_bounds hcheck).1
  have hguard : guardBuckets [b] = .ok () := by
    refine guardBuckets_ok_iff.mpr ⟨?_, by simp⟩
    intro c hc
    rw [List.mem_singleton.mp hc]
    refine ⟨hcost, one_le_requests hcheck, ?_⟩
    unfold second at hperiod
    unfold microsecond
    omega
  have hreg : Registered [b] := by
    intro c hc
    rw [List.mem_singleton.mp hc]
    exact ⟨a, ha⟩
  unfold PeekAllows
  rw [storePeek_snd hguard hreg]
  simp [currentVerdict]

end Bucket

section Wait

variable {now : ℕ} {m : Entries} {b : Bucket} {a : Algorithm}

theorem begun_of_refused (ha : b.algorithm = .fixedWindowID)
    (hcheck : check .fixedWindow b.window = .ok ()) (hrefused : (outcome now m b).allowed = false)
    (hcurable : b.cost ≤ bucketCapacity b.window) : Begun now m b := by
  rw [bucketCapacity_fixedWindow hcheck] at hcurable
  rw [outcome_of_fixedWindow ha, Bool.eq_false_iff, Ne, evalFixed_allowed_iff] at hrefused
  intro e hlookup halg
  by_contra hlater
  have hstart : windowStart now (periodMicros b.window) ≤ now :=
    windowStart_le (one_le_periodMicros hcheck)
  have hzero : counted (held now m b) (windowStart now (periodMicros b.window)) = 0 := by
    apply counted_eq_zero
    intro e' he'
    rw [Option.some.inj ((held_eq_some_iff.mp he').1.symm.trans hlookup)]
    omega
  rw [hzero] at hrefused
  omega

variable (ha : b.algorithm = a.id) (hcheck : check a b.window = .ok ())
include ha hcheck

theorem allowed_later_iff (h : LastsFor m b) (hrefused : (outcome now m b).allowed = false)
    (hcurable : b.cost ≤ bucketCapacity b.window) (u : ℕ) :
    (outcome (now + u : ℕ) m b).allowed = true ↔
      (outcome now m b).retryAfter ≤ microsDuration u := by
  have hexceeds : (outcome now m b).costExceeds = false := by
    rw [Bool.eq_false_iff, Ne, costExceeds_iff ha hcheck]
    omega
  have hclock : ((now + u : ℕ) : ℤ) - now = u := by omega
  have hlater : (outcome (now + u : ℕ) m b).allowed = true ↔
      (outcome now m b).allowed = true ∨
        (outcome now m b).retryAfter ≤ microsDuration ((now + u : ℕ) - now) := by
    cases a with
    | gcra => exact gcra_later h hcheck ha (Nat.le_add_right now u) hexceeds
    | fixedWindow =>
      have hbegun := begun_of_refused ha hcheck hrefused hcurable
      exact fixedWindow_later h hbegun hcheck ha (Nat.le_add_right now u) hexceeds
  rw [hlater, hrefused, hclock]
  simp

theorem retryAfter_micros (hrefused : (outcome now m b).allowed = false)
    (hcurable : b.cost ≤ bucketCapacity b.window) :
    ∃ wait : ℕ, 1 ≤ wait ∧ (outcome now m b).retryAfter = microsDuration wait := by
  cases a with
  | gcra =>
    rw [bucketCapacity_gcra hcheck] at hcurable
    rw [outcome_of_gcra ha] at hrefused ⊢
    rw [Bool.eq_false_iff, Ne, evalGCRA_allowed_iff] at hrefused
    have hdeep : tauMicros b.window <
        arrival (held now m b) now - now + emissionMicros b.window * b.cost := by
      by_contra hle
      exact hrefused ⟨hcurable, by omega⟩
    obtain ⟨wait, hwait⟩ := Int.eq_ofNat_of_zero_le (sub_nonneg.mpr hdeep.le)
    rw [gcra_retryAfter hcurable hdeep, hwait]
    exact ⟨wait, by omega, rfl⟩
  | fixedWindow =>
    rw [bucketCapacity_fixedWindow hcheck] at hcurable
    rw [outcome_of_fixedWindow ha] at hrefused ⊢
    rw [Bool.eq_false_iff, Ne, evalFixed_allowed_iff] at hrefused
    have hin : (now : ℤ) < windowStart now (periodMicros b.window) + periodMicros b.window :=
      lt_windowStart_add (one_le_periodMicros hcheck)
    obtain ⟨wait, hwait⟩ := Int.eq_ofNat_of_zero_le (sub_nonneg.mpr hin.le)
    simp only [evalFixed, if_pos (And.intro hrefused (not_lt.mpr hcurable)), hwait]
    exact ⟨wait, by omega, rfl⟩

/-- A verdict that tells what is left, how long until all of it is, and on a refusal
the outcome itself. -/
structure Reports (now : ℕ) (m : Entries) (b : Bucket) (v : Verdict) : Prop where
  remaining : v.remaining = (outcome now m b).remainCurrent
  resetAfter : v.resetAfter = (outcome now m b).resetCurrent
  refusal : v.allowed = false → v = currentVerdict (outcome now m b)

/-- The effective window is the wait of a bucket that asks for one unit more. -/
theorem effectiveWindow_eq_retryAfter {v : Verdict} (hv : Reports now m b v)
    (hroom : v.remaining < bucketCapacity b.window) :
    effectiveWindow b v = (outcome now m (withCost b (v.remaining + 1))).retryAfter := by
  obtain ⟨hremaining, hreset, -⟩ := hv
  unfold effectiveWindow
  rw [if_neg (not_le.mpr hroom)]
  cases a with
  | gcra =>
    rw [bucketCapacity_gcra hcheck] at hroom
    rw [outcome_of_gcra ha] at hremaining hreset
    have hmore : 1 ≤ v.remaining + 1 := by
      have := nonNegative_nonneg ((tauMicros b.window -
        (arrival (held now m b) now - now)).tdiv (emissionMicros b.window))
      rw [hremaining, evalGCRA_remainCurrent]
      omega
    have hdeep : tauMicros b.window < arrival (held now m b) now - now +
        emissionMicros b.window * (v.remaining + 1) := by
      by_contra hle
      have hfits : v.remaining + 1 ≤ (evalGCRA (held now m b) now b.window b.cost).remainCurrent :=
        (gcra_fits_iff hcheck hmore).mpr (not_lt.mp hle)
      omega
    have hid : ¬b.algorithm ≠ .gcraID := not_not.mpr ha
    rw [if_neg hid, outcome_withCost_gcra ha, gcra_retryAfter (by omega) hdeep, hreset,
      evalGCRA_resetCurrent]
    dsimp only
    unfold microsDuration
    rw [Int.mul_tdiv_cancel _ (by decide)]
    ring
  | fixedWindow =>
    rw [bucketCapacity_fixedWindow hcheck] at hroom
    rw [outcome_of_fixedWindow ha] at hremaining hreset
    have hid : b.algorithm ≠ .gcraID := by
      rw [ha]
      decide
    rw [if_pos hid, hreset, outcome_withCost_fixedWindow ha]
    dsimp only [evalFixed] at hremaining ⊢
    have hspent : counted (held now m b) (windowStart now (periodMicros b.window)) ≠ 0 := by
      intro hzero
      rw [hzero] at hremaining
      omega
    rw [if_neg hspent]
    exact (if_pos ⟨by rw [hremaining]; omega, by omega⟩).symm

theorem retryAfter_mono {c : ℤ} (hcost : c ≤ b.cost) (hcurable : b.cost ≤ bucketCapacity b.window)
    (hrefused : (outcome now m (withCost b c)).allowed = false)
    (hrefused' : (outcome now m b).allowed = false) :
    (outcome now m (withCost b c)).retryAfter ≤ (outcome now m b).retryAfter := by
  cases a with
  | gcra =>
    rw [bucketCapacity_gcra hcheck] at hcurable
    rw [outcome_withCost_gcra ha] at hrefused ⊢
    rw [outcome_of_gcra ha] at hrefused' ⊢
    rw [Bool.eq_false_iff, Ne, evalGCRA_allowed_iff] at hrefused hrefused'
    have hmul : emissionMicros b.window * c ≤ emissionMicros b.window * b.cost :=
      mul_le_mul_of_nonneg_left hcost (by have := one_le_emission hcheck; omega)
    rw [gcra_retryAfter (by omega) (by omega), gcra_retryAfter hcurable (by omega)]
    unfold microsDuration microsecond
    omega
  | fixedWindow =>
    rw [bucketCapacity_fixedWindow hcheck] at hcurable
    rw [outcome_withCost_fixedWindow ha] at hrefused ⊢
    rw [outcome_of_fixedWindow ha] at hrefused' ⊢
    rw [Bool.eq_false_iff, Ne, evalFixed_allowed_iff] at hrefused hrefused'
    dsimp only [evalFixed]
    rw [if_pos ⟨hrefused, by omega⟩, if_pos ⟨hrefused', by omega⟩]

theorem resetCurrent_nonneg : 0 ≤ (outcome now m b).resetCurrent := by
  cases a with
  | gcra =>
    have harrival := le_arrival (held now m b) now
    rw [outcome_of_gcra ha, evalGCRA_resetCurrent]
    unfold microsDuration microsecond
    omega
  | fixedWindow =>
    have hin : (now : ℤ) < windowStart now (periodMicros b.window) + periodMicros b.window :=
      lt_windowStart_add (one_le_periodMicros hcheck)
    rw [outcome_of_fixedWindow ha]
    dsimp only [evalFixed]
    unfold microsDuration microsecond
    split_ifs <;> omega

theorem effectiveWindow_le_resetAfter {v : Verdict} (hv : Reports now m b v) :
    effectiveWindow b v ≤ v.resetAfter := by
  have hreset : 0 ≤ v.resetAfter := hv.resetAfter ▸ resetCurrent_nonneg ha hcheck
  unfold effectiveWindow
  split_ifs with hfull hid
  · omega
  · exact le_rfl
  · cases a with
    | gcra =>
      rw [bucketCapacity_gcra hcheck] at hfull
      have hmul : (v.remaining + 1) * emissionMicros b.window ≤ tauMicros b.window := by
        rw [tauMicros, mul_comm]
        exact mul_le_mul_of_nonneg_left (by omega) (by have := one_le_emission hcheck; omega)
      have hdepth := hv.resetAfter
      rw [outcome_of_gcra ha, evalGCRA_resetCurrent, microsDuration] at hdepth
      rw [hdepth]
      dsimp only
      rw [Int.mul_tdiv_cancel _ (by decide)]
      unfold microsecond
      omega
    | fixedWindow => exact absurd ha (by rw [not_not.mp hid]; decide)

end Wait

end Ratelimit.Engine
