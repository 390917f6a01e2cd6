import Ratelimit.Store.MemorySpec

/-!
# A bucket left alone

With no traffic on its key a GCRA bucket drains, and a fixed window starts afresh at its
boundary. So a bucket that can hold a cost admits it from one moment on, and the wait it
reports is the time to that moment.
-/
namespace Ratelimit.Memory

open Algo Store

/-- An entry that stays for as long as a bucket of its key may count it. -/
structure Lasting (w : Window) (e : Entry) : Prop where
  count_nonneg : 0 ≤ e.count
  deadline_of_gcra : e.algorithm = .gcraID → e.deadline = e.tat
  deadline_of_fixedWindow : e.algorithm = .fixedWindowID → e.deadline = e.start + periodMicros w

def LastsFor (m : Entries) (b : Bucket) : Prop := ∀ e, m.lookup b.key = some e → Lasting b.window e

/-- No window that is still to come has been counted under the key. -/
def Begun (t : ℕ) (m : Entries) (b : Bucket) : Prop :=
  ∀ e, m.lookup b.key = some e → e.algorithm = b.algorithm → e.start ≤ t

section Later

variable {t t' : ℕ} {m : Entries} {b : Bucket}

theorem held_eq_none_of_dead {u : ℤ} (h : ∀ e, m.lookup b.key = some e →
    e.algorithm = b.algorithm → e.deadline ≤ u) : held u m b = none := by
  rw [Option.eq_none_iff_forall_ne_some]
  intro e he
  obtain ⟨hlookup, hlive, halg⟩ := held_eq_some_iff.mp he
  exact absurd (h e hlookup halg) (not_le.mpr hlive)

theorem held_eq_none_later (hle : t ≤ t') (h : held t m b = none) : held t' m b = none := by
  apply held_eq_none_of_dead
  intro e hlookup halg
  by_contra hlive
  have hclock : (t : ℤ) ≤ t' := by exact_mod_cast hle
  rw [held_eq_some_iff.mpr ⟨hlookup, by omega, halg⟩] at h
  cases h

theorem arrival_later (h : LastsFor m b) (hid : b.algorithm = .gcraID) (hle : t ≤ t') :
    arrival (held t' m b) t' = max (t' : ℤ) (arrival (held t m b) t) := by
  have hclock : (t : ℤ) ≤ t' := by exact_mod_cast hle
  cases he : held t m b with
  | none =>
    rw [held_eq_none_later hle he]
    simp only [arrival]
    omega
  | some e =>
    obtain ⟨hlookup, hdeadline, halg⟩ := held_eq_some_iff.mp he
    have htat := (h e hlookup).deadline_of_gcra (halg.trans hid)
    by_cases hlater : (t' : ℤ) < e.deadline
    · rw [held_eq_some_iff.mpr ⟨hlookup, hlater, halg⟩]
      simp only [arrival]
      split_ifs <;> omega
    · have hgone : held t' m b = none := by
        apply held_eq_none_of_dead
        intro e' he' _
        rw [Option.some.inj (he'.symm.trans hlookup)]
        omega
      rw [hgone]
      simp only [arrival]
      split_ifs <;> omega

theorem counted_same (h : LastsFor m b) (hid : b.algorithm = .fixedWindowID) (hle : t ≤ t')
    (hin : (t' : ℤ) < windowStart t (periodMicros b.window) + periodMicros b.window) :
    counted (held t' m b) (windowStart t (periodMicros b.window)) =
      counted (held t m b) (windowStart t (periodMicros b.window)) := by
  cases hheld : held t m b with
  | none => rw [held_eq_none_later hle hheld]
  | some e =>
    obtain ⟨hlookup, hlive, halg⟩ := held_eq_some_iff.mp hheld
    by_cases hstart : e.start = windowStart t (periodMicros b.window)
    · have hlater : (t' : ℤ) < e.deadline := by
        rw [(h e hlookup).deadline_of_fixedWindow (halg.trans hid), hstart]
        exact hin
      rw [held_eq_some_iff.mpr ⟨hlookup, hlater, halg⟩]
    · have hzero : counted (held t' m b) (windowStart t (periodMicros b.window)) = 0 := by
        apply counted_eq_zero
        intro e' he'
        obtain ⟨hlookup', -, -⟩ := held_eq_some_iff.mp he'
        rwa [Option.some.inj (hlookup'.symm.trans hlookup)]
      rw [hzero]
      simp [counted, hstart]

theorem counted_next (hbegun : Begun t m b) {start : ℤ} (hstart : (t : ℤ) < start) (u : ℤ) :
    counted (held u m b) start = 0 := by
  apply counted_eq_zero
  intro e he
  obtain ⟨hlookup, -, halg⟩ := held_eq_some_iff.mp he
  have hle := hbegun e hlookup halg
  omega

theorem LastsFor.counted_nonneg (h : LastsFor m b) (u start : ℤ) :
    0 ≤ counted (held u m b) start := by
  cases hheld : held u m b with
  | none => exact le_rfl
  | some e =>
    have hcount := (h e (held_eq_some_iff.mp hheld).1).count_nonneg
    simp only [counted]
    split_ifs <;> omega

/-- What the bucket admits at the later instant: what it admitted, and what has waited. -/
abbrev AdmitsLater (t t' : ℕ) (m : Entries) (b : Bucket) : Prop :=
  (outcome t' m b).allowed = true ↔
    (outcome t m b).allowed = true ∨ (outcome t m b).retryAfter ≤ microsDuration (t' - t)

theorem gcra_later (h : LastsFor m b) (hcheck : check .gcra b.window = .ok ())
    (hid : b.algorithm = .gcraID) (hle : t ≤ t') (hcurable : (outcome t m b).costExceeds = false) :
    AdmitsLater t t' m b := by
  have hburst : b.cost ≤ b.window.burst := by
    by_contra hburst
    rw [outcome_of_gcra hid] at hcurable
    simp [evalGCRA, not_le.mp hburst] at hcurable
  have hemission : 0 ≤ emissionMicros b.window := by
    have hone := one_le_emissionMicros (one_le_requests hcheck) (one_le_periodMicros hcheck)
    omega
  have hdepth : emissionMicros b.window * b.cost ≤ tauMicros b.window :=
    mul_le_mul_of_nonneg_left hburst hemission
  unfold AdmitsLater
  rw [outcome_of_gcra hid, outcome_of_gcra hid, evalGCRA_allowed_iff, evalGCRA_allowed_iff,
    arrival_later h hid hle]
  have hwait : (evalGCRA (held t m b) t b.window b.cost).retryAfter =
      if 0 ≤ (t : ℤ) - (arrival (held t m b) t + emissionMicros b.window * b.cost -
          tauMicros b.window) then -1
      else microsDuration (-((t : ℤ) - (arrival (held t m b) t +
        emissionMicros b.window * b.cost - tauMicros b.window))) := by
    simp [evalGCRA, not_lt.mpr hburst]
  rw [hwait]
  unfold microsDuration microsecond
  split_ifs <;> omega

theorem fixedWindow_later (h : LastsFor m b) (hbegun : Begun t m b)
    (hcheck : check .fixedWindow b.window = .ok ()) (hid : b.algorithm = .fixedWindowID)
    (hle : t ≤ t') (hcurable : (outcome t m b).costExceeds = false) :
    AdmitsLater t t' m b := by
  have hperiod := one_le_periodMicros hcheck
  have hcapacity : b.cost ≤ b.window.requests := by
    rw [outcome_of_fixedWindow hid] at hcurable
    simpa [evalFixed] using hcurable
  unfold AdmitsLater
  rw [outcome_of_fixedWindow hid, outcome_of_fixedWindow hid, evalFixed_allowed_iff,
    evalFixed_allowed_iff]
  have hwait : (evalFixed (held t m b) t b.window b.cost).retryAfter =
      if b.cost ≤ max (b.window.requests -
          counted (held t m b) (windowStart t (periodMicros b.window))) 0 then -1
      else microsDuration (windowStart t (periodMicros b.window) + periodMicros b.window - t) := by
    simp only [evalFixed, not_lt.mpr hcapacity, not_false_eq_true, and_true, ite_not]
  rw [hwait]
  rcases windowStart_cases hperiod hle with ⟨hsame, hbefore⟩ | hnext
  · rw [hsame, counted_same h hid hle hbefore]
    unfold microsDuration microsecond
    split_ifs <;> omega
  · have hin : (t : ℤ) < windowStart t (periodMicros b.window) + periodMicros b.window :=
      lt_windowStart_add hperiod
    have hnow : windowStart t' (periodMicros b.window) ≤ t' := windowStart_le hperiod
    rw [counted_next hbegun (by omega) t']
    unfold microsDuration microsecond
    split_ifs <;> omega

/-- A bucket that can hold the cost admits it from the end of its wait on. -/
theorem outcome_later (h : LastsFor m b) (hbegun : Begun t m b) {a : Algorithm}
    (ha : b.algorithm = a.id) (hcheck : check a b.window = .ok ()) (hle : t ≤ t')
    (hcurable : (outcome t m b).costExceeds = false) :
    AdmitsLater t t' m b := by
  cases a with
  | gcra => exact gcra_later h hcheck ha hle hcurable
  | fixedWindow => exact fixedWindow_later h hbegun hcheck ha hle hcurable

theorem outcome_incurable (h : LastsFor m b) {a : Algorithm} (ha : b.algorithm = a.id)
    (hcheck : check a b.window = .ok ()) (hincurable : (outcome t m b).costExceeds = true) (u : ℤ) :
    (outcome u m b).allowed = false := by
  rw [Bool.eq_false_iff]
  intro hallowed
  cases a with
  | gcra =>
    rw [outcome_of_gcra ha] at hallowed hincurable
    have hburst := (evalGCRA_allowed_iff.mp hallowed).1
    simp [evalGCRA, not_lt.mpr hburst] at hincurable
  | fixedWindow =>
    have hcount := h.counted_nonneg u (windowStart u (periodMicros b.window))
    have hrequests := one_le_requests hcheck
    rw [outcome_of_fixedWindow ha] at hallowed hincurable
    rw [evalFixed_allowed_iff] at hallowed
    simp only [evalFixed, decide_eq_true_eq] at hincurable
    omega

end Later

end Ratelimit.Memory
