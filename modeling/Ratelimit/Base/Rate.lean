import Ratelimit.Base.Algo
import Ratelimit.Library.Ranges

/-!
# The rate that GCRA enforces

The check of a window with its `int64` operations written out: a window for which one of them
left the type would have no result, and none does. A window that passes is enforced never
looser than it reads, and less than one percent stricter.
-/
namespace Ratelimit.Algo

open Library

section Checked

structure Window.Fits (w : Window) : Prop where
  requests : int64.Holds w.requests
  period : int64.Holds w.period
  burst : int64.Holds w.burst

def periodMicros64 (w : Window) : Option ℤ := int64.quot w.period microsecond

def emissionMicros64 (w : Window) : Option ℤ := do
  let period ← periodMicros64 w
  let sum ← int64.add period w.requests
  let rounded ← int64.sub sum 1
  int64.quot rounded w.requests

def tauMicros64 (w : Window) : Option ℤ := do
  let emission ← emissionMicros64 w
  int64.mul emission w.burst

/-- Whether `checkCommon` accepts; the remainder is taken only of a period in bounds. -/
def checkCommon64 (w : Window) : Option Bool :=
  if w.requests < 1 then some false
  else if w.period < second ∨ maxPeriod < w.period then some false
  else do
    let rest ← int64.rem w.period second
    pure (decide (rest = 0))

/-- Whether the period is an exact multiple where the interval is short. -/
def divides64 (w : Window) (period emission : ℤ) : Option Bool :=
  if emission < exactEmissionFloor then do
    let rest ← int64.rem period w.requests
    pure (decide (rest = 0))
  else pure true

def Algorithm.validate64 : Algorithm → Window → Option Bool
  | .fixedWindow, _ => some true
  | .gcra, w =>
    if w.burst < 1 then some false
    else do
      let period ← periodMicros64 w
      if period < w.requests then pure false
      else do
        let emission ← emissionMicros64 w
        let divides ← divides64 w period emission
        if divides = false then pure false
        else do
          let depth ← int64.quot maxTauMicros emission
          pure (decide (w.burst ≤ depth))

/-- Whether `Check` accepts a window, where no operation leaves the type. -/
def check64 (a : Algorithm) (w : Window) : Option Bool :=
  if a.consumesBurst = false ∧ w.burst ≠ 0 then some false
  else do
    let common ← checkCommon64 w
    if common = false then pure false else a.validate64 w

variable {w : Window}

theorem periodMicros64_eq (h : int64.Holds w.period) : periodMicros64 w = some (periodMicros w) := by
  refine Range.quot_eq (by decide) (Range.holds_of_between h (by decide) ?_)
  exact Range.tdiv_between (by decide)

theorem periodMicros_le (hlo : second ≤ w.period) (hhi : w.period ≤ maxPeriod) :
    1000000 ≤ periodMicros w ∧ periodMicros w ≤ 86400000000 := by
  unfold periodMicros
  unfold second at hlo
  unfold maxPeriod second at hhi
  unfold microsecond
  rw [Int.tdiv_eq_ediv_of_nonneg (by omega)]
  omega

theorem emissionMicros_bounds (hreq : 1 ≤ w.requests) (hper : 1 ≤ periodMicros w) :
    1 ≤ emissionMicros w ∧ emissionMicros w ≤ periodMicros w := by
  refine ⟨one_le_emissionMicros hreq hper, ?_⟩
  unfold emissionMicros
  rw [Int.tdiv_eq_ediv_of_nonneg (by omega)]
  have hmul : w.requests ≤ periodMicros w * w.requests := le_mul_of_one_le_left (by omega) hper
  refine Int.ediv_le_of_le_mul (by omega) ?_
  nlinarith

theorem emissionMicros64_eq (hperiod : int64.Holds w.period) (hreq : 1 ≤ w.requests)
    (hper : 1 ≤ periodMicros w) (hadd : int64.Holds (periodMicros w + w.requests)) :
    emissionMicros64 w = some (emissionMicros w) := by
  rw [holds_int64] at hadd
  simp (disch := omega) only [emissionMicros64, periodMicros64_eq hperiod, Range.add, Range.sub,
    int64_fit, int64_quot, Option.bind_eq_bind, Option.bind_some]
  rfl

theorem tauMicros64_eq (h : emissionMicros64 w = some (emissionMicros w))
    (htau : int64.Holds (tauMicros w)) : tauMicros64 w = some (tauMicros w) := by
  simp only [tauMicros64, h, Option.bind_eq_bind, Option.bind_some]
  exact Range.mul_eq htau

theorem rem_eq_of_nonneg {n d : ℤ} (hn : 0 ≤ n) (hd : 0 < d) (hdiv : int64.Holds d) :
    int64.rem n d = some (n.tmod d) := by
  refine Range.rem_eq hd.ne' ?_
  have hlo := Int.tmod_nonneg d hn
  have hhi := Int.tmod_lt_of_pos n hd
  rw [holds_int64] at hdiv ⊢
  omega

theorem checkCommon64_eq : checkCommon64 w = some (decide (checkCommon w = .ok ())) := by
  simp only [checkCommon_ok_iff]
  unfold checkCommon64
  split_ifs with hreq hbounds
  · rw [decide_eq_false (by omega)]
  · rw [decide_eq_false (by omega)]
  · have hperiod : second ≤ w.period ∧ w.period ≤ maxPeriod := by omega
    have hnonneg : 0 ≤ w.period := le_trans (by decide) hperiod.1
    have hdvd : second ∣ w.period ↔ w.period.tmod second = 0 := Int.dvd_iff_tmod_eq_zero
    rw [rem_eq_of_nonneg hnonneg (by decide) (by decide)]
    simp [hdvd, hperiod, not_lt.mp hreq]

theorem divides64_eq (hreq : 1 ≤ w.requests) (hword : int64.Holds w.requests)
    (hper : 1 ≤ periodMicros w) :
    divides64 w (periodMicros w) (emissionMicros w) =
      some (decide (¬ (emissionMicros w < exactEmissionFloor ∧
        (periodMicros w).tmod w.requests ≠ 0))) := by
  unfold divides64
  split_ifs with hshort
  · rw [rem_eq_of_nonneg (by omega) (by omega) hword]
    simp [hshort]
  · simp [hshort]

theorem validate_gcra_iff :
    Algorithm.gcra.validate w = .ok () ↔
      1 ≤ w.burst ∧ w.requests ≤ periodMicros w ∧
        ¬ (emissionMicros w < exactEmissionFloor ∧ (periodMicros w).tmod w.requests ≠ 0) ∧
        w.burst ≤ maxTauMicros.tdiv (emissionMicros w) := by
  simp only [Algorithm.validate]
  split_ifs with hburst hres hdiv hdepth
  · simp only [false_iff]
    omega
  · simp only [false_iff]
    omega
  · simp [hdiv]
  · simp only [false_iff]
    omega
  · simp only [true_iff]
    exact ⟨by omega, by omega, hdiv, by omega⟩

theorem validate64_eq (hw : w.Fits) (hcommon : checkCommon w = .ok ()) :
    Algorithm.gcra.validate64 w = some (decide (Algorithm.gcra.validate w = .ok ())) := by
  obtain ⟨hreq, hlo, hhi, -⟩ := checkCommon_ok_iff.mp hcommon
  obtain ⟨hperlo, hperhi⟩ := periodMicros_le hlo hhi
  simp only [validate_gcra_iff, Algorithm.validate64, periodMicros64_eq hw.period]
  by_cases hburst : w.burst < 1
  · simp [hburst, not_le.mpr hburst]
  by_cases hres : periodMicros w < w.requests
  · simp [hburst, hres, not_le.mpr hres]
  have hsum : int64.Holds (periodMicros w + w.requests) := holds_int64.mpr (by omega)
  obtain ⟨hone, hle⟩ := emissionMicros_bounds hreq (by omega)
  have hdepth : int64.quot maxTauMicros (emissionMicros w) =
      some (maxTauMicros.tdiv (emissionMicros w)) := int64_quot hone (by decide) (by decide)
  simp only [if_neg hburst, Option.bind_eq_bind, Option.bind_some, if_neg hres,
    emissionMicros64_eq hw.period hreq (by omega) hsum, hdepth,
    divides64_eq hreq hw.requests (by omega)]
  split_ifs with hdiv
  · simp only [decide_eq_false_iff_not, not_not] at hdiv
    simp [hdiv]
  · simp only [decide_eq_false_iff_not, not_not] at hdiv
    simp [hdiv, not_lt.mp hburst, not_lt.mp hres]

theorem check64_eq (hw : w.Fits) : check64 .gcra w = some (decide (check .gcra w = .ok ())) := by
  have hcheck : check .gcra w = .ok () ↔
      checkCommon w = .ok () ∧ Algorithm.gcra.validate w = .ok () := by
    constructor
    · exact fun h => ⟨checkCommon_of_check h, validate_of_check h⟩
    · rintro ⟨hcommon, hvalid⟩
      simp [check, Algorithm.consumesBurst, hcommon, hvalid, bind, Except.bind]
  simp only [check64, Algorithm.consumesBurst, checkCommon64_eq, hcheck]
  by_cases hcommon : checkCommon w = .ok ()
  · simp [hcommon, validate64_eq hw hcommon]
  · simp [hcommon]

end Checked

section Strict

variable {w : Window}

theorem tauMicros_le (h : check .gcra w = .ok ()) : 1 ≤ tauMicros w ∧ tauMicros w ≤ maxTauMicros := by
  obtain ⟨hburst, hres, -, hdepth⟩ := gcra_bounds h
  have hone := one_le_emissionMicros (one_le_requests h) (one_le_periodMicros h)
  rw [Int.tdiv_eq_ediv_of_nonneg (by decide), Int.le_ediv_iff_mul_le (by omega)] at hdepth
  unfold tauMicros
  rw [mul_comm]
  exact ⟨by nlinarith, hdepth⟩

theorem accepted_period {a : Algorithm} (h : check a w = .ok ()) :
    1000000 ≤ periodMicros w ∧ periodMicros w ≤ 86400000000 :=
  periodMicros_le (period_bounds h).1 (period_bounds h).2

theorem accepted_emission {a : Algorithm} (h : check a w = .ok ()) :
    1 ≤ emissionMicros w ∧ emissionMicros w ≤ periodMicros w :=
  emissionMicros_bounds (one_le_requests h) (one_le_periodMicros h)

theorem accepted_word {a : Algorithm} (h : check a w = .ok ()) : int64.Holds w.period := by
  obtain ⟨hlo, hhi⟩ := period_bounds h
  unfold second at hlo
  unfold maxPeriod second at hhi
  exact holds_int64.mpr (by omega)

theorem accepted_period64 {a : Algorithm} (h : check a w = .ok ()) :
    periodMicros64 w = some (periodMicros w) :=
  periodMicros64_eq (accepted_word h)

theorem accepted_emission64 (h : check .gcra w = .ok ()) :
    emissionMicros64 w = some (emissionMicros w) := by
  have hbounds := accepted_period h
  have hreq := one_le_requests h
  have hres := (gcra_bounds h).2.1
  exact emissionMicros64_eq (accepted_word h) hreq (one_le_periodMicros h)
    (holds_int64.mpr (by omega))

theorem accepted_tau64 (h : check .gcra w = .ok ()) : tauMicros64 w = some (tauMicros w) := by
  obtain ⟨hlo, hhi⟩ := tauMicros_le h
  unfold maxTauMicros at hhi
  exact tauMicros64_eq (accepted_emission64 h) (holds_int64.mpr (by omega))

theorem emission_mul_le (hreq : 1 ≤ w.requests) (hper : 1 ≤ periodMicros w) :
    emissionMicros w * w.requests ≤ periodMicros w + w.requests - 1 := by
  unfold emissionMicros
  rw [Int.tdiv_eq_ediv_of_nonneg (by omega)]
  exact Int.ediv_mul_le _ (by omega)

/-- An interval from a hundred microseconds on rounds by less than one percent. -/
theorem emission_mul_close (h : check .gcra w = .ok ()) :
    100 * (emissionMicros w * w.requests - periodMicros w) < emissionMicros w * w.requests := by
  have hreq := one_le_requests h
  have hper := one_le_periodMicros h
  have hcover := periodMicros_le_emission_mul hreq hper
  have hround := emission_mul_le hreq hper
  obtain ⟨-, -, hexact, -⟩ := gcra_bounds h
  by_cases hshort : emissionMicros w < exactEmissionFloor
  · have hdvd : w.requests ∣ emissionMicros w * w.requests - periodMicros w :=
      dvd_sub (dvd_mul_left _ _) (hexact hshort)
    have hzero := Int.eq_zero_of_dvd_of_nonneg_of_lt (by omega) (by omega) hdvd
    omega
  · unfold exactEmissionFloor at hshort
    nlinarith

end Strict

/-- The enforced GCRA rate is strict and close: on every window of machine words the check stays inside
the type, and a window that it accepts is enforced less than one percent stricter than configured,
never looser, at a depth of one microsecond to `maxTauMicros`. -/
theorem gcra_rate_strict_and_close (w : Window) (hw : w.Fits) :
    check64 .gcra w = some (decide (check .gcra w = .ok ())) ∧
      (check .gcra w = .ok () →
        (emissionMicros64 w = some (emissionMicros w) ∧ tauMicros64 w = some (tauMicros w)) ∧
        1 ≤ emissionMicros w ∧
        periodMicros w ≤ emissionMicros w * w.requests ∧
        100 * (emissionMicros w * w.requests - periodMicros w) < emissionMicros w * w.requests ∧
        1 ≤ tauMicros w ∧ tauMicros w ≤ 10 ^ 15) := by
  refine ⟨check64_eq hw, fun h => ?_⟩
  have hreq := one_le_requests h
  have hper := one_le_periodMicros h
  obtain ⟨htaulo, htauhi⟩ := tauMicros_le h
  exact ⟨⟨accepted_emission64 h, accepted_tau64 h⟩, one_le_emissionMicros hreq hper,
    periodMicros_le_emission_mul hreq hper, emission_mul_close h, htaulo, htauhi⟩

theorem gcra_rate_strict_and_close_minute :
    check .gcra ⟨700, 60 * second, 50⟩ = .ok () ∧
      emissionMicros ⟨700, 60 * second, 50⟩ = 85715 ∧
      100 * (emissionMicros ⟨700, 60 * second, 50⟩ * 700 - periodMicros ⟨700, 60 * second, 50⟩) <
        emissionMicros ⟨700, 60 * second, 50⟩ * 700 := by
  have hfits : Window.Fits ⟨700, 60 * second, 50⟩ := ⟨by decide, by decide, by decide⟩
  have haccepted : check .gcra ⟨700, 60 * second, 50⟩ = .ok () := by decide
  obtain ⟨-, hbounds⟩ := gcra_rate_strict_and_close ⟨700, 60 * second, 50⟩ hfits
  exact ⟨haccepted, by decide, (hbounds haccepted).2.2.2.1⟩

end Ratelimit.Algo
