import Ratelimit.Base.Text

/-!
# Counting algorithms as the Go side knows them

The registry holds two algorithms. A window is checked before any counter math runs on it.
Durations are nanoseconds, counter math runs in whole microseconds, and `int64` quantities
are integers: the checked windows keep the counter math inside the type.
-/
namespace Ratelimit.Algo

/-- The dispatch code handed to the store: 1 and 2 are registered, and a bucket can
carry any other. -/
inductive ID where
  | gcraID
  | fixedWindowID
  | unregistered (code : Byte) (free : code ≠ 1 ∧ code ≠ 2)
  deriving DecidableEq

def microsecond : ℤ := 1000

def second : ℤ := 1000000000

def maxPeriod : ℤ := 24 * 3600 * second

structure Window where
  requests : ℤ
  period : ℤ
  burst : ℤ
  deriving DecidableEq, Repr

def periodMicros (w : Window) : ℤ := w.period.tdiv microsecond

/-- The emission interval, rounded up so that the enforced rate errs strict. -/
def emissionMicros (w : Window) : ℤ := (periodMicros w + w.requests - 1).tdiv w.requests

def tauMicros (w : Window) : ℤ := emissionMicros w * w.burst

/-- The registered algorithms: the values of the `Algorithm` interface. -/
inductive Algorithm where
  | gcra
  | fixedWindow
  deriving DecidableEq, Repr

namespace Algorithm

def id : Algorithm → ID
  | gcra => .gcraID
  | fixedWindow => .fixedWindowID

def name : Algorithm → Text
  | gcra => ascii "GCRA"
  | fixedWindow => ascii "FixedWindow"

/-- Whether the optional field `Burst` is among the consumed ones. -/
def consumesBurst : Algorithm → Bool
  | gcra => true
  | fixedWindow => false

end Algorithm

def maxTauMicros : ℤ := 1000000000000000

def exactEmissionFloor : ℤ := 100

def checkCommon (w : Window) : Except Message Unit :=
  if w.requests < 1 then
    .error ⟨"requests must be at least 1, got %d", [.number w.requests]⟩
  else if w.period < second ∨ maxPeriod < w.period ∨ w.period.tmod second ≠ 0 then
    .error ⟨"period must be whole seconds within [1s, %s], got %s",
      [.duration maxPeriod, .duration w.period]⟩
  else .ok ()

def Algorithm.validate : Algorithm → Window → Except Message Unit
  | .fixedWindow, _ => .ok ()
  | .gcra, w =>
    if w.burst < 1 then
      .error ⟨"burst must be at least 1 in a resolved window, got %d", [.number w.burst]⟩
    else if periodMicros w < w.requests then
      .error ⟨"requests exceed GCRA resolution of one per microsecond: %d per %s",
        [.number w.requests, .duration w.period]⟩
    else if emissionMicros w < exactEmissionFloor ∧ (periodMicros w).tmod w.requests ≠ 0 then
      .error ⟨"a rate this high must divide the period evenly at microsecond resolution: %d per %s does not",
        [.number w.requests, .duration w.period]⟩
    else if maxTauMicros.tdiv (emissionMicros w) < w.burst then
      .error ⟨"bucket depth burst×(period/requests) exceeds the supported maximum, burst %d is too large",
        [.number w.burst]⟩
    else .ok ()

/-- `Burst` is the one field that can be foreign to an algorithm. -/
def check (a : Algorithm) (w : Window) : Except Message Unit :=
  if a.consumesBurst = false ∧ w.burst ≠ 0 then
    .error ⟨"%s does not accept %s", [.text a.name, .text (ascii "burst")]⟩
  else do
    checkCommon w
    a.validate w

def byName (name : Text) : Option Algorithm :=
  if name = Algorithm.gcra.name then some .gcra
  else if name = Algorithm.fixedWindow.name then some .fixedWindow
  else none

def byID : ID → Option Algorithm
  | .gcraID => some .gcra
  | .fixedWindowID => some .fixedWindow
  | .unregistered _ _ => none

def names : List Text := [Algorithm.gcra.name, Algorithm.fixedWindow.name]

theorem checkCommon_ok_iff {w : Window} :
    checkCommon w = .ok () ↔
      1 ≤ w.requests ∧ second ≤ w.period ∧ w.period ≤ maxPeriod ∧ second ∣ w.period := by
  unfold checkCommon
  split_ifs with hreq hper
  · simp only [false_iff]
    omega
  · simp only [false_iff]
    rintro ⟨_, hlo, hhi, hdvd⟩
    rcases hper with h | h | h
    · omega
    · omega
    · exact h (Int.tmod_eq_zero_of_dvd hdvd)
  · simp only [not_or, not_lt, ne_eq, not_not] at hreq hper
    simp only [true_iff]
    exact ⟨hreq, hper.1, hper.2.1, Int.dvd_of_tmod_eq_zero hper.2.2⟩

theorem checkCommon_of_check {a : Algorithm} {w : Window} (h : check a w = .ok ()) :
    checkCommon w = .ok () := by
  unfold check at h
  split_ifs at h
  cases hc : checkCommon w with
  | error e => simp [hc, bind, Except.bind] at h
  | ok u => rfl

theorem validate_of_check {a : Algorithm} {w : Window} (h : check a w = .ok ()) :
    a.validate w = .ok () := by
  have hc := checkCommon_of_check h
  unfold check at h
  split_ifs at h
  simpa [hc, bind, Except.bind] using h

section Accepted

variable {a : Algorithm} {w : Window} (h : check a w = .ok ())
include h

theorem one_le_requests : 1 ≤ w.requests := (checkCommon_ok_iff.mp (checkCommon_of_check h)).1

theorem second_dvd_period : second ∣ w.period :=
  (checkCommon_ok_iff.mp (checkCommon_of_check h)).2.2.2

theorem period_bounds : second ≤ w.period ∧ w.period ≤ maxPeriod :=
  ⟨(checkCommon_ok_iff.mp (checkCommon_of_check h)).2.1,
    (checkCommon_ok_iff.mp (checkCommon_of_check h)).2.2.1⟩

theorem one_le_periodMicros : 1 ≤ periodMicros w := by
  have hlo := (period_bounds h).1
  unfold periodMicros microsecond
  unfold second at hlo
  rw [Int.tdiv_eq_ediv_of_nonneg (by omega)]
  omega

end Accepted

theorem gcra_bounds {w : Window} (h : check .gcra w = .ok ()) :
    1 ≤ w.burst ∧ w.requests ≤ periodMicros w ∧
      (emissionMicros w < exactEmissionFloor → w.requests ∣ periodMicros w) ∧
      w.burst ≤ maxTauMicros.tdiv (emissionMicros w) := by
  have hv := validate_of_check h
  simp only [Algorithm.validate] at hv
  split_ifs at hv with hburst hres hdiv hdepth
  refine ⟨by omega, by omega, ?_, by omega⟩
  intro hlt
  by_contra hnd
  exact hdiv ⟨hlt, fun hz => hnd (Int.dvd_of_tmod_eq_zero hz)⟩

theorem one_le_emissionMicros {w : Window} (hreq : 1 ≤ w.requests) (hper : 1 ≤ periodMicros w) :
    1 ≤ emissionMicros w := by
  unfold emissionMicros
  rw [Int.tdiv_eq_ediv_of_nonneg (by omega)]
  exact Int.le_ediv_of_mul_le (by omega) (by omega)

theorem periodMicros_le_emission_mul {w : Window} (hreq : 1 ≤ w.requests)
    (hper : 1 ≤ periodMicros w) : periodMicros w ≤ emissionMicros w * w.requests := by
  unfold emissionMicros
  rw [Int.tdiv_eq_ediv_of_nonneg (by omega)]
  have hdiv := Int.mul_ediv_add_emod (periodMicros w + w.requests - 1) w.requests
  have hmod := Int.emod_lt_of_pos (periodMicros w + w.requests - 1) (by omega : 0 < w.requests)
  rw [mul_comm] at hdiv
  omega

end Ratelimit.Algo
