import Mathlib.Algebra.Order.Ring.Int
import Mathlib.Tactic

/-!
# Arithmetic within a range

A machine holds the integers of an interval. Each operation here gives its exact result
where the interval holds it, and fails where it does not or where it divides by zero, so
a computation that never fails is one in which no step overflows.
-/
namespace Ratelimit.Library

structure Range where
  lo : ℤ
  hi : ℤ

namespace Range

variable (r : Range)

def Holds (n : ℤ) : Prop := r.lo ≤ n ∧ n ≤ r.hi

instance (n : ℤ) : Decidable (r.Holds n) := inferInstanceAs (Decidable (_ ∧ _))

def fit (n : ℤ) : Option ℤ := if r.Holds n then some n else none

def add (a b : ℤ) : Option ℤ := r.fit (a + b)

def sub (a b : ℤ) : Option ℤ := r.fit (a - b)

def neg (a : ℤ) : Option ℤ := r.fit (-a)

def mul (a b : ℤ) : Option ℤ := r.fit (a * b)

def quot (a b : ℤ) : Option ℤ := if b = 0 then none else r.fit (a.tdiv b)

def rem (a b : ℤ) : Option ℤ := if b = 0 then none else r.fit (a.tmod b)

def floorQuot (a b : ℤ) : Option ℤ := if b ≤ 0 then none else r.fit (a / b)

def floorRem (a b : ℤ) : Option ℤ := if b ≤ 0 then none else r.fit (a % b)

def ceilQuot (a b : ℤ) : Option ℤ := if b ≤ 0 then none else r.fit (-(-a / b))

variable {r} {a b : ℤ}

theorem fit_eq (h : r.Holds a) : r.fit a = some a := if_pos h

theorem add_eq (h : r.Holds (a + b)) : r.add a b = some (a + b) := if_pos h

theorem sub_eq (h : r.Holds (a - b)) : r.sub a b = some (a - b) := if_pos h

theorem mul_eq (h : r.Holds (a * b)) : r.mul a b = some (a * b) := if_pos h

theorem quot_eq (hb : b ≠ 0) (h : r.Holds (a.tdiv b)) : r.quot a b = some (a.tdiv b) := by
  rw [quot, if_neg hb]
  exact if_pos h

theorem rem_eq (hb : b ≠ 0) (h : r.Holds (a.tmod b)) : r.rem a b = some (a.tmod b) := by
  rw [rem, if_neg hb]
  exact if_pos h

theorem floorQuot_eq (hb : 0 < b) (h : r.Holds (a / b)) : r.floorQuot a b = some (a / b) := by
  rw [floorQuot, if_neg (not_le.mpr hb)]
  exact if_pos h

theorem floorRem_eq (hb : 0 < b) (h : r.Holds (a % b)) : r.floorRem a b = some (a % b) := by
  rw [floorRem, if_neg (not_le.mpr hb)]
  exact if_pos h

theorem ceilQuot_eq (hb : 0 < b) (h : r.Holds (-(-a / b))) :
    r.ceilQuot a b = some (-(-a / b)) := by
  rw [ceilQuot, if_neg (not_le.mpr hb)]
  exact if_pos h

theorem tdiv_between (hb : 0 < b) : min a 0 ≤ a.tdiv b ∧ a.tdiv b ≤ max a 0 := by
  have hnonneg : ∀ n : ℤ, 0 ≤ n → 0 ≤ n.tdiv b ∧ n.tdiv b ≤ n := by
    intro n hn
    rw [Int.tdiv_eq_ediv_of_nonneg hn]
    exact ⟨Int.ediv_nonneg hn hb.le, Int.ediv_le_self b hn⟩
  rcases le_total 0 a with ha | ha
  · obtain ⟨hlo, hhi⟩ := hnonneg a ha
    omega
  · obtain ⟨hlo, hhi⟩ := hnonneg (-a) (by omega)
    rw [Int.neg_tdiv] at hlo hhi
    omega

theorem ediv_between (hb : 0 < b) : min a 0 ≤ a / b ∧ a / b ≤ max a 0 := by
  rcases le_total 0 a with ha | ha
  · have hlo := Int.ediv_nonneg ha hb.le
    have hhi := Int.ediv_le_self b ha
    omega
  · have hlo := Int.le_ediv_of_mul_le hb (by nlinarith : a * b ≤ a)
    have hhi := Int.ediv_nonpos_of_nonpos_of_neg ha hb
    omega

theorem holds_of_between {n : ℤ} (ha : r.Holds a) (hzero : r.Holds 0)
    (h : min a 0 ≤ n ∧ n ≤ max a 0) : r.Holds n := by
  unfold Holds at *
  omega

end Range

def int64 : Range := ⟨-2 ^ 63, 2 ^ 63 - 1⟩

theorem holds_int64 {n : ℤ} :
    int64.Holds n ↔ -9223372036854775808 ≤ n ∧ n ≤ 9223372036854775807 := by
  simp [Range.Holds, int64]

theorem int64_fit {n : ℤ} (hlo : -9223372036854775808 ≤ n) (hhi : n ≤ 9223372036854775807) :
    int64.fit n = some n :=
  Range.fit_eq (holds_int64.mpr ⟨hlo, hhi⟩)

theorem int64_quot {a b : ℤ} (hb : 0 < b) (hlo : -9223372036854775808 ≤ a)
    (hhi : a ≤ 9223372036854775807) : int64.quot a b = some (a.tdiv b) :=
  Range.quot_eq hb.ne'
    (Range.holds_of_between (holds_int64.mpr ⟨hlo, hhi⟩) (by decide) (Range.tdiv_between hb))

/-- The integers that a double tells apart from their neighbours. -/
def exactDouble : Range := ⟨-2 ^ 53 + 1, 2 ^ 53 - 1⟩

theorem holds_exactDouble {n : ℤ} :
    exactDouble.Holds n ↔ -9007199254740991 ≤ n ∧ n ≤ 9007199254740991 := by
  simp [Range.Holds, exactDouble]

theorem exactDouble_fit {n : ℤ} (hlo : -9007199254740991 ≤ n) (hhi : n ≤ 9007199254740991) :
    exactDouble.fit n = some n :=
  Range.fit_eq (holds_exactDouble.mpr ⟨hlo, hhi⟩)

theorem exactDouble_floorQuot {a b : ℤ} (hb : 0 < b) (hlo : -9007199254740991 ≤ a)
    (hhi : a ≤ 9007199254740991) : exactDouble.floorQuot a b = some (a / b) :=
  Range.floorQuot_eq hb
    (Range.holds_of_between (holds_exactDouble.mpr ⟨hlo, hhi⟩) (by decide) (Range.ediv_between hb))

end Ratelimit.Library
