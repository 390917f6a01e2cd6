import Ratelimit.Base.Algo

/-!
# The counter contract

Buckets, verdicts, the cheap guard every store runs first, and the admission
rule: a request is admitted when no enforcing bucket refuses it.
-/
namespace Ratelimit.Store

open Algo

structure Bucket where
  key : Text
  algorithm : ID
  window : Window
  shadow : Bool
  cost : ℤ
  deriving DecidableEq

structure Verdict where
  allowed : Bool
  remaining : ℤ
  costExceedsCapacity : Bool
  retryAfter : ℤ
  resetAfter : ℤ
  deriving DecidableEq, Repr

inductive Op where
  | decide (buckets : List Bucket)
  | peek (buckets : List Bucket)
  | reset (keys : List Text)

def Op.buckets : Op → List Bucket
  | .decide bs => bs
  | .peek bs => bs
  | .reset _ => []

/-- A call and the reading of the store's clock it runs at, in Unix microseconds. -/
structure Call where
  now : ℕ
  op : Op

/-- The verdicts in the order of the buckets; a reset reports nothing. -/
abbrev Answer := Except Message (List Verdict)

/-- The loop of `GuardBuckets`, with the keys seen so far. -/
def guardFrom : List Text → List Bucket → Except Message Unit
  | _, [] => .ok ()
  | seen, b :: bs =>
    if b.cost < 1 then
      .error ⟨"store: bucket %q carries a cost of %d, below 1", [.text b.key, .number b.cost]⟩
    else if b.key ∈ seen then
      .error ⟨"store: duplicate bucket key %q in one decision", [.text b.key]⟩
    else if b.window.requests < 1 ∨ b.window.period < microsecond then
      .error ⟨"store: bucket %q carries a window that did not pass validation", [.text b.key]⟩
    else guardFrom (b.key :: seen) bs

def guardBuckets (buckets : List Bucket) : Except Message Unit := guardFrom [] buckets

/-- Both stores return one verdict for each bucket: the panic on a length mismatch is
never reached. -/
def admitted (buckets : List Bucket) (verdicts : List Verdict) : Bool :=
  (buckets.zip verdicts).all fun p => p.1.shadow || p.2.allowed

/-- The guard on one bucket, duplicates apart. -/
def Guarded (b : Bucket) : Prop :=
  1 ≤ b.cost ∧ 1 ≤ b.window.requests ∧ microsecond ≤ b.window.period

theorem guardFrom_ok_iff {seen : List Text} {bs : List Bucket} :
    guardFrom seen bs = .ok () ↔
      (∀ b ∈ bs, Guarded b) ∧ (bs.map Bucket.key).Nodup ∧ ∀ b ∈ bs, b.key ∉ seen := by
  induction bs generalizing seen with
  | nil => simp [guardFrom]
  | cons b bs ih =>
    rw [guardFrom]
    split_ifs with hcost hdup hwin
    · simp only [false_iff]
      rintro ⟨hg, -⟩
      have := (hg b List.mem_cons_self).1
      omega
    · simp only [false_iff]
      rintro ⟨-, -, hseen⟩
      exact hseen b List.mem_cons_self hdup
    · simp only [false_iff]
      rintro ⟨hg, -⟩
      have := (hg b List.mem_cons_self).2
      omega
    · rw [ih]
      have hb : Guarded b := by
        refine ⟨by omega, ?_, ?_⟩
        · by_contra h; exact hwin (Or.inl (by omega))
        · by_contra h; exact hwin (Or.inr (by omega))
      constructor
      · rintro ⟨hg, hnd, hseen⟩
        refine ⟨List.forall_mem_cons.mpr ⟨hb, hg⟩, List.nodup_cons.mpr ⟨?_, hnd⟩,
          List.forall_mem_cons.mpr ⟨hdup, fun c hc h => hseen c hc (List.mem_cons_of_mem _ h)⟩⟩
        intro hm
        obtain ⟨c, hc, he⟩ := List.mem_map.mp hm
        exact hseen c hc (he ▸ List.mem_cons_self)
      · rintro ⟨hg, hnd, hseen⟩
        obtain ⟨hne, hnd⟩ := List.nodup_cons.mp hnd
        refine ⟨(List.forall_mem_cons.mp hg).2, hnd, fun c hc h => ?_⟩
        rcases List.mem_cons.mp h with h | h
        · exact hne (h ▸ List.mem_map_of_mem hc)
        · exact hseen c (List.mem_cons_of_mem _ hc) h

theorem guardBuckets_ok_iff {bs : List Bucket} :
    guardBuckets bs = .ok () ↔ (∀ b ∈ bs, Guarded b) ∧ (bs.map Bucket.key).Nodup := by
  simp [guardBuckets, guardFrom_ok_iff]

theorem Guarded.one_le_periodMicros {b : Bucket} (h : Guarded b) : 1 ≤ periodMicros b.window := by
  have hper := h.2.2
  unfold periodMicros microsecond at *
  rw [Int.tdiv_eq_ediv_of_nonneg (by omega)]
  omega

theorem guarded_of_check {b : Bucket} {a : Algorithm} (hcost : 1 ≤ b.cost)
    (h : check a b.window = .ok ()) : Guarded b := by
  refine ⟨hcost, one_le_requests h, ?_⟩
  have hlo := (period_bounds h).1
  unfold second at hlo
  unfold microsecond
  omega

end Ratelimit.Store
