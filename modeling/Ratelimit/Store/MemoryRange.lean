import Ratelimit.Base.Rate
import Ratelimit.Store.Observation

/-!
# The in-memory store computes in 64 bits

The counter math with every operation on machine words written out: a call of which one left
the type would have no result. An arrival time is never further ahead of the clock than the
deepest bucket, and a count never above the largest quota, however the windows were tuned.
-/
namespace Ratelimit.Memory

open Algo Store Library

def microsDuration64 (us : ℤ) : Option ℤ := int64.mul us microsecond

def retryAfter64 (diff : ℤ) : Option ℤ :=
  if 0 ≤ diff then some (-1)
  else do
    let late ← int64.neg diff
    microsDuration64 late

def evalGCRA64 (e : Option Entry) (now : ℤ) (w : Window) (cost : ℤ) : Option Outcome := do
  let emission ← emissionMicros64 w
  let tau ← tauMicros64 w
  let tat := arrival e now
  let depth ← int64.sub tat now
  let room ← int64.sub tau depth
  let quotient ← int64.quot room emission
  let current := nonNegative quotient
  if w.burst < cost then do
    let reset ← microsDuration64 depth
    pure
      { allowed := false, costExceeds := true, retryAfter := -1, remainCharged := 0,
        remainCurrent := current, resetCharged := 0, resetCurrent := reset, next := Entry.zero }
  else do
    let increment ← int64.mul emission cost
    let newTat ← int64.add tat increment
    let floor ← int64.sub newTat tau
    let diff ← int64.sub now floor
    let charged ← int64.quot diff emission
    let ahead ← int64.sub newTat now
    let resetCharged ← microsDuration64 ahead
    let resetCurrent ← microsDuration64 depth
    let retryAfter ← retryAfter64 diff
    pure
      { allowed := decide (0 ≤ diff)
        costExceeds := false
        retryAfter
        remainCharged := nonNegative charged
        remainCurrent := current
        resetCharged
        resetCurrent
        next := ⟨.gcraID, newTat, 0, 0, newTat⟩ }

def evalFixed64 (e : Option Entry) (now : ℤ) (w : Window) (cost : ℤ) : Option Outcome := do
  let period ← periodMicros64 w
  let into ← int64.rem now period
  let start ← int64.sub now into
  let count := counted e start
  let unspent ← int64.sub w.requests count
  let left := max unspent 0
  let stop ← int64.add start period
  let ahead ← int64.sub stop now
  let boundary ← microsDuration64 ahead
  let remainCharged ← int64.sub left cost
  let consumed ← int64.add count cost
  pure
    { allowed := decide (cost ≤ left)
      costExceeds := decide (w.requests < cost)
      retryAfter := if ¬cost ≤ left ∧ ¬w.requests < cost then boundary else -1
      remainCharged
      remainCurrent := left
      resetCharged := boundary
      resetCurrent := if count = 0 then 0 else boundary
      next := ⟨.fixedWindowID, 0, start, consumed, stop⟩ }

def evalBucket64 (now : ℤ) (e : Option Entry) (b : Bucket) : Option (Except Message Outcome) :=
  match b.algorithm with
  | .gcraID => (evalGCRA64 e now b.window b.cost).map .ok
  | .fixedWindowID => (evalFixed64 e now b.window b.cost).map .ok
  | .unregistered code _ => some (.error ⟨"memory: unknown algorithm id %d", [.number code.val]⟩)

def evalAll64 (now : ℤ) : Entries → List Bucket → Option (Entries × Except Message (List Outcome))
  | m, [] => some (m, .ok [])
  | m, b :: bs => do
    let fetched := fetch now m b
    let judged ← evalBucket64 now fetched.2 b
    match judged with
    | .error msg => pure (fetched.1, .error msg)
    | .ok o => do
      let rest ← evalAll64 now fetched.1 bs
      pure (rest.1, rest.2.map (o :: ·))

def storeDecide64 (now : ℕ) (m : Entries) (buckets : List Bucket) :
    Option (Entries × Except Message (List Verdict)) :=
  match guardBuckets buckets with
  | .error msg => some (m, .error msg)
  | .ok () => do
    let evaluated ← evalAll64 now m buckets
    match evaluated.2 with
    | .error msg => pure (evaluated.1, .error msg)
    | .ok outs =>
      let pairs := buckets.zip outs
      let done := commit (pairs.all fun p => p.1.shadow || p.2.allowed) evaluated.1 pairs
      pure (done.1, .ok done.2)

def storePeek64 (now : ℕ) (m : Entries) (buckets : List Bucket) :
    Option (Entries × Except Message (List Verdict)) :=
  match guardBuckets buckets with
  | .error msg => some (m, .error msg)
  | .ok () => do
    let evaluated ← evalAll64 now m buckets
    pure (evaluated.1, evaluated.2.map fun outs => outs.map currentVerdict)

/-- A call, if no operation of it leaves the type. -/
def storeCall64 (m : Entries) (c : Call) : Option (Entries × Answer) :=
  match c.op with
  | .decide bs => storeDecide64 c.now m bs
  | .peek bs => storePeek64 c.now m bs
  | .reset ks => some (storeReset m ks, .ok [])

/-- A bucket as compiled policies make them: an accepted window of 32-bit numbers, and
a cost of at most a billion. -/
structure Sized (b : Bucket) : Prop where
  checked : ∀ a : Algorithm, b.algorithm = a.id → check a b.window = .ok ()
  requests : b.window.requests < 2 ^ 31
  burst : b.window.burst < 2 ^ 31
  one_le_cost : 1 ≤ b.cost
  cost_le : b.cost ≤ 10 ^ 9

/-- The end of the clock, in Unix microseconds: the year 2096. -/
def clockEnd : ℕ := 4 * 10 ^ 15

section Evaluation

variable {e : Option Entry} {now : ℕ} {w : Window} {cost : ℤ}

theorem microsDuration64_eq {us : ℤ} (hlo : -2 * maxTauMicros ≤ us) (hhi : us ≤ 2 * maxTauMicros) :
    microsDuration64 us = some (microsDuration us) := by
  unfold maxTauMicros at hlo hhi
  exact int64_fit (by unfold microsecond; omega) (by unfold microsecond; omega)

theorem retryAfter64_eq {diff : ℤ} (hlo : -2 * maxTauMicros ≤ diff) (hhi : diff ≤ 2 * maxTauMicros) :
    retryAfter64 diff = some (if 0 ≤ diff then -1 else microsDuration (-diff)) := by
  have hmax : maxTauMicros = 1000000000000000 := rfl
  unfold retryAfter64
  split_ifs with hallowed
  · rfl
  · simp (disch := omega) only [Range.neg, int64_fit, Option.bind_eq_bind, Option.bind_some,
      microsDuration64_eq]

/-- From an arrival time at most a bucket ahead, nothing of GCRA leaves the type. -/
theorem evalGCRA64_eq (hcheck : check .gcra w = .ok ()) (hcost : 1 ≤ cost) (hclock : now < clockEnd)
    (hahead : arrival e now ≤ now + maxTauMicros) :
    evalGCRA64 e now w cost = some (evalGCRA e now w cost) := by
  obtain ⟨hone, -⟩ := accepted_emission hcheck
  obtain ⟨htaulo, htauhi⟩ := tauMicros_le hcheck
  have harrival := le_arrival e now
  have hmax : maxTauMicros = 1000000000000000 := rfl
  unfold clockEnd at hclock
  simp only [evalGCRA64, evalGCRA, accepted_emission64 hcheck, accepted_tau64 hcheck,
    Option.bind_eq_bind, Option.bind_some]
  by_cases hburst : w.burst < cost
  · simp (disch := omega) only [Range.sub, int64_fit, int64_quot, microsDuration64_eq,
      Option.bind_some, if_pos hburst]
    rfl
  · have hpos : cost ≤ emissionMicros w * cost := le_mul_of_one_le_left (by omega) hone
    have hstep : emissionMicros w * cost ≤ tauMicros w :=
      mul_le_mul_of_nonneg_left (not_lt.mp hburst) (by omega)
    simp (disch := omega) only [Range.sub, Range.mul, Range.add, int64_fit, int64_quot,
      microsDuration64_eq, retryAfter64_eq, Option.bind_some, if_neg hburst]
    rfl

theorem evalFixed64_eq (hcheck : check .fixedWindow w = .ok ()) (hreq : w.requests < 2 ^ 31)
    (hcost : 1 ≤ cost) (hcost9 : cost ≤ 10 ^ 9) (hclock : now < clockEnd)
    (hcount : 0 ≤ counted e (windowStart now (periodMicros w)))
    (hcount31 : counted e (windowStart now (periodMicros w)) < 2 ^ 31) :
    evalFixed64 e now w cost = some (evalFixed e now w cost) := by
  have hperiod := accepted_period hcheck
  have hone := one_le_requests hcheck
  have hmax : maxTauMicros = 1000000000000000 := rfl
  unfold clockEnd at hclock
  have hbegin : windowStart now (periodMicros w) ≤ now := windowStart_le (by omega)
  have hzero : 0 ≤ windowStart now (periodMicros w) := windowStart_nonneg (by omega)
  have hend : (now : ℤ) < windowStart now (periodMicros w) + periodMicros w :=
    lt_windowStart_add (by omega)
  have hrem : int64.rem now (periodMicros w) = some ((now : ℤ).tmod (periodMicros w)) :=
    rem_eq_of_nonneg (by omega) (by omega) (holds_int64.mpr (by omega))
  have hstart : int64.sub now ((now : ℤ).tmod (periodMicros w)) =
      some (windowStart now (periodMicros w)) := by
    refine Range.sub_eq (holds_int64.mpr ?_)
    change _ ≤ windowStart now (periodMicros w) ∧ windowStart now (periodMicros w) ≤ _
    omega
  simp only [evalFixed64, evalFixed, Option.bind_eq_bind, accepted_period64 hcheck, hrem, hstart,
    Option.bind_some]
  generalize windowStart now (periodMicros w) = start at *
  generalize counted e start = count at *
  simp (disch := omega) only [Range.sub, Range.add, int64_fit, microsDuration64_eq,
    Option.bind_some]
  rfl

end Evaluation

section Runs

variable {now : ℕ} {m : Entries} {b : Bucket} {bs : List Bucket}

/-- What earlier windows can have left behind at the time `now`. -/
structure Bounded (now : ℤ) (e : Entry) : Prop where
  tat_le : e.tat ≤ now + maxTauMicros
  count_nonneg : 0 ≤ e.count
  count_lt : e.count < 2 ^ 31

def AllBounded (now : ℤ) (m : Entries) : Prop := ∀ k e, m.lookup k = some e → Bounded now e

theorem AllBounded.later {now now' : ℤ} (h : AllBounded now m) (hle : now ≤ now') :
    AllBounded now' m := by
  intro k e he
  obtain ⟨htat, hcount, hlt⟩ := h k e he
  exact ⟨by omega, hcount, hlt⟩

theorem AllBounded.arrival_le (h : AllBounded now m) (b : Bucket) :
    arrival (held now m b) now ≤ now + maxTauMicros := by
  cases hheld : held now m b with
  | none =>
    unfold maxTauMicros
    simp only [arrival]
    omega
  | some e =>
    have htat := (h _ e (held_eq_some_iff.mp hheld).1).tat_le
    unfold maxTauMicros at htat ⊢
    simp only [arrival]
    split_ifs <;> omega

theorem AllBounded.counted_bounds (h : AllBounded now m) (b : Bucket) (start : ℤ) :
    0 ≤ counted (held now m b) start ∧ counted (held now m b) start < 2 ^ 31 := by
  cases hheld : held now m b with
  | none => exact ⟨le_rfl, by simp [counted]⟩
  | some e =>
    obtain ⟨-, hcount, hlt⟩ := h _ e (held_eq_some_iff.mp hheld).1
    simp only [counted]
    split_ifs
    · exact ⟨hcount, hlt⟩
    · exact ⟨le_rfl, by norm_num⟩

theorem evalBucket64_eq (h : AllBounded now m) (hb : Sized b) (hclock : now < clockEnd) :
    evalBucket64 now (held now m b) b = some (evalBucket now (held now m b) b) := by
  unfold evalBucket64 evalBucket
  cases ha : b.algorithm with
  | gcraID =>
    rw [evalGCRA64_eq (hb.checked .gcra ha) hb.one_le_cost hclock (h.arrival_le b)]
    rfl
  | fixedWindowID =>
    obtain ⟨hcount, hlt⟩ := h.counted_bounds b (windowStart now (periodMicros b.window))
    rw [evalFixed64_eq (hb.checked .fixedWindow ha) hb.requests hb.one_le_cost hb.cost_le hclock
      hcount hlt]
    rfl
  | unregistered code free => rfl

theorem evalAll64_eq (h : AllBounded now m) (hbs : ∀ b ∈ bs, Sized b) (hclock : now < clockEnd) :
    evalAll64 now m bs = some (evalAll now m bs) := by
  induction bs generalizing m with
  | nil => rfl
  | cons b bs ih =>
    obtain ⟨hb, hbs⟩ := List.forall_mem_cons.mp hbs
    have hfetched : AllBounded now (fetch now m b).1 := by
      intro k e he
      by_cases hk : k = b.key
      · subst hk
        rw [lookup_fetch_self] at he
        exact h _ e (held_eq_some_iff.mp he).1
      · exact h k e ((lookup_fetch_of_ne hk).symm.trans he)
    simp only [evalAll64, evalAll_cons, fetch_snd, evalBucket64_eq h hb hclock, Option.bind_eq_bind,
      Option.bind_some]
    cases evalBucket now (held now m b) b with
    | error msg => rfl
    | ok o =>
      simp only [ih hfetched hbs, Option.bind_some]
      rfl

theorem bounded_next (h : AllBounded now m) (hb : Sized b) {a : Algorithm} (ha : b.algorithm = a.id)
    (hallowed : (outcome now m b).allowed = true) :
    Bounded now (outcome now m b).next := by
  cases a with
  | gcra =>
    have htau := (tauMicros_le (hb.checked .gcra ha)).2
    rw [outcome_of_gcra ha] at hallowed ⊢
    obtain ⟨hburst, hfits⟩ := evalGCRA_allowed_iff.mp hallowed
    rw [evalGCRA_next hburst]
    exact ⟨by dsimp only; omega, le_rfl, by norm_num⟩
  | fixedWindow =>
    obtain ⟨hcount, -⟩ := h.counted_bounds b (windowStart now (periodMicros b.window))
    have hcost := hb.one_le_cost
    have hreq := hb.requests
    rw [outcome_of_fixedWindow ha] at hallowed ⊢
    rw [evalFixed_allowed_iff] at hallowed
    refine ⟨?_, ?_, ?_⟩
    · unfold maxTauMicros
      dsimp only [evalFixed]
      omega
    · dsimp only [evalFixed]
      omega
    · dsimp only [evalFixed]
      omega

theorem storeCall64_eq {c : Call} (h : AllBounded c.now m) (hc : ∀ b ∈ c.op.buckets, Sized b)
    (hclock : c.now < clockEnd) : storeCall64 m c = some (storeCall m c) := by
  obtain ⟨now, op⟩ := c
  cases op with
  | decide bs =>
    have hall : evalAll64 now m bs = some (evalAll now m bs) := evalAll64_eq h hc hclock
    simp only [storeCall64, storeCall, storeDecide64, storeDecide]
    cases guardBuckets bs with
    | error msg => rfl
    | ok u =>
      simp only [hall, Option.bind_eq_bind, Option.bind_some]
      cases (evalAll now m bs).2 with
      | error msg => rfl
      | ok outs => rfl
  | peek bs =>
    have hall : evalAll64 now m bs = some (evalAll now m bs) := evalAll64_eq h hc hclock
    simp only [storeCall64, storeCall, storePeek64, storePeek]
    cases guardBuckets bs with
    | error msg => rfl
    | ok u =>
      simp only [hall, Option.bind_eq_bind, Option.bind_some]
      rfl
  | reset ks => rfl

theorem AllBounded.storeCall {c : Call} (h : AllBounded c.now m)
    (hc : ∀ b ∈ c.op.buckets, Sized b) : AllBounded c.now (storeCall m c).1 := by
  intro k e he
  refine entry_storeCall (h k) (fun bs b hb hmem _ => ?_) he
  obtain ⟨a, ha⟩ := hb.registered b hb.mem
  exact bounded_next h (hc b hmem) ha hb.allowed

end Runs

end Ratelimit.Memory
