import Ratelimit.Store.Observation

/-!
# The counters never over-admit

Along every run the stored arrival time stays ahead of the cost charged so far, in units of
the emission interval, and a fixed window's count is the cost charged in it.
-/
namespace Ratelimit.Memory

open Algo Store Library

/-- The cost a call charged to a key, by its answer: an admitted decision
charges the buckets whose verdict allows. -/
def charge (k : Text) (c : Call) (answer : Answer) : ℤ :=
  match c.op, answer with
  | .decide bs, .ok vs =>
    if admitted bs vs then
      ((bs.zip vs).map fun p => if p.1.key = k ∧ p.2.allowed = true then p.1.cost else 0).sum
    else 0
  | _, _ => 0

def chargeDuring (k : Text) (during : ℕ → Bool) (c : Call) (answer : Answer) : ℤ :=
  if during c.now then charge k c answer else 0

/-- The total cost charged to a key at the chosen times of a run from the empty store. -/
def totalCharged (k : Text) (during : ℕ → Bool) (calls : List Call) : ℤ :=
  tally (chargeDuring k during) calls (runs storeCall ∅ calls).2

section Charge

variable {a : ID} {m : Entries} {b : Bucket} {bs : List Bucket} {k : Text} {c : Call}

theorem sum_costs_eq_zero {f : Bucket → Bool} (h : ∀ b ∈ bs, b.key = k → f b = false) :
    (bs.map fun b => if b.key = k ∧ f b = true then b.cost else 0).sum = 0 := by
  induction bs with
  | nil => rfl
  | cons b bs ih =>
    obtain ⟨hb, hbs⟩ := List.forall_mem_cons.mp h
    have hskip : ¬(b.key = k ∧ f b = true) := fun hk => by simp [hb hk.1] at hk
    rw [List.map_cons, List.sum_cons, if_neg hskip, ih hbs, add_zero]

theorem sum_costs_eq_cost {f : Bucket → Bool} (hnd : (bs.map Bucket.key).Nodup) (hb : b ∈ bs)
    (hf : f b = true) :
    (bs.map fun c => if c.key = b.key ∧ f c = true then c.cost else 0).sum = b.cost := by
  induction bs with
  | nil => simp at hb
  | cons c bs ih =>
    obtain ⟨hc, hnd⟩ := List.nodup_cons.mp hnd
    rw [List.map_cons, List.sum_cons]
    rcases List.mem_cons.mp hb with rfl | hb
    · rw [if_pos ⟨rfl, hf⟩, sum_costs_eq_zero, add_zero]
      intro d hd he
      exact absurd (he ▸ List.mem_map_of_mem hd) hc
    · have hne : c.key ≠ b.key := fun he => hc (he ▸ List.mem_map_of_mem hb)
      rw [if_neg (fun h => hne h.1), ih hnd hb, zero_add]

theorem charge_storeDecide {now : ℕ} (hg : guardBuckets bs = .ok ()) (hreg : Registered bs) :
    charge k ⟨now, .decide bs⟩ (storeDecide now m bs).2 =
      if admits now m bs = true then
        (bs.map fun b => if b.key = k ∧ (outcome now m b).allowed = true then b.cost else 0).sum
      else 0 := by
  simp only [charge, storeDecide_snd hg hreg, admitted_answered, zip_outcomes, List.map_map,
    Function.comp_def, answered_allowed]

theorem charge_of_charges {now : ℕ} (hb : Charges now m bs b) :
    charge b.key ⟨now, .decide bs⟩ (storeDecide now m bs).2 = b.cost := by
  rw [charge_storeDecide hb.guard hb.registered, if_pos hb.admitted]
  exact sum_costs_eq_cost (f := fun b => (outcome now m b).allowed)
    (guardBuckets_ok_iff.mp hb.guard).2 hb.mem hb.allowed

theorem chargeDuring_eq_zero {during : ℕ → Bool} {answer : Answer} (h : charge k c answer = 0) :
    chargeDuring k during c answer = 0 := by
  unfold chargeDuring
  split_ifs
  · exact h
  · rfl

/-- A call without resets charges nothing to a key and leaves its live entry, or
charges one bucket's cost and writes its next entry. -/
theorem storeCall_key (htag : TaggedAt a k m)
    (huse : ∀ b ∈ c.op.buckets, b.key = k → b.algorithm = a) (hreset : ∀ ks, c.op ≠ .reset ks) :
    (charge k c (storeCall m c).2 = 0 ∧ live c.now (storeCall m c).1 k = live c.now m k) ∨
      ∃ bs b, c.op = .decide bs ∧ Charges c.now m bs b ∧ b.key = k ∧
        charge k c (storeCall m c).2 = b.cost ∧
        (storeCall m c).1.lookup k = some (outcome c.now m b).next := by
  obtain ⟨now, op⟩ := c
  cases op with
  | reset ks => exact absurd rfl (hreset ks)
  | peek bs =>
    refine Or.inl ⟨rfl, ?_⟩
    simp only [storeCall, storePeek]
    cases guardBuckets bs with
    | error msg => rfl
    | ok u => exact htag.live_evalAll huse
  | decide bs =>
    have heval : live now (evalAll now m bs).1 k = live now m k := htag.live_evalAll huse
    cases hg : guardBuckets bs with
    | error msg => exact Or.inl ⟨by simp [storeCall, storeDecide, hg, charge], by
        simp [storeCall, storeDecide, hg]⟩
    | ok u =>
      by_cases hreg : Registered bs
      · by_cases hb : ∃ b, Charges now m bs b ∧ b.key = k
        · obtain ⟨b, hb, rfl⟩ := hb
          exact Or.inr ⟨bs, b, rfl, hb, rfl, charge_of_charges hb, hb.lookup_eq⟩
        · left
          constructor
          · simp only [storeCall, charge_storeDecide hg hreg]
            split_ifs with hadmits
            · apply sum_costs_eq_zero (f := fun b => (outcome now m b).allowed)
              intro b hmem hk
              by_contra hallow
              exact hb ⟨b, ⟨hg, hreg, hmem, hadmits, by simpa using hallow⟩, hk⟩
            · rfl
          · by_cases hk : k ∈ bs.map Bucket.key
            · obtain ⟨b, hmem, rfl⟩ := List.mem_map.mp hk
              have hno : ¬(admits now m bs && (outcome now m b).allowed) = true := by
                intro h
                obtain ⟨hadmits, hallow⟩ := Bool.and_eq_true_iff.mp h
                exact hb ⟨b, ⟨hg, hreg, hmem, hadmits, hallow⟩, rfl⟩
              obtain rfl := huse b hmem rfl
              simp only [storeCall]
              rw [live, lookup_storeDecide_of_mem hg hreg hmem, if_neg hno, htag.held_eq_live,
                ← live_later le_rfl]
            · exact live_of_lookup (lookup_storeDecide_of_not_mem hk)
      · obtain ⟨msg, hmsg⟩ := evalAll_snd_of_not_registered (m := m) now hreg
        left
        simp only [storeCall, storeDecide, hg, hmsg]
        exact ⟨rfl, heval⟩

end Charge

section Gcra

variable {m : Entries} {b : Bucket} {bs : List Bucket} {k : Text} {c : Call} {w : Window}

/-- The arrival time the next charge of a key starts from. -/
def reach (now : ℤ) (m : Entries) (k : Text) : ℤ := arrival (live now m k) now

/-- What is stored under the key is GCRA state, which expires at its arrival time. -/
def GcraAt (k : Text) (m : Entries) : Prop :=
  ∀ e, m.lookup k = some e → e.algorithm = .gcraID ∧ e.deadline = e.tat

theorem le_reach {now : ℤ} : now ≤ reach now m k := le_arrival _ now

theorem reach_mono {now now' : ℤ} (h : GcraAt k m) (hle : now ≤ now') :
    reach now m k ≤ reach now' m k := by
  unfold reach live
  cases hl : m.lookup k with
  | none => simpa [arrival] using hle
  | some e =>
    obtain ⟨-, hdead⟩ := h e hl
    by_cases hlate : now' < e.deadline
    · have hnow : now < e.deadline := by omega
      rw [hdead] at hlate hnow
      simp [Option.filter, arrival, hdead, hlate, hnow]
    · by_cases hnow : now < e.deadline
      · rw [hdead] at hlate hnow
        simp [Option.filter, arrival, hdead, hlate, hnow]
        omega
      · simpa [Option.filter, arrival, hlate, hnow] using hle

theorem gcraAt_storeCall (h : GcraAt k m)
    (huse : ∀ b ∈ c.op.buckets, b.key = k → b.algorithm = .gcraID) :
    GcraAt k (storeCall m c).1 := by
  intro e he
  refine entry_storeCall h (fun bs b hb hmem hkey => ?_) he
  have hallow := hb.allowed
  rw [outcome_of_gcra (huse b hmem hkey)] at hallow ⊢
  rw [evalGCRA_next (evalGCRA_allowed_iff.mp hallow).1]
  exact ⟨rfl, rfl⟩

/-- A charge moves the arrival time forward by the cost, and an admitted one
leaves it within the bucket's depth. -/
theorem reach_of_charges {now : ℕ} (h : GcraAt b.key m) (hb : Charges now m bs b)
    (hgcra : b.algorithm = .gcraID) {m' : Entries}
    (hl : m'.lookup b.key = some (outcome now m b).next) :
    reach now m' b.key = reach now m b.key + emissionMicros b.window * b.cost ∧
      reach now m' b.key ≤ now + tauMicros b.window := by
  have hguard := (guardBuckets_ok_iff.mp hb.guard).1 b hb.mem
  have htag : TaggedAt b.algorithm b.key m := fun e he => (h e he).1.trans hgcra.symm
  have hallow := hb.allowed
  rw [outcome_of_gcra hgcra] at hallow hl
  obtain ⟨hburst, hdepth⟩ := evalGCRA_allowed_iff.mp hallow
  rw [evalGCRA_next hburst] at hl
  rw [htag.held_eq_live] at hl hdepth
  have hstep : 1 ≤ emissionMicros b.window * b.cost :=
    one_le_mul_of_one_le_of_one_le
      (one_le_emissionMicros hguard.2.1 hguard.one_le_periodMicros) hguard.1
  have hreach : (now : ℤ) ≤ reach now m b.key := le_reach
  have hnew : reach now m' b.key = reach now m b.key + emissionMicros b.window * b.cost := by
    unfold reach at hreach ⊢
    have hlater : (now : ℤ) <
        arrival (live now m b.key) now + emissionMicros b.window * b.cost := by
      omega
    rw [live_eq_some hl hlater]
    exact if_pos hlater
  refine ⟨hnew, ?_⟩
  rw [hnew]
  unfold reach
  omega

/-- The call counts, and uses the key with this algorithm in a window that satisfies `ok`. -/
structure CountsWith (k : Text) (a : ID) (ok : Window → Prop) (c : Call) : Prop where
  counting : ∀ ks, c.op ≠ .reset ks
  uses : ∀ b ∈ c.op.buckets, b.key = k → b.algorithm = a ∧ ok b.window

/-- The cost charged during `[s, s + T]` is covered by the distance the arrival
time has moved past `s`, and never exceeds the depth and the elapsed time. -/
structure GcraCovered (w : Window) (k : Text) (s T now : ℕ) (m : Entries) (total : ℤ) : Prop where
  state : GcraAt k m
  covered : total = 0 ∨ emissionMicros w * total ≤ reach now m k - s
  bounded : emissionMicros w * total ≤ T + tauMicros w

theorem GcraCovered.later {s T now now' : ℕ} {total : ℤ} (h : GcraCovered w k s T now m total)
    (hle : now ≤ now') : GcraCovered w k s T now' m total := by
  refine ⟨h.state, h.covered.imp_right fun hc => hc.trans ?_, h.bounded⟩
  have := reach_mono h.state (by exact_mod_cast hle : (now : ℤ) ≤ now')
  omega

theorem gcraCovered_storeCall {s T : ℕ} {total : ℤ} (hc : CountsWith k .gcraID (· = w) c)
    (h : GcraCovered w k s T c.now m total) :
    GcraCovered w k s T c.now (storeCall m c).1
      (total + chargeDuring k (fun t => s ≤ t ∧ t ≤ s + T) c (storeCall m c).2) := by
  have hstate : GcraAt k (storeCall m c).1 :=
    gcraAt_storeCall h.state fun b hb hk => (hc.uses b hb hk).1
  have htag : TaggedAt .gcraID k m := fun e he => (h.state e he).1
  rcases storeCall_key htag (fun b hb hk => (hc.uses b hb hk).1) hc.counting with
    ⟨hzero, hlive⟩ | ⟨bs, b, hop, hb, rfl, hcost, hl⟩
  · have hreach : reach c.now (storeCall m c).1 k = reach c.now m k := by
      unfold reach
      rw [hlive]
    rw [chargeDuring_eq_zero hzero, add_zero]
    exact ⟨hstate, hreach ▸ h.covered, h.bounded⟩
  · obtain ⟨hgcra, rfl⟩ := hc.uses b (by simpa [hop, Op.buckets] using hb.mem) rfl
    obtain ⟨hnew, hdepth⟩ := reach_of_charges h.state hb hgcra hl
    have hguard := (guardBuckets_ok_iff.mp hb.guard).1 b hb.mem
    have hemission := one_le_emissionMicros hguard.2.1 hguard.one_le_periodMicros
    have hpos : 0 ≤ emissionMicros b.window * b.cost :=
      mul_nonneg (by omega) (by have := hguard.1; omega)
    have hnow : (c.now : ℤ) ≤ reach c.now m b.key := le_reach
    unfold chargeDuring
    split_ifs with hin
    · -- inside the interval both sides grow by the same step
      rw [hcost]
      simp only [decide_eq_true_eq] at hin
      have hcovered : emissionMicros b.window * (total + b.cost) ≤
          reach c.now (storeCall m c).1 b.key - s := by
        rw [mul_add]
        rcases h.covered with hz | hcov
        · rw [hz, mul_zero]
          omega
        · omega
      exact ⟨hstate, Or.inr hcovered, by omega⟩
    · rw [add_zero]
      exact ⟨hstate, h.covered.imp_right fun hcov => by omega, h.bounded⟩

theorem gcra_totalCharged_le {calls : List Call} {s T : ℕ} (hburst : 0 ≤ tauMicros w)
    (hclock : MonotoneFrom Call.now 0 calls)
    (hcalls : ∀ c ∈ calls, CountsWith k .gcraID (· = w) c) :
    emissionMicros w * totalCharged k (fun t => s ≤ t ∧ t ≤ s + T) calls ≤ T + tauMicros w := by
  have hstart : GcraCovered w k s T 0 ∅ 0 := by
    refine ⟨fun e he => by simp at he, Or.inl rfl, ?_⟩
    rw [mul_zero]
    omega
  have hend := invariant_tally (GcraCovered w k s T) (fun t t' m x hle h => h.later hle)
    (fun m c x hc h => gcraCovered_storeCall hc h) calls 0 ∅ 0 hclock hcalls hstart
  simpa [totalCharged] using hend.bounded

end Gcra

section FixedWindow

variable {m : Entries} {b : Bucket} {bs : List Bucket} {k : Text} {c : Call} {period : ℤ}

/-- What is stored under the key is the count of the current window or of an
earlier one. -/
def FixedAt (period : ℤ) (now : ℕ) (k : Text) (m : Entries) : Prop :=
  ∀ e, m.lookup k = some e → e.algorithm = .fixedWindowID ∧ e.deadline = e.start + period ∧
    e.start ≤ windowStart now period

/-- The cost charged in the current window is what the store counts. -/
structure FixedCounted (period start : ℤ) (k : Text) (now : ℕ) (m : Entries) (total : ℤ) :
    Prop where
  state : FixedAt period now k m
  before : windowStart now period < start → total = 0
  current : windowStart now period = start → total = counted (live now m k) start

theorem live_eq_some_iff {now : ℤ} {e : Entry} :
    live now m k = some e ↔ m.lookup k = some e ∧ now < e.deadline := by
  simp [live, Option.filter_eq_some_iff]

theorem FixedCounted.later {start total : ℤ} {now now' : ℕ} (hp : 1 ≤ period)
    (h : FixedCounted period start k now m total) (hle : now ≤ now') :
    FixedCounted period start k now' m total := by
  have hmono := windowStart_mono hp hle
  refine ⟨?_, fun hlt => h.before (by omega), fun hcur => ?_⟩
  · intro e he
    obtain ⟨halg, hdead, hstart⟩ := h.state e he
    exact ⟨halg, hdead, by omega⟩
  · by_cases hnow : windowStart now period = start
    · -- an entry of the current window lives until its end
      rw [h.current hnow]
      have hend : (now' : ℤ) < windowStart now' period + period := lt_windowStart_add hp
      cases hl : m.lookup k with
      | none => simp [live, hl]
      | some e =>
        obtain ⟨-, hdead, -⟩ := h.state e hl
        by_cases hs : e.start = start
        · rw [live_eq_some hl (by omega), live_eq_some hl (by omega)]
        · have hzero : ∀ t, counted (live t m k) start = 0 := by
            intro t
            apply counted_eq_zero
            intro x hx
            rw [live_eq_some_iff, hl, Option.some.injEq] at hx
            exact hx.1 ▸ hs
          rw [hzero, hzero]
    · rw [h.before (by omega), counted_eq_zero]
      intro x hx
      have := (h.state x (live_eq_some_iff.mp hx).1).2.2
      omega

/-- The entry a charge writes, and why the count stays within the limit. -/
theorem counted_of_charges {now : ℕ} (h : FixedAt (periodMicros b.window) now b.key m)
    (hb : Charges now m bs b) (hfixed : b.algorithm = .fixedWindowID) :
    let start := windowStart now (periodMicros b.window)
    (outcome now m b).next =
      ⟨.fixedWindowID, 0, start, counted (live now m b.key) start + b.cost,
        start + periodMicros b.window⟩ ∧
      counted (live now m b.key) start + b.cost ≤ b.window.requests := by
  intro start
  have hguard := (guardBuckets_ok_iff.mp hb.guard).1 b hb.mem
  have htag : TaggedAt b.algorithm b.key m := fun e he => (h e he).1.trans hfixed.symm
  have hallow := hb.allowed
  rw [outcome_of_fixedWindow hfixed, htag.held_eq_live] at hallow ⊢
  refine ⟨rfl, ?_⟩
  have hleft := evalFixed_allowed_iff.mp hallow
  have hcost := hguard.1
  change b.cost ≤ max (b.window.requests - counted (live now m b.key) start) 0 at hleft
  omega

theorem fixedAt_storeCall (h : FixedAt period c.now k m)
    (hc : CountsWith k .fixedWindowID (fun w => periodMicros w = period) c) :
    FixedAt period c.now k (storeCall m c).1 := by
  intro e he
  refine entry_storeCall h (fun bs b hb hmem hkey => ?_) he
  subst hkey
  obtain ⟨hfixed, rfl⟩ := hc.uses b hmem rfl
  rw [(counted_of_charges h hb hfixed).1]
  exact ⟨rfl, rfl, le_rfl⟩

theorem fixedCounted_storeCall {start total : ℤ} (hp : 1 ≤ period)
    (hc : CountsWith k .fixedWindowID (fun w => periodMicros w = period) c)
    (h : FixedCounted period start k c.now m total) :
    FixedCounted period start k c.now (storeCall m c).1
      (total + chargeDuring k (fun t => windowStart t period = start) c (storeCall m c).2) := by
  have hstate := fixedAt_storeCall h.state hc
  have htag : TaggedAt .fixedWindowID k m := fun e he => (h.state e he).1
  rcases storeCall_key htag (fun b hb hk => (hc.uses b hb hk).1) hc.counting with
    ⟨hzero, hlive⟩ | ⟨bs, b, hop, hb, rfl, hcost, hl⟩
  · rw [chargeDuring_eq_zero hzero, add_zero]
    exact ⟨hstate, h.before, fun hcur => hlive ▸ h.current hcur⟩
  · obtain ⟨hfixed, rfl⟩ := hc.uses b (by simpa [hop, Op.buckets] using hb.mem) rfl
    have hnext := (counted_of_charges h.state hb hfixed).1
    rw [hnext] at hl
    have hnow : (c.now : ℤ) < windowStart c.now (periodMicros b.window) + periodMicros b.window :=
      lt_windowStart_add hp
    unfold chargeDuring
    split_ifs with hin
    · simp only [decide_eq_true_eq] at hin
      subst hin
      refine ⟨hstate, fun hlt => absurd hlt (lt_irrefl _), fun _ => ?_⟩
      rw [live_eq_some hl hnow, hcost, h.current rfl]
      exact (if_pos rfl).symm
    · simp only [decide_eq_true_eq] at hin
      rw [add_zero]
      exact ⟨hstate, h.before, fun hcur => absurd hcur hin⟩

theorem fixed_totalCharged_le {calls : List Call} {now : ℕ}
    (hb : Charges now (runs storeCall ∅ calls).1 bs b)
    (hclock : MonotoneFrom Call.now 0 (calls ++ [⟨now, .decide bs⟩]))
    (hcalls : ∀ c ∈ calls ++ [⟨now, .decide bs⟩],
      CountsWith b.key .fixedWindowID (fun w => periodMicros w = periodMicros b.window) c) :
    totalCharged b.key
        (fun t => windowStart t (periodMicros b.window) = windowStart now (periodMicros b.window))
        (calls ++ [⟨now, .decide bs⟩]) ≤ b.window.requests := by
  have hguard := (guardBuckets_ok_iff.mp hb.guard).1 b hb.mem
  have hp := hguard.one_le_periodMicros
  have hlast := hcalls ⟨now, .decide bs⟩ (by simp)
  obtain ⟨hclock, hnow⟩ := monotoneFrom_append.mp hclock
  have hstart : FixedCounted (periodMicros b.window) (windowStart now (periodMicros b.window))
      b.key 0 ∅ 0 :=
    ⟨fun e he => by simp at he, fun _ => rfl, fun _ => rfl⟩
  have hbefore := invariant_tally (FixedCounted (periodMicros b.window) _ b.key)
    (fun t t' m x hle h => h.later hp hle) (fun m c x hc h => fixedCounted_storeCall hp hc h)
    calls 0 ∅ 0 hclock (fun c hc => hcalls c (List.mem_append_left _ hc)) hstart
  have hheld := hbefore.later hp hnow.1
  obtain ⟨hfixed, -⟩ := hlast.uses b hb.mem rfl
  have hcount := (counted_of_charges hheld.state hb hfixed).2
  rw [← hheld.current rfl, zero_add] at hcount
  unfold totalCharged
  rw [tally_runs_append]
  simp only [runs_cons, tally, chargeDuring, decide_true, if_true, add_zero]
  exact charge_of_charges hb ▸ hcount

end FixedWindow

/-- Over every run from the empty store: in any interval a GCRA key with one window is charged at most
its burst and what the interval emits, and a fixed window at most the limit that the last charging
decision carried. -/
theorem totalCharged_le :
    (∀ (w : Window) (k : Text) (calls : List Call) (s T : ℕ), check .gcra w = .ok () →
      MonotoneFrom Call.now 0 calls → (∀ c ∈ calls, CountsWith k .gcraID (· = w) c) →
      totalCharged k (fun t => s ≤ t ∧ t ≤ s + T) calls ≤ w.burst + T / emissionMicros w ∧
      (totalCharged k (fun t => s ≤ t ∧ t ≤ s + T) calls : ℚ) ≤
        w.burst + T * w.requests / periodMicros w) ∧
    (∀ (k : Text) (period : ℤ) (calls : List Call) (now : ℕ) (bs : List Bucket)
      (vs : List Verdict) (b : Bucket) (v : Verdict),
      MonotoneFrom Call.now 0 (calls ++ [⟨now, .decide bs⟩]) →
      (∀ c ∈ calls ++ [⟨now, .decide bs⟩],
        CountsWith k .fixedWindowID (fun w => w.period = period) c) →
      (storeDecide now (runs storeCall ∅ calls).1 bs).2 = .ok vs → admitted bs vs = true →
      (b, v) ∈ bs.zip vs → b.key = k → v.allowed = true →
      totalCharged k
        (fun t => windowStart t (periodMicros b.window) = windowStart now (periodMicros b.window))
        (calls ++ [⟨now, .decide bs⟩]) ≤ b.window.requests) := by
  constructor
  · intro w k calls s T hcheck hclock hcalls
    have hreq := one_le_requests hcheck
    have hmicros := Algo.one_le_periodMicros hcheck
    have hemission := one_le_emissionMicros hreq hmicros
    have hburst := (gcra_bounds hcheck).1
    have htau : 0 ≤ tauMicros w := mul_nonneg (by omega) (by omega)
    have hbound := gcra_totalCharged_le (s := s) (T := T) htau hclock hcalls
    set total := totalCharged k (fun t => s ≤ t ∧ t ≤ s + T) calls
    have hfloor : total ≤ w.burst + T / emissionMicros w := by
      have hle : total - w.burst ≤ T / emissionMicros w := by
        apply Int.le_ediv_of_mul_le (by omega)
        unfold tauMicros at hbound
        nlinarith
      omega
    refine ⟨hfloor, ?_⟩
    have hrate := periodMicros_le_emission_mul hreq hmicros
    have hP : (0 : ℚ) < periodMicros w := by exact_mod_cast hmicros
    have hE : (0 : ℚ) < emissionMicros w := by exact_mod_cast hemission
    have hrateQ : (periodMicros w : ℚ) ≤ emissionMicros w * w.requests := by exact_mod_cast hrate
    have hboundQ : (emissionMicros w * total : ℚ) ≤ T + emissionMicros w * w.burst := by
      exact_mod_cast hbound
    calc (total : ℚ) ≤ w.burst + T / emissionMicros w := by
          rw [← sub_le_iff_le_add', le_div_iff₀ hE]
          linarith
      _ ≤ w.burst + T * w.requests / periodMicros w := by
          rw [add_le_add_iff_left, div_le_div_iff₀ hE hP]
          have hT : (0 : ℚ) ≤ T := by positivity
          nlinarith
  · intro k period calls now bs vs b v hclock hcalls hvs hadmitted hmem hk hallow
    subst hk
    obtain ⟨hg, hreg, rfl⟩ := storeDecide_ok hvs
    rw [admitted_answered] at hadmitted
    rw [zip_outcomes] at hmem
    obtain ⟨b', hb', heq⟩ := List.mem_map.mp hmem
    obtain ⟨rfl, rfl⟩ := Prod.mk.inj heq
    rw [answered_allowed] at hallow
    have hlast := (hcalls ⟨now, .decide bs⟩ (by simp)).uses b' hb' rfl
    apply fixed_totalCharged_le ⟨hg, hreg, hb', hadmitted, hallow⟩ hclock
    intro c hc
    refine ⟨(hcalls c hc).counting, fun d hd hk => ?_⟩
    obtain ⟨halg, hper⟩ := (hcalls c hc).uses d hd hk
    refine ⟨halg, ?_⟩
    unfold periodMicros
    rw [hper, hlast.2]

theorem totalCharged_le_sideBySide :
    let b : Bucket := ⟨ascii "rate", .gcraID, ⟨2, second, 2⟩, false, 1⟩
    let c : Bucket := ⟨ascii "quota", .fixedWindowID, ⟨4, second, 0⟩, true, 2⟩
    let first : Call := ⟨4, .decide [b, c]⟩
    totalCharged b.key (fun t => 0 ≤ t ∧ t ≤ 0 + 9) [first, ⟨5, .peek [b]⟩] ≤
        2 + (9 : ℕ) / emissionMicros b.window ∧
      totalCharged c.key (fun t => windowStart t (periodMicros c.window) =
        windowStart (5 : ℕ) (periodMicros c.window)) ([first] ++ [⟨5, .decide [c]⟩]) ≤ 4 := by
  intro b c first
  constructor
  · refine (totalCharged_le.1 b.window b.key _ 0 9 (by decide) (by decide) ?_).1
    intro d hd
    refine ⟨?_, ?_⟩ <;> fin_cases hd <;> simp [first, Op.buckets, b, c, ascii, byte]
  · refine totalCharged_le.2 c.key second [first] 5 [c] [⟨true, 0, false, -1, 999995000⟩] c
      ⟨true, 0, false, -1, 999995000⟩ (by decide) ?_ (by decide +kernel) rfl (by decide) rfl
      rfl
    intro d hd
    refine ⟨?_, ?_⟩ <;> fin_cases hd <;> simp [first, Op.buckets, b, c, ascii, byte]

end Ratelimit.Memory
