import Ratelimit.Store.Redis
import Ratelimit.Store.Observation
import Ratelimit.Base.Rate

/-!
# One bucket through the script

The script keeps a text with a lifetime where the in-memory store keeps a deadline-stamped
entry. A text outlives the deadline of its entry, and is then read without effect. So a row of
the script is the in-memory outcome.
-/
namespace Ratelimit.Redis

open Algo Store Library Memory

def encode (e : Entry) : Text :=
  match e.algorithm with
  | .gcraID => Strconv.formatInt e.tat
  | _ => Strconv.formatInt e.start ++ byte ':' :: Strconv.formatInt e.count

/-- An entry one of the algorithms wrote at or before `now`. -/
structure Written (a : Algorithm) (period now : ℤ) (e : Entry) : Prop where
  algorithm : e.algorithm = a.id
  gcra : a = .gcra → e.deadline = e.tat ∧ 0 ≤ e.tat ∧ e.tat ≤ now + maxTauMicros
  fixed : a = .fixedWindow → e.deadline = e.start + period ∧ 0 ≤ e.start ∧ e.start ≤ now ∧
    0 ≤ e.count ∧ e.count < 2 ^ 31

/-- Redis holds under the key what the in-memory store has there, or a text
whose entry has expired in memory. -/
structure Mirrors (a : Algorithm) (period now : ℤ) (k : Text) (m : Entries) (db : Db) : Prop where
  tagged : TaggedAt a.id k m
  absent : db.lookup k = none → live now m k = none
  present : ∀ v, db.lookup k = some v → ∃ e, Written a period now e ∧ v.value = encode e ∧
    e.deadline ≤ v.expireAt ∧ live now m k = if now < e.deadline then some e else none

structure Contracted (alg : Text → Algorithm) (period : Text → ℤ) (b : Bucket) : Prop where
  algorithm : b.algorithm = (alg b.key).id
  checked : check (alg b.key) b.window = .ok ()
  period : b.window.period = period b.key
  requests : b.window.requests < 2 ^ 31
  burst : b.window.burst < 2 ^ 31
  cost : b.cost < 2 ^ 31

theorem ceil_div_bounds {sc : ℤ} (h : 0 < sc) : 0 < -(-sc / 1000) ∧ sc ≤ 1000 * -(-sc / 1000) := by
  omega

theorem microsDuration_neg_one : microsDuration (-1) = -1 := rfl

theorem microsDuration_of_nonneg {us : ℤ} (h : 0 ≤ us) :
    microsDuration us = Memory.microsDuration us :=
  if_neg (not_lt.mpr h)

section Rows

variable {lua : Lua} {now : ℕ} {m : Entries} {db : Db} {b : Bucket}

theorem readVerdicts_plain (row : Row) (rest : List ℤ) :
    readVerdicts (row.plain ++ rest) =
      ⟨row.allowed, row.remaining, row.exceeds, microsDuration row.retry,
        microsDuration row.reset⟩ :: readVerdicts rest := by
  obtain ⟨allowed, exceeds, remaining, retry, reset, charged⟩ := row
  cases allowed <;> cases exceeds <;> rfl

theorem readVerdicts_patched (c : Charged) (rest : List ℤ) :
    readVerdicts (c.patched ++ rest) =
      ⟨true, c.rc, false, -1, microsDuration c.sc⟩ :: readVerdicts rest := rfl

/-- A row of the script and the in-memory outcome of the same bucket. -/
structure RowMatches (lua : Lua) (now : ℤ) (row : Row) (o : Outcome) : Prop where
  allowed : row.allowed = o.allowed
  plain : ∀ rest, readVerdicts (row.plain ++ rest) = currentVerdict o :: readVerdicts rest
  refused : o.allowed = false → row.charged = none
  charged : o.allowed = true → ∃ c, row.charged = some c ∧
    (∀ rest, readVerdicts (c.patched ++ rest) = chargedVerdict o :: readVerdicts rest) ∧
    c.state lua = encode o.next ∧ c.sc = o.next.deadline - now ∧ 0 < c.sc ∧ c.sc < lua.limit

theorem arrival_bounds {period : ℤ} {k : Text} (h : Mirrors .gcra period now k m db) :
    (now : ℤ) ≤ arrival (live now m k) now ∧
      arrival (live now m k) now ≤ now + maxTauMicros := by
  cases hv : db.lookup k with
  | none =>
    have hnone : arrival none (now : ℤ) = now := rfl
    rw [h.absent hv, hnone]
    unfold maxTauMicros
    omega
  | some v =>
    obtain ⟨e, hw, -, -, hlive⟩ := h.present v hv
    obtain ⟨hdead, hpos, hle⟩ := hw.gcra rfl
    rw [hlive, hdead]
    unfold arrival maxTauMicros at *
    split_ifs
    · simp only
      split_ifs
      omega
    · simp only
      omega

theorem counted_bounds {period start : ℤ} {k : Text} (h : Mirrors .fixedWindow period now k m db) :
    0 ≤ counted (live now m k) start ∧ counted (live now m k) start < 2 ^ 31 := by
  cases hl : live now m k with
  | none => exact ⟨le_rfl, by simp [counted]⟩
  | some e =>
    cases hv : db.lookup k with
    | none => simp [h.absent hv] at hl
    | some v =>
      obtain ⟨e', hw, -, -, hlive⟩ := h.present v hv
      obtain ⟨-, -, -, hc0, hc⟩ := hw.fixed rfl
      rw [hl] at hlive
      split_ifs at hlive
      obtain rfl := Option.some.inj hlive
      unfold counted
      dsimp only
      split_ifs
      · exact ⟨hc0, hc⟩
      · exact ⟨le_rfl, by decide⟩

variable (hlimit : (now : ℤ) + 2 * maxTauMicros < lua.limit)
include hlimit

theorem stateTat_eq {period : ℤ} {k : Text} (h : Mirrors .gcra period now k m db) :
    stateTat lua now ((db.lookup k).map Stored.value) = arrival (live now m k) now := by
  unfold stateTat
  cases hv : db.lookup k with
  | none => simp [h.absent hv, arrival]
  | some v =>
    obtain ⟨e, hw, hvalue, -, hlive⟩ := h.present v hv
    obtain ⟨hdead, hpos, hle⟩ := hw.gcra rfl
    have hread : lua.tonumber v.value = some e.tat := by
      rw [hvalue, encode, hw.algorithm]
      apply lua.tonumber_exact
      unfold Within maxTauMicros at *
      omega
    simp only [Option.map_some, Option.bind_some, hread, hlive, hdead]
    by_cases hahead : (now : ℤ) < e.tat
    · simp [arrival, hahead]
    · simp [arrival, hahead]

theorem gcraRow_eq {tat cost emission tau burst : ℤ} {state : Option Text}
    (htat : stateTat lua now state = tat) (hlo : (now : ℤ) ≤ tat) (hhi : tat ≤ now + maxTauMicros)
    (hemission : 1 ≤ emission) (htau : tau = emission * burst) (hburst : 1 ≤ burst)
    (hmax : tau ≤ maxTauMicros) (hcost : 1 ≤ cost) :
    gcraRow lua now state cost emission tau burst =
      let current := nonNegative ((tau - (tat - now)).tdiv emission)
      let diff := now - (tat + emission * cost - tau)
      if burst < cost then ⟨false, true, current, -1, tat - now, none⟩
      else if 0 ≤ diff then
        ⟨true, false, current, -1, tat - now,
          some ⟨diff / emission, tat + emission * cost - now, tat + emission * cost, none⟩⟩
      else ⟨false, false, current, -diff, tat - now, none⟩ := by
  have hdeep : emission ≤ tau := htau ▸ le_mul_of_one_le_right (by omega) hburst
  have hwide : burst ≤ tau := htau ▸ le_mul_of_one_le_left (by omega) hemission
  unfold maxTauMicros at *
  by_cases hexceeds : burst < cost
  · simp (disch := first | omega | (unfold Within; omega)) only [gcraRow, htat, lua.sub_exact,
      lua.floorDiv_exact, nonNegative_tdiv, if_pos hexceeds]
  · have hstep : emission * cost ≤ tau :=
      htau ▸ mul_le_mul_of_nonneg_left (by omega) (by omega)
    have hpos : cost ≤ emission * cost := le_mul_of_one_le_left (by omega) hemission
    simp (disch := first | omega | (unfold Within; omega)) only [gcraRow, htat, lua.sub_exact,
      lua.add_exact, lua.mul_exact, lua.floorDiv_exact, nonNegative_tdiv, if_neg hexceeds]

theorem gcraRow_matches {period : ℤ} (h : Mirrors .gcra period now b.key m db)
    (hgcra : b.algorithm = .gcraID) (hcheck : check .gcra b.window = .ok ()) (hcost : 1 ≤ b.cost) :
    RowMatches lua now
      (gcraRow lua now ((db.lookup b.key).map Stored.value) b.cost (emissionMicros b.window)
        (tauMicros b.window) b.window.burst)
      (outcome now m b) := by
  obtain ⟨hlo, hhi⟩ := arrival_bounds h
  have hemission := one_le_emissionMicros (one_le_requests hcheck) (one_le_periodMicros hcheck)
  have htau := (tauMicros_le hcheck).2
  have htag : TaggedAt b.algorithm b.key m := hgcra ▸ h.tagged
  have hdef : tauMicros b.window = emissionMicros b.window * b.window.burst := rfl
  rw [gcraRow_eq hlimit (stateTat_eq hlimit h) hlo hhi hemission hdef (gcra_bounds hcheck).1 htau
    hcost, outcome_of_gcra hgcra, htag.held_eq_live]
  simp only [evalGCRA]
  set tat := arrival (live now m b.key) now
  have hreset : microsDuration (tat - now) = Memory.microsDuration (tat - now) :=
    microsDuration_of_nonneg (by omega)
  by_cases hexceeds : b.window.burst < b.cost
  · simp only [if_pos hexceeds]
    refine ⟨rfl, fun rest => ?_, fun _ => rfl, fun hallow => by simp at hallow⟩
    rw [readVerdicts_plain, microsDuration_neg_one, hreset]
    rfl
  · have hstep : emissionMicros b.window * b.cost ≤ tauMicros b.window :=
      mul_le_mul_of_nonneg_left (by omega) (by omega)
    have hpos : b.cost ≤ emissionMicros b.window * b.cost :=
      le_mul_of_one_le_left (by omega) hemission
    by_cases hdiff : 0 ≤ now - (tat + emissionMicros b.window * b.cost - tauMicros b.window)
    · simp only [if_neg hexceeds, if_pos hdiff, decide_eq_true hdiff]
      refine ⟨rfl, fun rest => ?_, fun hallow => by simp at hallow, fun _ => ⟨_, rfl, ?_⟩⟩
      · rw [readVerdicts_plain, microsDuration_neg_one, hreset]
        rfl
      · refine ⟨fun rest => ?_, ?_, rfl, ?_, ?_⟩
        · rw [readVerdicts_patched]
          simp only [chargedVerdict]
          rw [microsDuration_of_nonneg (by omega), nonNegative_tdiv (by omega),
            if_neg (not_lt.mpr (Int.ediv_nonneg hdiff (by omega)))]
        · apply lua.format_exact
          dsimp only
          unfold Within maxTauMicros at *
          omega
        · dsimp only
          omega
        · unfold maxTauMicros at *
          dsimp only
          omega
    · simp only [if_neg hexceeds, if_neg hdiff, decide_eq_false hdiff]
      refine ⟨rfl, fun rest => ?_, fun _ => rfl, fun hallow => by simp at hallow⟩
      rw [readVerdicts_plain]
      simp only [currentVerdict]
      rw [hreset, microsDuration_of_nonneg (by omega)]

theorem stateCount_eq {period : ℤ} {k : Text} (h : Mirrors .fixedWindow period now k m db)
    (hp : 1 ≤ period) :
    stateCount lua (windowStart now period) ((db.lookup k).map Stored.value) =
      counted (live now m k) (windowStart now period) := by
  cases hv : db.lookup k with
  | none =>
    rw [h.absent hv]
    rfl
  | some v =>
    obtain ⟨e, hw, hvalue, -, hlive⟩ := h.present v hv
    obtain ⟨hdead, hs0, hs, hc0, hc⟩ := hw.fixed rfl
    have henc : encode e =
        Strconv.formatInt e.start ++ byte ':' :: Strconv.formatInt e.count := by
      rw [encode, hw.algorithm]
      rfl
    have hmem : byte ':' ∈ encode e := by simp [henc]
    unfold maxTauMicros at hlimit
    have hstart : lua.tonumber (Strconv.formatInt e.start) = some e.start :=
      lua.tonumber_exact (by unfold Within; omega)
    have hcount : lua.tonumber (Strconv.formatInt e.count) = some e.count :=
      lua.tonumber_exact (by unfold Within; omega)
    simp only [Option.map_some, stateCount, hvalue, if_pos hmem]
    rw [henc, Strings.cut_append_sep (Strconv.colon_not_mem_formatInt _), hstart, hcount, hlive]
    by_cases heq : e.start = windowStart now period
    · have hnow : (now : ℤ) < windowStart now period + period := lt_windowStart_add hp
      rw [if_pos (by omega : (now : ℤ) < e.deadline)]
      simp [heq, counted]
    · have hother : ∀ x, (if (now : ℤ) < e.deadline then some e else none) = some x →
          x.start ≠ windowStart now period := by
        intro x hx
        split_ifs at hx
        exact Option.some.inj hx ▸ heq
      rw [counted_eq_zero hother, if_neg (by simpa using heq)]

theorem fixedRow_eq {count cost period requests : ℤ} {state : Option Text}
    (hcount : stateCount lua (windowStart now period) state = count) (h0 : 0 ≤ count)
    (h31 : count < 2 ^ 31) (hp : 1 ≤ period) (hday : period ≤ 86400000000) (hr : 1 ≤ requests)
    (hr31 : requests < 2 ^ 31) (hc : 1 ≤ cost) (hc31 : cost < 2 ^ 31) :
    fixedRow lua now state cost period requests =
      let left := max (requests - count) 0
      let boundary := windowStart now period + period - now
      { allowed := decide (cost ≤ left)
        exceeds := decide (requests < cost)
        remaining := left
        retry := if cost ≤ left ∨ requests < cost then -1 else boundary
        reset := if count = 0 then 0 else boundary
        charged :=
          if cost ≤ left then
            some ⟨left - cost, boundary, windowStart now period, some (count + cost)⟩
          else none } := by
  have hlo : windowStart now period ≤ now := windowStart_le hp
  have hhi : (now : ℤ) < windowStart now period + period := lt_windowStart_add hp
  unfold maxTauMicros at hlimit
  have hstart : lua.sub now (lua.mod now period) = windowStart now period := by
    have hmod : (now : ℤ).tmod period = now % period := Int.tmod_eq_emod_of_nonneg (by omega)
    unfold windowStart at hlo hhi ⊢
    rw [hmod] at hlo hhi ⊢
    rw [lua.mod_exact (by unfold Within; omega) (by omega) (by omega)]
    apply lua.sub_exact <;> unfold Within <;> omega
  have hmax :
      (if requests - count < 0 then 0 else requests - count) = max (requests - count) 0 := by
    split_ifs <;> omega
  simp (disch := (unfold Within; omega)) only [fixedRow, hstart, hcount, lua.sub_exact,
    lua.add_exact, hmax]

theorem fixedRow_matches (h : Mirrors .fixedWindow (periodMicros b.window) now b.key m db)
    (hfixed : b.algorithm = .fixedWindowID) (hcheck : check .fixedWindow b.window = .ok ())
    (hreq : b.window.requests < 2 ^ 31) (hcost : 1 ≤ b.cost) (hcost31 : b.cost < 2 ^ 31) :
    RowMatches lua now
      (fixedRow lua now ((db.lookup b.key).map Stored.value) b.cost (periodMicros b.window)
        b.window.requests)
      (outcome now m b) := by
  have hp := one_le_periodMicros hcheck
  have hday := (accepted_period hcheck).2
  have hlo : windowStart now (periodMicros b.window) ≤ now := windowStart_le hp
  have hhi : (now : ℤ) < windowStart now (periodMicros b.window) + periodMicros b.window :=
    lt_windowStart_add hp
  have hcount : 0 ≤ counted (live now m b.key) (windowStart now (periodMicros b.window)) ∧
      counted (live now m b.key) (windowStart now (periodMicros b.window)) < 2 ^ 31 :=
    counted_bounds h
  have htag : TaggedAt b.algorithm b.key m := hfixed ▸ h.tagged
  rw [fixedRow_eq hlimit (stateCount_eq hlimit h hp) hcount.1 hcount.2 hp hday
    (one_le_requests hcheck) hreq hcost hcost31, outcome_of_fixedWindow hfixed, htag.held_eq_live]
  simp only [evalFixed]
  set start := windowStart now (periodMicros b.window)
  set count := counted (live now m b.key) start
  set boundary := start + periodMicros b.window - now
  have hboundary : microsDuration boundary = Memory.microsDuration boundary :=
    microsDuration_of_nonneg (by omega)
  refine ⟨rfl, fun rest => ?_, fun hallow => ?_, fun hallow => ?_⟩
  · rw [readVerdicts_plain]
    simp only [currentVerdict, List.cons.injEq, Verdict.mk.injEq, true_and, and_true]
    constructor
    · by_cases hleft : b.cost ≤ max (b.window.requests - count) 0
      · simp [hleft, microsDuration_neg_one]
      · by_cases hexceeds : b.window.requests < b.cost
        · simp [hexceeds, microsDuration_neg_one]
        · simp [hleft, hexceeds, hboundary]
    · by_cases hzero : count = 0
      · simp only [if_pos hzero]
        rfl
      · simp only [if_neg hzero, hboundary]
  · simp only [decide_eq_false_iff_not] at hallow
    exact if_neg hallow
  · simp only [decide_eq_true_eq] at hallow
    refine ⟨_, if_pos hallow, fun rest => ?_, ?_, ?_, ?_, ?_⟩
    · rw [readVerdicts_patched]
      simp only [chargedVerdict, hboundary]
    · unfold maxTauMicros at hlimit
      have hs0 : 0 ≤ start := windowStart_nonneg hp
      simp only [Charged.state, encode]
      rw [lua.format_exact (by unfold Within; omega), lua.format_exact (by unfold Within; omega)]
    · rfl
    · dsimp only
      omega
    · unfold maxTauMicros at hlimit
      dsimp only
      omega

end Rows

end Ratelimit.Redis
