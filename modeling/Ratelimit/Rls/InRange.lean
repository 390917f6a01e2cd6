import Ratelimit.Engine.Order
import Ratelimit.Engine.Room
import Ratelimit.Rls.Server
import Ratelimit.Store.RedisRefinement
import Ratelimit.Store.ScriptRun

/-!
# Counting stays in range

From the window to the response in machine words, and the script in doubles. The comparisons
multiply what is left of one bucket by the cost of another, which may have been judged in
another call.
-/
namespace Ratelimit.Rls

open Algo Store Library Memory Engine

def effectiveWindow64 (b : Bucket) (v : Verdict) : Option ℤ :=
  if bucketCapacity b.window ≤ v.remaining then some (-1)
  else if b.algorithm ≠ .gcraID then some v.resetAfter
  else do
    let depth ← int64.quot v.resetAfter microsecond
    let emission ← emissionMicros64 b.window
    let tau ← tauMicros64 b.window
    let debt ← int64.sub depth tau
    let more ← int64.add v.remaining 1
    let spacing ← int64.mul more emission
    let wait ← int64.add debt spacing
    int64.mul wait microsecond

def stricter64 (allowed : Bool) (x best : Judged) : Option Bool :=
  if allowed then do
    let left ← int64.mul x.2.remaining best.1.cost
    let right ← int64.mul best.2.remaining x.1.cost
    pure (if left ≠ right then left < right else x.1.key < best.1.key)
  else some (stricter false x best)

/-- The loop body of `strictestDecision`, with its two products. -/
def keepStricter64 (allowed : Bool) (best d : Decision) : Option Decision :=
  match d.headers with
  | none => some best
  | some h =>
    if d.allowed ≠ allowed then some best
    else
      match best.headers with
      | none => some d
      | some b =>
        if allowed then do
          let left ← int64.mul h.remaining b.cost
          let right ← int64.mul b.remaining h.cost
          pure (if left < right then d else best)
        else if b.retryAfter < h.retryAfter then some d
        else some best

def strictestDecision64 (decisions : List Decision) (allowed : Bool) : Option Decision := do
  let best ← decisions.foldlM (keepStricter64 allowed) noDecision
  match best.headers with
  | none => pure { best with allowed }
  | some _ => pure best

section Comparisons

theorem mul_eq_mul64 {a b : ℤ} (ha : 0 ≤ a) (ha' : a < 2 ^ 31) (hb : 0 ≤ b) (hb' : b < 2 ^ 31) :
    int64.mul a b = some (mul64 a b) := by
  have hlow : 0 ≤ a * b := mul_nonneg ha hb
  have hhigh : a * b < 2 ^ 31 * 2 ^ 31 := mul_lt_mul'' ha' hb' ha hb
  rw [mul64_eq ha ha' hb hb']
  exact Range.mul_eq (holds_int64.mpr (by omega))

theorem stricter64_eq {x y : Judged} (hx : Fits x) (hy : Fits y) (allowed : Bool) :
    stricter64 allowed x y = some (stricter allowed x y) := by
  have hcx := hx.one_le_cost
  have hcy := hy.one_le_cost
  cases allowed with
  | false => rfl
  | true =>
    simp only [stricter64, stricter, if_true, Option.bind_eq_bind, Option.bind_some,
      mul_eq_mul64 hx.remaining_nonneg hx.remaining_lt (by omega) hy.cost_lt,
      mul_eq_mul64 hy.remaining_nonneg hy.remaining_lt (by omega) hx.cost_lt]
    rfl

/-- Headers whose numbers are those of a bucket that fits. -/
def HeadersFit (d : Decision) : Prop :=
  ∀ h, d.headers = some h → ∃ x : Judged, Fits x ∧ h.remaining = x.2.remaining ∧ h.cost = x.1.cost

theorem keepStricter_choice (allowed : Bool) (best d : Decision) :
    keepStricter allowed best d = best ∨ keepStricter allowed best d = d := by
  unfold keepStricter
  cases d.headers with
  | none => exact Or.inl rfl
  | some h =>
    cases best.headers with
    | none =>
      dsimp only
      split_ifs <;> simp
    | some b =>
      dsimp only
      split_ifs <;> simp

theorem keepStricter64_eq {best d : Decision} (hbest : HeadersFit best) (hd : HeadersFit d)
    (allowed : Bool) :
    keepStricter64 allowed best d = some (keepStricter allowed best d) := by
  unfold keepStricter64 keepStricter
  cases hh : d.headers with
  | none => rfl
  | some h =>
    dsimp only
    by_cases hother : d.allowed ≠ allowed
    · rw [if_pos hother, if_pos hother]
    rw [if_neg hother, if_neg hother]
    cases hb : best.headers with
    | none => rfl
    | some b =>
      obtain ⟨x, hx, hxr, hxc⟩ := hd h hh
      obtain ⟨y, hy, hyr, hyc⟩ := hbest b hb
      have hcx := hx.one_le_cost
      have hcy := hy.one_le_cost
      dsimp only
      rw [hxr, hxc, hyr, hyc, mul_eq_mul64 hx.remaining_nonneg hx.remaining_lt (by omega) hy.cost_lt,
        mul_eq_mul64 hy.remaining_nonneg hy.remaining_lt (by omega) hx.cost_lt]
      cases allowed with
      | true => rfl
      | false =>
        by_cases hlonger : b.retryAfter < h.retryAfter <;> simp [hlonger]

theorem strictestDecision64_eq {ds : List Decision} (hds : ∀ d ∈ ds, HeadersFit d)
    (allowed : Bool) : strictestDecision64 ds allowed = some (strictestDecision ds allowed) := by
  have hloop : ∀ best, HeadersFit best →
      ds.foldlM (keepStricter64 allowed) best = some (ds.foldl (keepStricter allowed) best) := by
    induction ds with
    | nil => exact fun best _ => rfl
    | cons d ds ih =>
      intro best hbest
      obtain ⟨hd, hds⟩ := List.forall_mem_cons.mp hds
      have hnext : HeadersFit (keepStricter allowed best d) := by
        rcases keepStricter_choice allowed best d with h | h
        · rwa [h]
        · rwa [h]
      rw [List.foldlM_cons, keepStricter64_eq hbest hd, List.foldl_cons]
      exact ih hds _ hnext
  have hstart : HeadersFit noDecision := fun h hh => by cases hh
  simp only [strictestDecision64, strictestDecision, hloop noDecision hstart, Option.bind_eq_bind,
    Option.bind_some]
  cases (ds.foldl (keepStricter allowed) noDecision).headers <;> rfl

end Comparisons

section Verdicts

variable {now : ℕ} {m : Entries} {b : Bucket} {a : Algorithm}

/-- The numbers of a verdict and of the bucket it is about. -/
structure Moderate (x : Judged) : Prop where
  fits : Fits x
  reset_nonneg : 0 ≤ x.2.resetAfter
  reset_le : x.2.resetAfter ≤ microsDuration (2 * maxTauMicros)

theorem remaining_answered (h : AllBounded now m) (hb : Sized b) (ha : b.algorithm = a.id)
    (admitting : Bool) : 0 ≤ (answered admitting (outcome now m b)).remaining ∧
      (answered admitting (outcome now m b)).remaining < 2 ^ 31 := by
  have hcheck := hb.checked a ha
  have hcounts : CountsNonneg m := fun k e he => (h k e he).count_nonneg
  have hreq := hb.requests
  have hburst := hb.burst
  unfold answered
  split_ifs with hcharged
  · have hallowed := (Bool.and_eq_true_iff.mp hcharged).2
    have hcost := hb.one_le_cost
    obtain ⟨hlow, hhigh, -⟩ := remaining_of_allowed hcounts ha hcheck hcost hreq hburst hallowed
    exact ⟨hlow, by simp only [chargedVerdict]; omega⟩
  · simp only [currentVerdict]
    cases a with
    | gcra =>
      have hle : (evalGCRA (held now m b) now b.window b.cost).remainCurrent ≤ b.window.burst :=
        gcra_remainCurrent_le hcheck
      rw [outcome_of_gcra ha]
      refine ⟨?_, by omega⟩
      rw [evalGCRA_remainCurrent]
      exact nonNegative_nonneg _
    | fixedWindow =>
      obtain ⟨hcount, -⟩ := h.counted_bounds b (windowStart now (periodMicros b.window))
      rw [outcome_of_fixedWindow ha]
      dsimp only [evalFixed]
      omega

theorem resetAfter_answered (h : AllBounded now m) (hb : Sized b) (ha : b.algorithm = a.id)
    (admitting : Bool) : 0 ≤ (answered admitting (outcome now m b)).resetAfter ∧
      (answered admitting (outcome now m b)).resetAfter ≤ microsDuration (2 * maxTauMicros) := by
  have hcheck := hb.checked a ha
  have hmax : 0 ≤ maxTauMicros := by decide
  unfold answered
  cases a with
  | gcra =>
    have harrival := le_arrival (held now m b) now
    have hahead := h.arrival_le b
    have htau := (tauMicros_le hcheck).2
    have hemission := (accepted_emission hcheck).1
    have hspent : 0 ≤ emissionMicros b.window * b.cost :=
      mul_nonneg (by omega) (by have := hb.one_le_cost; omega)
    rw [outcome_of_gcra ha]
    split_ifs with hcharged
    · obtain ⟨hburst, hfits⟩ := evalGCRA_allowed_iff.mp (Bool.and_eq_true_iff.mp hcharged).2
      simp only [chargedVerdict, evalGCRA, if_neg (not_lt.mpr hburst), microsDuration, microsecond]
      omega
    · simp only [currentVerdict, evalGCRA_resetCurrent, microsDuration, microsecond]
      omega
  | fixedWindow =>
    obtain ⟨hperlo, hperhi⟩ := accepted_period hcheck
    have hbegin : windowStart now (periodMicros b.window) ≤ now := windowStart_le (by omega)
    have hend : (now : ℤ) < windowStart now (periodMicros b.window) + periodMicros b.window :=
      lt_windowStart_add (by omega)
    rw [outcome_of_fixedWindow ha]
    unfold maxTauMicros
    split_ifs
    · simp only [chargedVerdict, evalFixed, microsDuration, microsecond]
      omega
    · simp only [currentVerdict, evalFixed, microsDuration, microsecond]
      split_ifs <;> omega

theorem moderate_answered (h : AllBounded now m) (hb : Sized b) (ha : b.algorithm = a.id)
    (admitting : Bool) : Moderate (b, answered admitting (outcome now m b)) := by
  obtain ⟨hlow, hhigh⟩ := remaining_answered h hb ha admitting
  obtain ⟨hreset, hreset'⟩ := resetAfter_answered h hb ha admitting
  have hcost := hb.cost_le
  exact ⟨⟨hb.one_le_cost, by dsimp only; omega, hlow, hhigh⟩, hreset, hreset'⟩

theorem effectiveWindow64_eq {v : Verdict} (hv : Moderate (b, v)) (hb : Sized b) :
    effectiveWindow64 b v = some (effectiveWindow b v) := by
  unfold effectiveWindow64 effectiveWindow
  split_ifs with hfull hid
  · rfl
  · rfl
  · have ha : b.algorithm = Algorithm.gcra.id := not_not.mp hid
    have hcheck := hb.checked .gcra ha
    obtain ⟨⟨-, -, hlow, hhigh⟩, hreset, hreset'⟩ := hv
    dsimp only at hlow hhigh hreset hreset'
    obtain ⟨htaulo, htauhi⟩ := tauMicros_le hcheck
    have hemission := (accepted_emission hcheck).1
    have hspacing : (v.remaining + 1) * emissionMicros b.window ≤ tauMicros b.window := by
      rw [bucketCapacity_gcra hcheck] at hfull
      rw [tauMicros, mul_comm]
      exact mul_le_mul_of_nonneg_left (by omega) (by omega)
    have hpos : 0 ≤ (v.remaining + 1) * emissionMicros b.window :=
      mul_nonneg (by omega) (by omega)
    unfold maxTauMicros at htauhi hreset'
    unfold microsDuration microsecond at hreset'
    have hdepth : 0 ≤ v.resetAfter.tdiv microsecond ∧
        v.resetAfter.tdiv microsecond ≤ 2000000000000000 := by
      rw [Int.tdiv_eq_ediv_of_nonneg hreset, microsecond]
      omega
    unfold microsecond at *
    simp (disch := omega) only [accepted_emission64 hcheck, accepted_tau64 hcheck, Range.sub,
      Range.add, Range.mul, int64_fit, int64_quot, Option.bind_eq_bind, Option.bind_some]

end Verdicts

section Runs

variable {calls before after : List Call} {c : Call} {x : Judged}

/-- Calls on sized buckets at readings of a clock that does not go back, no wider than
a position in the script can count. -/
structure Drawn (calls : List Call) : Prop where
  clock : MonotoneFrom Call.now 0 calls
  early : ∀ c ∈ calls, c.now < clockEnd
  sized : ∀ c ∈ calls, ∀ b ∈ c.op.buckets, Sized b
  few : ∀ c ∈ calls, c.op.buckets.length ≤ 2 ^ 50

/-- A bucket of one of the calls, with the verdict that the run gives it. -/
def JudgedIn (calls : List Call) (x : Judged) : Prop :=
  ∃ before c after vs, calls = before ++ c :: after ∧
    (storeCall (runs storeCall ∅ before).1 c).2 = .ok vs ∧ x ∈ c.op.buckets.zip vs

theorem Drawn.bounded (h : Drawn (before ++ c :: after)) :
    AllBounded c.now (runs storeCall ∅ before).1 := by
  obtain ⟨hbefore, hnow, -⟩ := monotoneFrom_append.mp h.clock
  have hstep : ∀ (m : Entries) (d : Call), (∀ b ∈ d.op.buckets, Sized b) → AllBounded d.now m →
      AllBounded d.now (storeCall m d).1 := fun m d hd hm => hm.storeCall hd
  have hlater : ∀ (t t' : ℕ) (m : Entries), t ≤ t' → AllBounded t m → AllBounded t' m :=
    fun t t' m hle hm => hm.later (by exact_mod_cast hle)
  have hstart : AllBounded (0 : ℕ) ∅ := by
    intro k e he
    simp at he
  have hrun := invariant_runs (fun t m => AllBounded t m) hlater hstep before 0 ∅ hbefore
    (fun d hd => h.sized d (List.mem_append_left _ hd)) hstart
  exact hlater _ _ _ hnow hrun

theorem JudgedIn.moderate (hx : JudgedIn calls x) (h : Drawn calls) :
    Moderate x ∧ Sized x.1 := by
  obtain ⟨before, c, after, vs, rfl, hvs, hmem⟩ := hx
  obtain ⟨-, hreg, admitting, rfl⟩ := storeCall_ok hvs
  rw [zip_outcomes] at hmem
  obtain ⟨b, hb, rfl⟩ := List.mem_map.mp hmem
  obtain ⟨a, ha⟩ := hreg b hb
  have hsized := h.sized c (List.mem_append_right _ List.mem_cons_self) b hb
  exact ⟨moderate_answered h.bounded hsized ha admitting, hsized⟩

theorem validate64_of_sized {b : Bucket} (hb : Sized b) (ha : b.algorithm = Algorithm.gcra.id) :
    Algorithm.gcra.validate64 b.window = some true := by
  have hcheck := hb.checked .gcra ha
  have hreq := one_le_requests hcheck
  have hreq31 := hb.requests
  have hburst := (gcra_bounds hcheck).1
  have hburst31 := hb.burst
  have hfits : b.window.Fits :=
    ⟨holds_int64.mpr (by omega), accepted_word hcheck, holds_int64.mpr (by omega)⟩
  rw [validate64_eq hfits (checkCommon_of_check hcheck), validate_of_check hcheck]
  rfl

theorem Drawn.legible {lua : Redis.Lua} (hlua : Redis.Doubles lua)
    {before after : List Redis.Served} {s : Redis.Served}
    (h : Drawn ((before ++ s :: after).map Redis.Served.call)) :
    Redis.AllLegible s.now (runs (Redis.storeCall lua) ∅ before).1 := by
  obtain ⟨hbefore, hnow, -⟩ := monotoneFrom_append.mp (monotoneFrom_map.mp h.clock)
  have hstep : ∀ (db : Redis.Db) (d : Redis.Served), (d.now < clockEnd ∧
      (∀ b ∈ d.call.op.buckets, Sized b) ∧ d.call.op.buckets.length ≤ 2 ^ 50) →
      Redis.AllLegible d.now db → Redis.AllLegible d.now (Redis.storeCall lua db d).1 :=
    fun db d hd hdb => (Redis.storeCall53_eq hlua hdb hd.1 hd.2.1 hd.2.2).2
  have hlater : ∀ (t t' : ℕ) (db : Redis.Db), t ≤ t' → Redis.AllLegible t db →
      Redis.AllLegible t' db := fun t t' db hle hdb => hdb.later (by exact_mod_cast hle)
  have hstart : Redis.AllLegible (0 : ℕ) ∅ := by
    intro k v hv
    simp at hv
  have hcalls : ∀ d ∈ before, d.now < clockEnd ∧ (∀ b ∈ d.call.op.buckets, Sized b) ∧
      d.call.op.buckets.length ≤ 2 ^ 50 := by
    intro d hd
    have hmem : d.call ∈ (before ++ s :: after).map Redis.Served.call :=
      List.mem_map_of_mem (List.mem_append_left _ hd)
    exact ⟨h.early _ hmem, h.sized _ hmem, h.few _ hmem⟩
  have hrun := invariant_runs (fun t db => Redis.AllLegible t db) hlater hstep before 0 ∅ hbefore
    hcalls hstart
  exact hlater _ _ _ hnow hrun

/-- The numbers of a run: each computation that is written out in machine words, and the
script written out in doubles, has the result that the model of the code gives it. -/
structure InRange (lua : Redis.Lua) (served : List Redis.Served) : Prop where
  windows : ∀ s ∈ served, ∀ b ∈ s.call.op.buckets, b.algorithm = Algorithm.gcra.id →
    Algorithm.gcra.validate64 b.window = some true ∧
      emissionMicros64 b.window = some (emissionMicros b.window) ∧
      tauMicros64 b.window = some (tauMicros b.window)
  memory : ∀ before c after, served.map Redis.Served.call = before ++ c :: after →
    storeCall64 (runs storeCall ∅ before).1 c = some (storeCall (runs storeCall ∅ before).1 c)
  effectiveWindow : ∀ x, JudgedIn (served.map Redis.Served.call) x →
    effectiveWindow64 x.1 x.2 = some (Engine.effectiveWindow x.1 x.2)
  stricter : ∀ x y, JudgedIn (served.map Redis.Served.call) x →
    JudgedIn (served.map Redis.Served.call) y → ∀ allowed,
      stricter64 allowed x y = some (Engine.stricter allowed x y)
  strictestDecision : ∀ ds : List Decision, (∀ d ∈ ds, ∀ h, d.headers = some h →
    ∃ owner x exceeds, JudgedIn (served.map Redis.Served.call) x ∧ h = headersOf owner x exceeds) →
      ∀ allowed, strictestDecision64 ds allowed = some (Rls.strictestDecision ds allowed)
  script : ∀ before s after, served = before ++ s :: after →
    Redis.storeCall53 lua (runs (Redis.storeCall lua) ∅ before).1 s =
      some (Redis.storeCall lua (runs (Redis.storeCall lua) ∅ before).1 s)

end Runs

/-- In every run of calls on sized buckets below the end of the clock, no operation on 64-bit words
leaves its type or divides by zero, and no number of the script reaches 2^53. -/
theorem counting_in_range (lua : Redis.Lua) (hlua : Redis.Doubles lua)
    (served : List Redis.Served) (h : Drawn (served.map Redis.Served.call)) :
    InRange lua served where
  windows s hs b hb ha := by
    have hsized := h.sized _ (List.mem_map_of_mem hs) b hb
    have hcheck := hsized.checked .gcra ha
    exact ⟨validate64_of_sized hsized ha, accepted_emission64 hcheck, accepted_tau64 hcheck⟩
  memory before c after hcalls := by
    rw [hcalls] at h
    have hmem : c ∈ before ++ c :: after := List.mem_append_right _ List.mem_cons_self
    exact storeCall64_eq h.bounded (h.sized c hmem) (h.early c hmem)
  effectiveWindow x hx := by
    obtain ⟨hmoderate, hsized⟩ := hx.moderate h
    exact effectiveWindow64_eq hmoderate hsized
  stricter x y hx hy := stricter64_eq (hx.moderate h).1.fits (hy.moderate h).1.fits
  strictestDecision ds hds := by
    refine strictestDecision64_eq fun d hd header hheader => ?_
    obtain ⟨owner, x, exceeds, hx, rfl⟩ := hds d hd header hheader
    exact ⟨x, (hx.moderate h).1.fits, rfl, rfl⟩
  script before s after hserved := by
    subst hserved
    have hmem : s.call ∈ (before ++ s :: after).map Redis.Served.call :=
      List.mem_map_of_mem (List.mem_append_right _ List.mem_cons_self)
    exact (Redis.storeCall53_eq hlua (h.legible hlua) (h.early _ hmem) (h.sized _ hmem)
      (h.few _ hmem)).1

theorem parseInt_colon {t : Text} (ht : byte ':' ∈ t) : Strconv.parseInt t = none := by
  have hnat : ∀ s : Text, byte ':' ∈ s → Strconv.parseNat s = none := by
    intro s hs
    refine if_neg fun hall => ?_
    exact absurd (List.all_eq_true.mp hall.2 _ hs) (by decide)
  have hsign : ∀ {c : Byte} {s : Text}, byte ':' ∈ c :: s → c = byte '-' ∨ c = byte '+' →
      byte ':' ∈ s := by
    intro c s hmem hc
    refine (List.mem_cons.mp hmem).resolve_left fun heq => ?_
    rw [← heq] at hc
    exact absurd hc (by decide)
  cases t with
  | nil => rfl
  | cons c s =>
    simp only [Strconv.parseInt]
    split_ifs with hminus hplus
    · rw [hnat s (hsign ht (Or.inl hminus))]
      rfl
    · rw [hnat s (hsign ht (Or.inr hplus))]
      rfl
    · rw [hnat (c :: s) ht]
      rfl

theorem counting_in_range_tuned :
    let rate (requests period burst cost : ℤ) : Bucket :=
      ⟨ascii "rate", .gcraID, ⟨requests, period * second, burst⟩, false, cost⟩
    InRange Redis.Lua.integers
      [⟨⟨3999999999000000, .decide [rate 1000000 1 1000000000 900000000]⟩, fun _ => false⟩,
        ⟨⟨3999999999999999, .decide [rate 1 86400 11574 11574]⟩, fun _ => false⟩] := by
  intro rate
  apply counting_in_range
  · exact ⟨rfl, fun t ht => parseInt_colon ht⟩
  · have hrate : ∀ requests period burst cost : ℤ,
        check .gcra ⟨requests, period * second, burst⟩ = .ok () → requests < 2 ^ 31 →
        burst < 2 ^ 31 → 1 ≤ cost → cost ≤ 10 ^ 9 → Sized (rate requests period burst cost) := by
      intro requests period burst cost hcheck hrequests hburst hone hcost
      refine ⟨fun a ha => ?_, hrequests, hburst, hone, hcost⟩
      cases a with
      | gcra => exact hcheck
      | fixedWindow => cases ha
    refine ⟨by decide, ?_, ?_, ?_⟩
    · simp only [List.map_cons, List.map_nil, List.mem_cons, List.not_mem_nil, or_false,
        forall_eq_or_imp, forall_eq]
      decide
    · simp only [List.map_cons, List.map_nil, List.mem_cons, List.not_mem_nil, or_false,
        forall_eq_or_imp, forall_eq, Op.buckets]
      exact ⟨hrate _ _ _ _ rfl (by decide) (by decide) (by decide) (by decide),
        hrate _ _ _ _ rfl (by decide) (by decide) (by decide) (by decide)⟩
    · simp [Op.buckets]

end Ratelimit.Rls
