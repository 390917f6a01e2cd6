import Ratelimit.Store.MemoryRange
import Ratelimit.Store.RedisScript

/-!
# The script computes below 2^53

The script with every number it reads or computes checked to be an integer that a double holds
exactly. Each text in Redis carries the bounds to the next decision: an arrival time at most a
bucket ahead of the clock, or a window that has begun and a count within the largest quota.
-/
namespace Ratelimit.Redis

open Algo Store Library Memory

def readNumber (lua : Lua) (t : Text) : Option (Option ℤ) :=
  match lua.tonumber t with
  | none => some none
  | some n => (exactDouble.fit n).map some

def stateTat53 (lua : Lua) (now : ℤ) : Option Text → Option ℤ
  | none => some now
  | some state => do
    match ← readNumber lua state with
    | some stored => pure (if now < stored then stored else now)
    | none => pure now

def gcraRow53 (lua : Lua) (now : ℤ) (state : Option Text) (cost emission tau burst : ℤ) :
    Option Row := do
  let tat ← stateTat53 lua now state
  let depth ← exactDouble.sub tat now
  let room ← exactDouble.sub tau depth
  let quotient ← exactDouble.floorQuot room emission
  let current := if quotient < 0 then 0 else quotient
  if burst < cost then pure ⟨false, true, current, -1, depth, none⟩
  else do
    let increment ← exactDouble.mul emission cost
    let newTat ← exactDouble.add tat increment
    let floor ← exactDouble.sub newTat tau
    let diff ← exactDouble.sub now floor
    if 0 ≤ diff then do
      let rc ← exactDouble.floorQuot diff emission
      let sc ← exactDouble.sub newTat now
      pure ⟨true, false, current, -1, depth, some ⟨rc, sc, newTat, none⟩⟩
    else do
      let retry ← exactDouble.neg diff
      pure ⟨false, false, current, retry, depth, none⟩

/-- The count of a state; the halves are cut out by the position of the colon. -/
def stateCount53 (lua : Lua) (start : ℤ) : Option Text → Option ℤ
  | none => some 0
  | some state =>
    if byte ':' ∈ state then do
      let halves := Strings.cut state (byte ':')
      let sep ← exactDouble.add halves.1.length 1
      let _ ← exactDouble.sub sep 1
      let _ ← exactDouble.add sep 1
      let s ← readNumber lua halves.1
      let c ← readNumber lua halves.2
      pure (if s = some start then c.getD 0 else 0)
    else some 0

/-- The charged shape of a fixed window whose verdict allows. -/
def fixedCharge53 (cost left boundary start count : ℤ) : Option (Option Charged) :=
  if cost ≤ left then do
    let rc ← exactDouble.sub left cost
    let sb ← exactDouble.add count cost
    pure (some ⟨rc, boundary, start, some sb⟩)
  else some none

def fixedRow53 (lua : Lua) (now : ℤ) (state : Option Text) (cost period requests : ℤ) :
    Option Row := do
  let into ← exactDouble.floorRem now period
  let start ← exactDouble.sub now into
  let count ← stateCount53 lua start state
  let unclamped ← exactDouble.sub requests count
  let left := if unclamped < 0 then 0 else unclamped
  let stop ← exactDouble.add start period
  let boundary ← exactDouble.sub stop now
  let charged ← fixedCharge53 cost left boundary start count
  pure
    { allowed := decide (cost ≤ left)
      exceeds := decide (requests < cost)
      remaining := left
      retry := if cost ≤ left ∨ requests < cost then -1 else boundary
      reset := if count = 0 then 0 else boundary
      charged }

def evalRow53 (lua : Lua) (now : ℤ) (state : Option Text) (args : Args) : Option Row :=
  if args.alg = 1 then gcraRow53 lua now state args.cost args.p1 args.p2 args.p3
  else fixedRow53 lua now state args.cost args.p1 args.p2

/-- The positions `base + 1` to `base + n`. -/
def offsets53 (base : ℤ) : ℕ → Option Unit
  | 0 => some ()
  | n + 1 => do
    let _ ← exactDouble.add base (n + 1 : ℕ)
    offsets53 base n

/-- The positions of the `i`-th bucket in an array with `stride` values for each. -/
def positions53 (stride : ℕ) (i : ℤ) : Option Unit := do
  let before ← exactDouble.sub i 1
  let skipped ← exactDouble.mul before stride
  let base ← exactDouble.add 1 skipped
  offsets53 base stride

def Args.numbers (a : Args) : List ℤ := [a.cost, a.alg, a.p1, a.p2, a.p3]

def rows53 (lua : Lua) (now : ℤ) : ℤ → List (Option Text) → List Args → Option (List Row)
  | i, state :: states, args :: rest => do
    positions53 6 i
    positions53 5 i
    if ∀ n ∈ args.numbers, exactDouble.Holds n then do
      let row ← evalRow53 lua now state args
      let next ← exactDouble.add i 1
      let rows ← rows53 lua now next states rest
      pure (row :: rows)
    else none
  | _, _, _ => some []

/-- The commit pass, from the `i`-th bucket on. -/
def commitRows53 (lua : Lua) (now : ℤ) :
    ℤ → Db → List (Text × Row) → Option (Db × Except Message (List ℤ))
  | _, db, [] => some (db, .ok [])
  | i, db, (key, row) :: rest => do
    let next ← exactDouble.add i 1
    match row.charged with
    | none => do
      let tail ← commitRows53 lua now next db rest
      pure (tail.1, tail.2.map (row.plain ++ ·))
    | some c => do
      positions53 5 i
      let px ← exactDouble.ceilQuot c.sc 1000
      if px ≤ 0 then pure (db, .error ⟨"ERR invalid expire time in 'set' command", []⟩)
      else do
        let tail ← commitRows53 lua now next (db.insert key ⟨c.state lua, now + 1000 * px⟩) rest
        pure (tail.1, tail.2.map (c.patched ++ ·))

def script53 (lua : Lua) (now : ℕ) (db : Db) (keys : List Text) (argv : List Text) :
    Option (Db × Except Message (List ℤ)) := do
  let whole ← exactDouble.mul (now / 1000000 : ℕ) 1000000
  let time ← exactDouble.add whole (now % 1000000 : ℕ)
  match readArgs lua keys.length argv.tail with
  | none => pure (db, .error ⟨"attempt to perform arithmetic on a nil value", []⟩)
  | some args => do
    let rows ← rows53 lua time 1 (keys.map fun k => (db.lookup k).map Stored.value) args
    let admitted := (args.zip rows).all fun p => p.1.shadow || p.2.allowed
    if admitted && decide (argv.head? = some (ascii "decide")) then do
      let done ← commitRows53 lua now 1 db (keys.zip rows)
      pure (done.1, done.2.map (1 :: ·))
    else pure (db, .ok (flag admitted :: rows.flatMap Row.plain))

def bucketArgs64 (b : Bucket) : Option (Except Message (List Text)) :=
  match b.algorithm with
  | .gcraID => do
    let emission ← emissionMicros64 b.window
    let tau ← tauMicros64 b.window
    pure (.ok [Strconv.formatInt b.cost, Strconv.formatInt 1, Strconv.formatInt emission,
      Strconv.formatInt tau, Strconv.formatInt b.window.burst, boolArg b.shadow])
  | .fixedWindowID => do
    let period ← periodMicros64 b.window
    pure (.ok [Strconv.formatInt b.cost, Strconv.formatInt 2, Strconv.formatInt period,
      Strconv.formatInt b.window.requests, Strconv.formatInt 0, boolArg b.shadow])
  | .unregistered code _ => some (.error ⟨"redis: unknown algorithm id %d", [.number code.val]⟩)

def allArgs64 : List Bucket → Option (Except Message (List Text))
  | [] => some (.ok [])
  | b :: bs => do
    match ← bucketArgs64 b with
    | .error msg => pure (.error msg)
    | .ok args => do
      let rest ← allArgs64 bs
      pure (rest.map (args ++ ·))

def microsDuration64 (us : ℤ) : Option ℤ := if us < 0 then some (-1) else int64.mul us microsecond

def readVerdicts64 : List ℤ → Option (List Verdict)
  | allowed :: exceeds :: remaining :: retry :: reset :: rest => do
    let retryAfter ← microsDuration64 retry
    let resetAfter ← microsDuration64 reset
    let verdicts ← readVerdicts64 rest
    pure (⟨decide (allowed = 1), remaining, decide (exceeds = 1), retryAfter, resetAfter⟩ ::
      verdicts)
  | _ => some []

def parseReply64 (reply : List ℤ) (n : ℕ) : Option Answer :=
  if reply.length ≠ 1 + n * 5 then
    some (.error ⟨"redis: decision script returned a malformed reply (%d values, want %d)",
      [.number reply.length, .number (1 + n * 5 : ℕ)]⟩)
  else (readVerdicts64 reply.tail).map .ok

def run53 (lua : Lua) (now : ℕ) (db : Db) (mode : Text) (buckets : List Bucket) :
    Option (Db × Answer) :=
  match guardBuckets buckets with
  | .error msg => some (db, .error msg)
  | .ok () =>
    if buckets = [] then some (db, .ok [])
    else do
      match ← allArgs64 buckets with
      | .error msg => pure (db, .error msg)
      | .ok args => do
        let done ← script53 lua now db (buckets.map Bucket.key) (mode :: args)
        match done.2 with
        | .error msg => pure (done.1, .error (msg.wrap "redis: decision script: " []))
        | .ok reply => do
          let answer ← parseReply64 reply buckets.length
          pure (done.1, answer)

def storeCall53 (lua : Lua) (db : Db) (s : Served) : Option (Db × Answer) :=
  let db := expire s.now s.gone db
  match s.call.op with
  | .decide bs => run53 lua s.now db (ascii "decide") bs
  | .peek bs => run53 lua s.now db (ascii "peek") bs
  | .reset ks => some (storeReset db ks, .ok [])

/-- A text that the script may find at the time `now`. -/
inductive Legible (now : ℤ) : Text → Prop
  | gcra {tat : ℤ} (hlo : 0 ≤ tat) (hhi : tat ≤ now + maxTauMicros) :
    Legible now (Strconv.formatInt tat)
  | fixed {start count : ℤ} (hlo : 0 ≤ start) (hhi : start ≤ now) (hcount : 0 ≤ count)
      (hcount31 : count < 2 ^ 31) :
    Legible now (Strconv.formatInt start ++ byte ':' :: Strconv.formatInt count)

theorem Legible.later {now now' : ℤ} {t : Text} (h : Legible now t) (hle : now ≤ now') :
    Legible now' t := by
  cases h with
  | gcra hlo hhi => exact .gcra hlo (by omega)
  | fixed hlo hhi hcount hcount31 => exact .fixed hlo (by omega) hcount hcount31

/-- The interpreter has doubles, and no numeral has a colon. -/
structure Doubles (lua : Lua) : Prop where
  limit : lua.limit = 2 ^ 53
  colon : ∀ t, byte ':' ∈ t → lua.tonumber t = none

section Rows

variable {lua : Lua} {now : ℕ} {state : Option Text} (hlua : Doubles lua) (hclock : now < clockEnd)

include hlua in
theorem readNumber_formatInt {n : ℤ} (h : exactDouble.Holds n) :
    lua.tonumber (Strconv.formatInt n) = some n ∧
      readNumber lua (Strconv.formatInt n) = some (some n) := by
  have hread : lua.tonumber (Strconv.formatInt n) = some n := by
    apply lua.tonumber_exact
    rw [holds_exactDouble] at h
    rw [Within, hlua.limit]
    omega
  refine ⟨hread, ?_⟩
  simp only [readNumber, hread, Range.fit_eq h, Option.map_some]

theorem length_formatInt_le {n : ℤ} (hlo : 0 ≤ n) (hhi : n < 10 ^ 16) :
    (Strconv.formatInt n).length ≤ 16 := by
  obtain ⟨k, rfl⟩ := Int.eq_ofNat_of_zero_le hlo
  change ((Nat.toDigits 10 k).map byte).length ≤ 16
  rw [List.length_map, Nat.length_toDigits_le_iff (by omega) (by omega)]
  omega

include hlua hclock

theorem limit_of_clock : (now : ℤ) + 2 * maxTauMicros < lua.limit := by
  unfold clockEnd at hclock
  unfold maxTauMicros
  rw [hlua.limit]
  omega

theorem stateTat53_eq (h : ∀ t, state = some t → Legible now t) :
    stateTat53 lua now state = some (stateTat lua now state) ∧
      (now : ℤ) ≤ stateTat lua now state ∧ stateTat lua now state ≤ now + maxTauMicros := by
  have hmax : 0 ≤ maxTauMicros := by decide
  cases hstate : state with
  | none => exact ⟨rfl, le_rfl, by simp only [stateTat, Option.bind_none]; omega⟩
  | some t =>
    cases h t hstate with
    | @gcra tat hlo hhi =>
      have hfits : exactDouble.Holds tat := by
        unfold clockEnd at hclock
        unfold maxTauMicros at hhi
        exact holds_exactDouble.mpr (by omega)
      obtain ⟨hread, hnumber⟩ := readNumber_formatInt hlua hfits
      simp only [stateTat53, stateTat, hnumber, hread, Option.bind_eq_bind, Option.bind_some]
      refine ⟨rfl, ?_, ?_⟩
      · split_ifs <;> omega
      · split_ifs <;> omega
    | @fixed start count hlo hhi hcount hcount31 =>
      have hnone : lua.tonumber (Strconv.formatInt start ++ byte ':' :: Strconv.formatInt count) =
          none := hlua.colon _ (by simp)
      simp only [stateTat53, stateTat, readNumber, hnone, Option.bind_eq_bind, Option.bind_some]
      exact ⟨rfl, le_rfl, by omega⟩

/-- The bounds of a row, and what it would leave under its key. -/
structure RowBounds (lua : Lua) (now : ℤ) (row : Row) : Prop where
  retry : -1 ≤ row.retry ∧ row.retry ≤ 2 * maxTauMicros
  reset : 0 ≤ row.reset ∧ row.reset ≤ 2 * maxTauMicros
  charged : ∀ c, row.charged = some c →
    0 < c.sc ∧ c.sc ≤ 2 * maxTauMicros ∧ Legible now (c.state lua)

theorem gcraRow53_eq {cost emission tau burst : ℤ} (h : ∀ t, state = some t → Legible now t)
    (hemission : 1 ≤ emission) (htau : tau = emission * burst) (hburst : 1 ≤ burst)
    (hmax : tau ≤ maxTauMicros) (hcost : 1 ≤ cost) :
    gcraRow53 lua now state cost emission tau burst =
        some (gcraRow lua now state cost emission tau burst) ∧
      RowBounds lua now (gcraRow lua now state cost emission tau burst) := by
  obtain ⟨htat, hlo, hhi⟩ := stateTat53_eq hlua hclock h
  have hlimit := limit_of_clock hlua hclock
  rw [gcraRow_eq hlimit rfl hlo hhi hemission htau hburst hmax hcost]
  simp only [gcraRow53, htat, Option.bind_eq_bind, Option.bind_some, nonNegative_tdiv hemission]
  generalize stateTat lua now state = tat at *
  have hdeep : emission ≤ tau := htau ▸ le_mul_of_one_le_right (by omega) hburst
  have htop : maxTauMicros = 1000000000000000 := rfl
  unfold clockEnd at hclock
  by_cases hexceeds : burst < cost
  · simp (disch := omega) only [Range.sub, exactDouble_fit, exactDouble_floorQuot,
      Option.bind_some, if_pos hexceeds]
    exact ⟨rfl, ⟨⟨le_rfl, by dsimp only; omega⟩, by dsimp only; omega, fun c hc => by cases hc⟩⟩
  have hpos : cost ≤ emission * cost := le_mul_of_one_le_left (by omega) hemission
  have hstep : emission * cost ≤ tau := htau ▸ mul_le_mul_of_nonneg_left (by omega) (by omega)
  simp (disch := omega) only [Range.sub, Range.add, Range.mul, Range.neg, exactDouble_fit,
    exactDouble_floorQuot, Option.bind_some, if_neg hexceeds]
  by_cases hallowed : 0 ≤ now - (tat + emission * cost - tau)
  · simp only [if_pos hallowed]
    refine ⟨rfl, ⟨⟨le_rfl, by dsimp only; omega⟩, by dsimp only; omega, ?_⟩⟩
    rintro c hc
    obtain rfl := Option.some.inj hc
    have hstate : lua.format (tat + emission * cost) = Strconv.formatInt (tat + emission * cost) :=
      lua.format_exact (by rw [Within, hlua.limit]; omega)
    refine ⟨by dsimp only; omega, by dsimp only; omega, ?_⟩
    rw [Charged.state, hstate]
    exact .gcra (by omega) (by omega)
  · simp only [if_neg hallowed]
    exact ⟨rfl, ⟨by dsimp only; omega, by dsimp only; omega, fun c hc => by cases hc⟩⟩

theorem stateCount53_eq {start : ℤ} (h : ∀ t, state = some t → Legible now t) :
    stateCount53 lua start state = some (stateCount lua start state) ∧
      0 ≤ stateCount lua start state ∧ stateCount lua start state < 2 ^ 31 := by
  cases hstate : state with
  | none => exact ⟨rfl, le_rfl, by simp [stateCount]⟩
  | some t =>
    cases h t hstate with
    | @gcra tat hlo hhi =>
      have hmem := Strconv.colon_not_mem_formatInt tat
      rw [stateCount53, stateCount, if_neg hmem, if_neg hmem]
      exact ⟨rfl, le_rfl, by norm_num⟩
    | @fixed begin count hlo hhi hcount hcount31 =>
      have hmem : byte ':' ∈ Strconv.formatInt begin ++ byte ':' :: Strconv.formatInt count := by
        simp
      unfold clockEnd at hclock
      obtain ⟨hread, hnumber⟩ :=
        readNumber_formatInt hlua (holds_exactDouble.mpr (by omega) : exactDouble.Holds begin)
      obtain ⟨hread', hnumber'⟩ :=
        readNumber_formatInt hlua (holds_exactDouble.mpr (by omega) : exactDouble.Holds count)
      have hlen := length_formatInt_le hlo (by omega : begin < 10 ^ 16)
      have hsep : exactDouble.add (Strconv.formatInt begin).length 1 = some _ :=
        exactDouble_fit (by omega) (by omega)
      have hsub : exactDouble.sub (((Strconv.formatInt begin).length : ℤ) + 1) 1 = some _ :=
        exactDouble_fit (by omega) (by omega)
      have hadd : exactDouble.add (((Strconv.formatInt begin).length : ℤ) + 1) 1 = some _ :=
        exactDouble_fit (by omega) (by omega)
      rw [stateCount53, stateCount, if_pos hmem, if_pos hmem,
        Strings.cut_append_sep (Strconv.colon_not_mem_formatInt begin)]
      dsimp only
      rw [hsep, hread, hread', Option.bind_eq_bind, Option.bind_some, hsub, hadd, hnumber, hnumber']
      refine ⟨rfl, ?_⟩
      split_ifs
      · exact ⟨hcount, hcount31⟩
      · exact ⟨le_rfl, by norm_num⟩

omit hlua hclock in
theorem fixedCharge53_eq {cost left boundary start count : ℤ} (hc : 1 ≤ cost) (hc9 : cost ≤ 10 ^ 9)
    (hleft : 0 ≤ left) (hleft31 : left < 2 ^ 31) (hcount : 0 ≤ count) (hcount31 : count < 2 ^ 31) :
    fixedCharge53 cost left boundary start count =
      some (if cost ≤ left then some ⟨left - cost, boundary, start, some (count + cost)⟩
        else none) := by
  unfold fixedCharge53
  split_ifs with hallowed
  · simp (disch := omega) only [Range.sub, Range.add, exactDouble_fit, Option.bind_eq_bind,
      Option.bind_some]
    rfl
  · rfl

theorem fixedRow53_eq {cost period requests : ℤ} (h : ∀ t, state = some t → Legible now t)
    (hp : 1 ≤ period) (hday : period ≤ 86400000000) (hr : 1 ≤ requests) (hr31 : requests < 2 ^ 31)
    (hc : 1 ≤ cost) (hc9 : cost ≤ 10 ^ 9) :
    fixedRow53 lua now state cost period requests =
        some (fixedRow lua now state cost period requests) ∧
      RowBounds lua now (fixedRow lua now state cost period requests) := by
  have hread : stateCount53 lua (windowStart now period) state = some _ ∧ _ :=
    stateCount53_eq hlua hclock h
  obtain ⟨hcount, hcount0, hcount31⟩ := hread
  have hlimit := limit_of_clock hlua hclock
  rw [fixedRow_eq hlimit rfl hcount0 hcount31 hp hday hr hr31 hc (by omega)]
  have hbegin : windowStart now period ≤ now := windowStart_le hp
  have hzero : 0 ≤ windowStart now period := windowStart_nonneg hp
  have hend : (now : ℤ) < windowStart now period + period := lt_windowStart_add hp
  have hinto : (now : ℤ) % period = now - windowStart now period := by
    rw [windowStart, Int.tmod_eq_emod_of_nonneg (by omega)]
    omega
  have htop : maxTauMicros = 1000000000000000 := rfl
  unfold clockEnd at hclock
  have hrem : exactDouble.floorRem now period = some (now - windowStart now period) :=
    hinto ▸ Range.floorRem_eq (by omega) (holds_exactDouble.mpr (by omega))
  have hstart : exactDouble.sub now (now - windowStart now period) =
      some (windowStart now period) := by
    rw [Range.sub_eq (holds_exactDouble.mpr (by omega)), sub_sub_cancel]
  simp only [fixedRow53, Option.bind_eq_bind, hrem, hstart, hcount, Option.bind_some]
  generalize stateCount lua (windowStart now period) state = count at *
  generalize windowStart now period = start at *
  have hleft : (if requests - count < 0 then 0 else requests - count) = max (requests - count) 0 := by
    split_ifs <;> omega
  simp (disch := omega) only [Range.sub, Range.add, exactDouble_fit, hleft, fixedCharge53_eq,
    Option.bind_some]
  refine ⟨rfl, ⟨by dsimp only; split_ifs <;> omega, by dsimp only; split_ifs <;> omega, ?_⟩⟩
  intro c hcharged
  dsimp only at hcharged
  split_ifs at hcharged with hallowed
  obtain rfl := Option.some.inj hcharged
  have hsa : lua.format start = Strconv.formatInt start :=
    lua.format_exact (by rw [Within, hlua.limit]; omega)
  have hsb : lua.format (count + cost) = Strconv.formatInt (count + cost) :=
    lua.format_exact (by rw [Within, hlua.limit]; omega)
  refine ⟨by dsimp only; omega, by dsimp only; omega, ?_⟩
  simp only [Charged.state, hsa, hsb]
  exact .fixed hzero hbegin (by omega) (by omega)

end Rows

end Ratelimit.Redis
