import Ratelimit.Store.Contract
import Ratelimit.Library.Maps

/-!
# The shared Redis store

One script per decision, run atomically, which answers with a flat list of integers. What is
assumed of its doubles is that arithmetic on integers below a limit is exact, and of Redis that
a key set with a lifetime is not dropped before it ends.
-/
namespace Ratelimit.Redis

open Algo Store

def Within (limit x : ℤ) : Prop := -limit < x ∧ x < limit

/-- The numbers of the script's interpreter, restricted to integers: `limit` is
2^53 for doubles. `tonumber` reads a numeral and `format` prints one by `%.0f`. -/
structure Lua where
  limit : ℤ
  add : ℤ → ℤ → ℤ
  sub : ℤ → ℤ → ℤ
  mul : ℤ → ℤ → ℤ
  mod : ℤ → ℤ → ℤ
  floorDiv : ℤ → ℤ → ℤ
  ceilDiv : ℤ → ℤ → ℤ
  tonumber : Text → Option ℤ
  format : ℤ → Text
  add_exact : ∀ {a b}, Within limit a → Within limit b → Within limit (a + b) → add a b = a + b
  sub_exact : ∀ {a b}, Within limit a → Within limit b → Within limit (a - b) → sub a b = a - b
  mul_exact : ∀ {a b}, Within limit a → Within limit b → Within limit (a * b) → mul a b = a * b
  mod_exact : ∀ {a b}, Within limit a → 0 < b → b < limit → mod a b = a % b
  floorDiv_exact : ∀ {a b}, Within limit a → 0 < b → b < limit → floorDiv a b = a / b
  ceilDiv_exact : ∀ {a b}, Within limit a → 0 < b → b < limit → ceilDiv a b = -(-a / b)
  tonumber_exact : ∀ {a}, Within limit a → tonumber (Strconv.formatInt a) = some a
  format_exact : ∀ {a}, Within limit a → format a = Strconv.formatInt a

/-- A value and the instant its lifetime ends, in Unix microseconds. -/
structure Stored where
  value : Text
  expireAt : ℤ
  deriving DecidableEq

abbrev Db := Finmap fun _ : Text => Stored

/-- The charged shape of one bucket: `rc` and `sc` are the charged remaining
and reset, `sa` and `sb` the next state. -/
structure Charged where
  rc : ℤ
  sc : ℤ
  sa : ℤ
  sb : Option ℤ

/-- One reply quintuple, with its charged shape where its own verdict allows. -/
structure Row where
  allowed : Bool
  exceeds : Bool
  remaining : ℤ
  retry : ℤ
  reset : ℤ
  charged : Option Charged

/-- The arrival time a GCRA evaluation starts from. -/
def stateTat (lua : Lua) (now : ℤ) (state : Option Text) : ℤ :=
  match state.bind lua.tonumber with
  | some stored => if now < stored then stored else now
  | none => now

def gcraRow (lua : Lua) (now : ℤ) (state : Option Text) (cost emission tau burst : ℤ) : Row :=
  let tat := stateTat lua now state
  let depth := lua.sub tat now
  let quotient := lua.floorDiv (lua.sub tau depth) emission
  let current := if quotient < 0 then 0 else quotient
  if burst < cost then ⟨false, true, current, -1, depth, none⟩
  else
    let newTat := lua.add tat (lua.mul emission cost)
    let diff := lua.sub now (lua.sub newTat tau)
    if 0 ≤ diff then
      ⟨true, false, current, -1, depth,
        some ⟨lua.floorDiv diff emission, lua.sub newTat now, newTat, none⟩⟩
    else ⟨false, false, current, -diff, depth, none⟩

/-- The count a state holds for the window that starts at `start`. -/
def stateCount (lua : Lua) (start : ℤ) : Option Text → ℤ
  | none => 0
  | some state =>
    if byte ':' ∈ state then
      let halves := Strings.cut state (byte ':')
      if lua.tonumber halves.1 = some start then (lua.tonumber halves.2).getD 0 else 0
    else 0

def fixedRow (lua : Lua) (now : ℤ) (state : Option Text) (cost period requests : ℤ) : Row :=
  let start := lua.sub now (lua.mod now period)
  let count := stateCount lua start state
  let unclamped := lua.sub requests count
  let left := if unclamped < 0 then 0 else unclamped
  let boundary := lua.sub (lua.add start period) now
  { allowed := decide (cost ≤ left)
    exceeds := decide (requests < cost)
    remaining := left
    retry := if cost ≤ left ∨ requests < cost then -1 else boundary
    reset := if count = 0 then 0 else boundary
    charged :=
      if cost ≤ left then some ⟨lua.sub left cost, boundary, start, some (lua.add count cost)⟩
      else none }

structure Args where
  cost : ℤ
  alg : ℤ
  p1 : ℤ
  p2 : ℤ
  p3 : ℤ
  shadow : Bool

/-- Six texts per key, read with `tonumber`. -/
def readArgs (lua : Lua) : ℕ → List Text → Option (List Args)
  | 0, _ => some []
  | n + 1, cost :: alg :: p1 :: p2 :: p3 :: shadow :: rest => do
    let args : Args := ⟨← lua.tonumber cost, ← lua.tonumber alg, ← lua.tonumber p1,
      ← lua.tonumber p2, ← lua.tonumber p3, decide (shadow = ascii "1")⟩
    let tail ← readArgs lua n rest
    return args :: tail
  | _, _ => none

def evalRow (lua : Lua) (now : ℤ) (state : Option Text) (args : Args) : Row :=
  if args.alg = 1 then gcraRow lua now state args.cost args.p1 args.p2 args.p3
  else fixedRow lua now state args.cost args.p1 args.p2

def flag (b : Bool) : ℤ := if b then 1 else 0

/-- The reply quintuple as the first pass writes it. -/
def Row.plain (row : Row) : List ℤ :=
  [flag row.allowed, flag row.exceeds, row.remaining, row.retry, row.reset]

/-- The reply quintuple as the commit pass patches it. -/
def Charged.patched (c : Charged) : List ℤ := [1, 0, c.rc, -1, c.sc]

def Charged.state (lua : Lua) (c : Charged) : Text :=
  match c.sb with
  | some sb => lua.format c.sa ++ byte ':' :: lua.format sb
  | none => lua.format c.sa

/-- The commit pass. Redis refuses a lifetime that is not positive, and what
the script wrote before stays. -/
def commitRows (lua : Lua) (now : ℤ) : Db → List (Text × Row) → Db × Except Message (List ℤ)
  | db, [] => (db, .ok [])
  | db, (key, row) :: rest =>
    match row.charged with
    | none =>
      let tail := commitRows lua now db rest
      (tail.1, tail.2.map (row.plain ++ ·))
    | some c =>
      let px := lua.ceilDiv c.sc 1000
      if px ≤ 0 then (db, .error ⟨"ERR invalid expire time in 'set' command", []⟩)
      else
        let tail := commitRows lua now (db.insert key ⟨c.state lua, now + 1000 * px⟩) rest
        (tail.1, tail.2.map (c.patched ++ ·))

/-- `script.lua` at the given reading of the server's clock. -/
def script (lua : Lua) (now : ℕ) (db : Db) (keys : List Text) (argv : List Text) :
    Db × Except Message (List ℤ) :=
  let time := lua.add (lua.mul (now / 1000000 : ℕ) 1000000) (now % 1000000 : ℕ)
  match readArgs lua keys.length argv.tail with
  | none => (db, .error ⟨"attempt to perform arithmetic on a nil value", []⟩)
  | some args =>
    let rows :=
      List.zipWith (evalRow lua time) (keys.map fun k => (db.lookup k).map Stored.value) args
    let admitted := (args.zip rows).all fun p => p.1.shadow || p.2.allowed
    if admitted && decide (argv.head? = some (ascii "decide")) then
      let done := commitRows lua now db (keys.zip rows)
      (done.1, done.2.map (1 :: ·))
    else (db, .ok (flag admitted :: rows.flatMap Row.plain))

def boolArg (b : Bool) : Text := if b then ascii "1" else ascii "0"

def bucketArgs (b : Bucket) : Except Message (List Text) :=
  match b.algorithm with
  | .gcraID =>
    .ok [Strconv.formatInt b.cost, Strconv.formatInt 1, Strconv.formatInt (emissionMicros b.window),
      Strconv.formatInt (tauMicros b.window), Strconv.formatInt b.window.burst, boolArg b.shadow]
  | .fixedWindowID =>
    .ok [Strconv.formatInt b.cost, Strconv.formatInt 2, Strconv.formatInt (periodMicros b.window),
      Strconv.formatInt b.window.requests, Strconv.formatInt 0, boolArg b.shadow]
  | .unregistered code _ => .error ⟨"redis: unknown algorithm id %d", [.number code.val]⟩

def allArgs : List Bucket → Except Message (List Text)
  | [] => .ok []
  | b :: bs => do
    let args ← bucketArgs b
    let rest ← allArgs bs
    return args ++ rest

/-- A negative number of microseconds means that no retry hint applies. -/
def microsDuration (us : ℤ) : ℤ := if us < 0 then -1 else us * microsecond

/-- The verdicts of a flat reply, five values each. -/
def readVerdicts : List ℤ → List Verdict
  | allowed :: exceeds :: remaining :: retry :: reset :: rest =>
    ⟨decide (allowed = 1), remaining, decide (exceeds = 1), microsDuration retry,
      microsDuration reset⟩ :: readVerdicts rest
  | _ => []

def parseReply (reply : List ℤ) (n : ℕ) : Answer :=
  if reply.length ≠ 1 + n * 5 then
    .error ⟨"redis: decision script returned a malformed reply (%d values, want %d)",
      [.number reply.length, .number (1 + n * 5 : ℕ)]⟩
  else .ok (readVerdicts reply.tail)

def run (lua : Lua) (now : ℕ) (db : Db) (mode : Text) (buckets : List Bucket) : Db × Answer :=
  match guardBuckets buckets with
  | .error msg => (db, .error msg)
  | .ok () =>
    if buckets = [] then (db, .ok [])
    else
      match allArgs buckets with
      | .error msg => (db, .error msg)
      | .ok args =>
        let done := script lua now db (buckets.map Bucket.key) (mode :: args)
        match done.2 with
        | .error msg => (done.1, .error (msg.wrap "redis: decision script: " []))
        | .ok reply => (done.1, parseReply reply buckets.length)

def storeReset (db : Db) (keys : List Text) : Db := keys.foldl (fun db k => db.erase k) db

/-- A call as the server meets it: some of the keys whose lifetime has ended
are gone by then. Which ones is up to Redis. -/
structure Served where
  call : Call
  gone : Text → Bool

def Served.now (s : Served) : ℕ := s.call.now

def expire (now : ℤ) (gone : Text → Bool) (db : Db) : Db :=
  Library.eraseWhere
    (fun k => gone k && (db.lookup k).any fun v => decide (v.expireAt ≤ now)) db

def storeCall (lua : Lua) (db : Db) (s : Served) : Db × Answer :=
  let db := expire s.now s.gone db
  match s.call.op with
  | .decide bs => run lua s.now db (ascii "decide") bs
  | .peek bs => run lua s.now db (ascii "peek") bs
  | .reset ks => (storeReset db ks, .ok [])

end Ratelimit.Redis
