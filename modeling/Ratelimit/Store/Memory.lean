import Ratelimit.Store.Contract
import Ratelimit.Library.Maps

/-!
# The in-memory store

One map from keys to entries, all timestamps in Unix microseconds. The clock is read once at
the start of a call and is a parameter here. Expiry is lazy: evaluating a bucket drops an entry
that is past its deadline or that another algorithm wrote.
-/
namespace Ratelimit.Memory

open Algo Store

structure Entry where
  algorithm : ID
  tat : ℤ
  start : ℤ
  count : ℤ
  deadline : ℤ
  deriving DecidableEq

def Entry.zero : Entry := ⟨.unregistered 0 (by decide), 0, 0, 0, 0⟩

structure Outcome where
  allowed : Bool
  costExceeds : Bool
  retryAfter : ℤ
  remainCharged : ℤ
  remainCurrent : ℤ
  resetCharged : ℤ
  resetCurrent : ℤ
  next : Entry
  deriving DecidableEq

abbrev Entries := Finmap fun _ : Text => Entry

def microsDuration (us : ℤ) : ℤ := us * microsecond

def nonNegative (x : ℤ) : ℤ := if x < 0 then 0 else x

def arrival (e : Option Entry) (now : ℤ) : ℤ :=
  match e with
  | some e => if now < e.tat then e.tat else now
  | none => now

def evalGCRA (e : Option Entry) (now : ℤ) (w : Window) (cost : ℤ) : Outcome :=
  let emission := emissionMicros w
  let tau := tauMicros w
  let tat := arrival e now
  let depth := tat - now
  let current := nonNegative ((tau - depth).tdiv emission)
  if w.burst < cost then
    { allowed := false, costExceeds := true, retryAfter := -1, remainCharged := 0,
      remainCurrent := current, resetCharged := 0, resetCurrent := microsDuration depth,
      next := Entry.zero }
  else
    let newTat := tat + emission * cost
    let diff := now - (newTat - tau)
    { allowed := decide (0 ≤ diff)
      costExceeds := false
      retryAfter := if 0 ≤ diff then -1 else microsDuration (-diff)
      remainCharged := nonNegative (diff.tdiv emission)
      remainCurrent := current
      resetCharged := microsDuration (newTat - now)
      resetCurrent := microsDuration depth
      next := ⟨.gcraID, newTat, 0, 0, newTat⟩ }

/-- The consumed count of the window that starts at `start`. -/
def counted (e : Option Entry) (start : ℤ) : ℤ :=
  match e with
  | some e => if e.start = start then e.count else 0
  | none => 0

/-- The start of the epoch-aligned window that holds `now`. -/
def windowStart (now period : ℤ) : ℤ := now - now.tmod period

def evalFixed (e : Option Entry) (now : ℤ) (w : Window) (cost : ℤ) : Outcome :=
  let period := periodMicros w
  let start := windowStart now period
  let count := counted e start
  let left := max (w.requests - count) 0
  let boundary := microsDuration (start + period - now)
  { allowed := decide (cost ≤ left)
    costExceeds := decide (w.requests < cost)
    retryAfter := if ¬cost ≤ left ∧ ¬w.requests < cost then boundary else -1
    remainCharged := left - cost
    remainCurrent := left
    resetCharged := boundary
    resetCurrent := if count = 0 then 0 else boundary
    next := ⟨.fixedWindowID, 0, start, count + cost, start + period⟩ }

def chargedVerdict (o : Outcome) : Verdict := ⟨true, o.remainCharged, false, -1, o.resetCharged⟩

def currentVerdict (o : Outcome) : Verdict :=
  ⟨o.allowed, o.remainCurrent, o.costExceeds, o.retryAfter, o.resetCurrent⟩

/-- The entry a bucket is judged on, with the map after the lazy drop. -/
def fetch (now : ℤ) (m : Entries) (b : Bucket) : Entries × Option Entry :=
  match m.lookup b.key with
  | some e =>
    if e.deadline ≤ now ∨ e.algorithm ≠ b.algorithm then (m.erase b.key, none) else (m, some e)
  | none => (m, none)

/-- The dispatch of `evalAll` on the bucket's algorithm. -/
def evalBucket (now : ℤ) (e : Option Entry) (b : Bucket) : Except Message Outcome :=
  match b.algorithm with
  | .gcraID => .ok (evalGCRA e now b.window b.cost)
  | .fixedWindowID => .ok (evalFixed e now b.window b.cost)
  | .unregistered code _ => .error ⟨"memory: unknown algorithm id %d", [.number code.val]⟩

def evalAll (now : ℤ) : Entries → List Bucket → Entries × Except Message (List Outcome)
  | m, [] => (m, .ok [])
  | m, b :: bs =>
    let fetched := fetch now m b
    match evalBucket now fetched.2 b with
    | .error msg => (fetched.1, .error msg)
    | .ok o =>
      let rest := evalAll now fetched.1 bs
      (rest.1, rest.2.map (o :: ·))

/-- The commit pass over the buckets and their outcomes. -/
def commit (admitting : Bool) : Entries → List (Bucket × Outcome) → Entries × List Verdict
  | m, [] => (m, [])
  | m, (b, o) :: rest =>
    if admitting && o.allowed then
      let tail := commit admitting (m.insert b.key o.next) rest
      (tail.1, chargedVerdict o :: tail.2)
    else
      let tail := commit admitting m rest
      (tail.1, currentVerdict o :: tail.2)

def storeDecide (now : ℕ) (m : Entries) (buckets : List Bucket) :
    Entries × Except Message (List Verdict) :=
  match guardBuckets buckets with
  | .error msg => (m, .error msg)
  | .ok () =>
    let evaluated := evalAll now m buckets
    match evaluated.2 with
    | .error msg => (evaluated.1, .error msg)
    | .ok outs =>
      let pairs := buckets.zip outs
      let done := commit (pairs.all fun p => p.1.shadow || p.2.allowed) evaluated.1 pairs
      (done.1, .ok done.2)

def storePeek (now : ℕ) (m : Entries) (buckets : List Bucket) :
    Entries × Except Message (List Verdict) :=
  match guardBuckets buckets with
  | .error msg => (m, .error msg)
  | .ok () =>
    let evaluated := evalAll now m buckets
    (evaluated.1, evaluated.2.map fun outs => outs.map currentVerdict)

def storeReset (m : Entries) (keys : List Text) : Entries := keys.foldl (fun m k => m.erase k) m

def storeCall (m : Entries) (c : Call) : Entries × Answer :=
  match c.op with
  | .decide bs => storeDecide c.now m bs
  | .peek bs => storePeek c.now m bs
  | .reset ks => (storeReset m ks, .ok [])

/-- The entry under a key, unless its deadline has passed. -/
def live (now : ℤ) (m : Entries) (k : Text) : Option Entry :=
  (m.lookup k).filter fun e => now < e.deadline

/-- The pass of a scan over the map, which drops what has expired. -/
def sweepExpired (now : ℤ) (m : Entries) : Entries :=
  Library.eraseWhere (fun k => (live now m k).isNone) m

/-- The live keys under a prefix and above a cursor, in key order. -/
def above (now : ℤ) (m : Entries) (pre cursor : Text) : List Text :=
  (m.keys.filter fun k =>
    (live now m k).isSome = true ∧ cursor < k ∧ Strings.hasPrefix k pre = true).sort (· ≤ ·)

def storeScan (now : ℕ) (m : Entries) (pre cursor : Text) (limit : ℤ) :
    Entries × Except Message (List Text × Text) :=
  if limit < 1 then
    (m, .error ⟨"memory: scan: limit must be at least 1, got %d", [.number limit]⟩)
  else
    let keys := above now m pre cursor
    if (keys.length : ℤ) ≤ limit then (sweepExpired now m, .ok (keys, []))
    else
      let page := keys.take limit.toNat
      (sweepExpired now m, .ok (page, page.getLastD []))

end Ratelimit.Memory
