import Ratelimit.Management.Sweep
import Ratelimit.Ruleview.View

/-!
# The listing of counters

The walk reads the store one whole step at a time and stops between steps once the page size,
the scan budget or the step cap is reached. What it kept is judged by one peek. A continuation
is kept as the document it encodes, which carries text and not bytes.
-/
namespace Ratelimit.Management

open Library Records Compile Store

def scanBudget : ℕ := 12000

def maxScanSteps : ℕ := 128

def cursorTTL : ℤ := 10 * 60 * Algo.second

section Asking

inductive CounterReq where
  | scan (pre cursor : Text) (limit : ℤ)
  | peek (buckets : List Bucket)

/-- `badCursor` is the error `ErrBadCursor`; a call that failed otherwise has no reply. -/
inductive ScanReply where
  | page (keys : List Text) (next : Text)
  | badCursor

@[reducible] def CounterReply : CounterReq → Type
  | .scan _ _ _ => ScanReply
  | .peek _ => Store.Answer

abbrev Lister (α : Type) := Prog CounterReq CounterReply α

inductive ScanFault where
  | badCursor
  | failed
  deriving DecidableEq

end Asking

section Walking

structure EnforcedCandidate where
  key : Text
  ref : RateRef
  ruleID : Text
  axes : Finmap fun _ : Text => Text
  deriving DecidableEq

structure Listing where
  scope : Key.Scope
  snapshot : Snapshot
  selector : Selector
  pageSize : ℤ

/-- What one walk produced: the counters it kept, how many keys it looked at,
whether it stopped with steps unread, and the store cursor to resume with. -/
structure Page where
  candidates : List EnforcedCandidate
  scanned : ℕ
  more : Bool
  resume : Text
  deriving DecidableEq

def Page.empty : Page := ⟨[], 0, false, []⟩

def Page.stopped (p : Page) (next : Text) : Page := { p with more := true, resume := next }

namespace Listing

variable (l : Listing)

def admits (k : Text) : Option EnforcedCandidate :=
  match parseCounterKey l.scope k with
  | .error _ => none
  | .ok parsed =>
    if l.selector.matches parsed = false then none
    else
      match rateIndex l.snapshot parsed.ratePrefix with
      | none => none
      | some ref =>
        match parsed.namedAxes ref.rule.counters with
        | .error _ => none
        | .ok axes =>
          if l.selector.matchesAxes axes = false then none
          else some ⟨k, ref, parsed.ruleID, axes⟩

def take (p : Page) (keys : List Text) : Page :=
  keys.foldl (fun p k =>
    { p with
      scanned := p.scanned + 1
      candidates := p.candidates ++ (l.admits k).toList }) p

def full (p : Page) (steps : ℕ) : Bool :=
  decide (l.pageSize ≤ p.candidates.length) || decide (scanBudget ≤ p.scanned) ||
    decide (maxScanSteps ≤ steps)

def room (p : Page) : ℤ := min (l.pageSize - p.candidates.length) (scanBudget - p.scanned)

def scanPrefix : Text := Management.scanPrefix l.scope l.selector

/-- The loop of `selectCandidates`, with so many steps left before the cap. -/
def selectFrom : ℕ → Text → Page → Lister (Except ScanFault Page)
  | 0, next, out => pure (.ok (out.stopped next))
  | left + 1, next, out =>
    if l.full out (maxScanSteps - (left + 1)) then pure (.ok (out.stopped next))
    else do
      let step : Option ScanReply ← Prog.ask (CounterReq.scan l.scanPrefix next (l.room out))
      match step with
      | none => pure (.error .failed)
      | some .badCursor => pure (.error .badCursor)
      | some (.page keys next) =>
        let out := l.take out keys
        if next = [] then pure (.ok out) else selectFrom left next out

def selectCandidates (start : Text) : Lister (Except ScanFault Page) :=
  l.selectFrom maxScanSteps start .empty

end Listing

end Walking

section Judging

/-- The two waits are durations, which the API prints in seconds. -/
structure CounterView where
  key : Text
  ruleID : Text
  block : Text
  rule : Text
  algorithm : Text
  periodSeconds : ℤ
  mode : Ruleview.RuleMode
  axes : Finmap fun _ : Text => Text
  limit : ℤ
  remaining : ℤ
  limited : Bool
  retryAfter : ℤ
  resetAfter : ℤ
  deriving DecidableEq

def EnforcedCandidate.bucket (c : EnforcedCandidate) : Bucket :=
  ⟨c.key, c.ref.rate.algorithm.id, c.ref.rate.window, c.ref.shadow, 1⟩

def counterView (c : EnforcedCandidate) (bucket : Bucket) (verdict : Verdict) : CounterView where
  key := c.key
  ruleID := ruleID c.ref.block.name c.ref.rule.name
  block := c.ref.block.name
  rule := c.ref.rule.name
  algorithm := Ruleview.algorithm c.ref.rate
  periodSeconds := c.ref.rate.window.period.tdiv Algo.second
  mode := Ruleview.mode c.ref.rule.behavior
  axes := c.axes
  limit := bucket.window.requests
  remaining := verdict.remaining
  limited := !verdict.allowed
  retryAfter := if 0 < verdict.retryAfter then verdict.retryAfter else 0
  resetAfter := if 0 < verdict.resetAfter then verdict.resetAfter else 0

def views (limitedOnly : Bool) (candidates : List EnforcedCandidate) (verdicts : List Verdict) :
    List CounterView :=
  ((candidates.zip verdicts).filter fun p => !(limitedOnly && p.2.allowed)).map fun p =>
    counterView p.1 p.1.bucket p.2

def judge (candidates : List EnforcedCandidate) (limitedOnly : Bool) :
    Lister (Except ApiError (List CounterView)) :=
  if candidates = [] then pure (.ok [])
  else do
    let buckets := candidates.map EnforcedCandidate.bucket
    let answer : Option Store.Answer ← Prog.ask (CounterReq.peek buckets)
    match answer with
    | some (.ok verdicts) =>
      if verdicts.length ≠ buckets.length then
        pure (.error (errorf .internal ⟨"the counter store answered %d verdicts for %d keys",
          [.number verdicts.length, .number buckets.length]⟩ []))
      else pure (.ok (views limitedOnly candidates verdicts))
    | _ => pure (.error (storeDown "the counter store did not answer the read"))

end Judging

section Pages

def fieldCursor : Text := ascii "cursor"

/-- A continuation: the store's own cursor of the next step, with the selection it was
minted for. -/
structure Cursor where
  step : Text
  fingerprint : Text
  expiresAt : ℤ
  deriving DecidableEq

structure CounterList where
  items : List CounterView
  nextCursor : Option Cursor
  truncated : Bool
  scanned : ℕ
  deriving DecidableEq

def unix (t : ℤ) : ℤ := t / Algo.second

variable (std : Stdlib)

def encodeCursor (step : Text) (s : Selector) (now : ℤ) : Cursor :=
  ⟨Utf8.coerce step, s.fingerprint std, unix (now + cursorTTL)⟩

/-- A text that is no document of this API decodes to nothing. -/
def decodeCursor (raw : Option Cursor) (s : Selector) (now : ℤ) : Except ApiError Text :=
  match raw with
  | none => .error (invalid ⟨"the cursor is not a continuation this API minted", []⟩ [fieldCursor])
  | some parsed =>
    if parsed.fingerprint ≠ s.fingerprint std then
      .error (invalid ⟨"the cursor was minted for a different selection; restart the listing", []⟩
        [fieldCursor])
    else if parsed.expiresAt < unix now then
      .error (invalid ⟨"the cursor has expired; restart the listing", []⟩ [fieldCursor])
    else .ok parsed.step

def listCounters (l : Listing) (start : Text) (now : ℤ) : Lister (Except ApiError CounterList) := do
  match ← l.selectCandidates start with
  | .error .badCursor =>
    pure (.error (invalid ⟨"the store cannot resume the cursor; restart the listing", []⟩
      [fieldCursor]))
  | .error .failed => pure (.error (storeDown "the counter store did not answer the scan"))
  | .ok page =>
    match ← judge page.candidates l.selector.limitedOnly with
    | .error e => pure (.error e)
    | .ok items =>
      if page.more then
        pure (.ok ⟨items, some (encodeCursor std page.resume l.selector now), true, page.scanned⟩)
      else pure (.ok ⟨items, none, false, page.scanned⟩)

/-- The end of `handleCounters`, with what the text of a cursor decodes to. -/
def servePage (l : Listing) (cursor : Option (Option Cursor)) (now : ℤ) :
    Lister (Except ApiError CounterList) :=
  match cursor with
  | none => listCounters std l [] now
  | some raw =>
    match decodeCursor std raw l.selector now with
    | .error e => pure (.error e)
    | .ok start => listCounters std l start now

end Pages

end Ratelimit.Management
