import Ratelimit.Engine.Identity
import Ratelimit.Library.Selection
import Ratelimit.Store.Memory

/-!
# The decision core

A compiled snapshot bound to a counter store answers one request at a time:
matching into buckets, one store call, and the headers of the strictest
enforcing bucket. The store call is a parameter of the pipeline: deciding
charges, peeking does not.
-/
namespace Ratelimit.Engine

open Algo Store Match Compile Identity Library

/-- One request; explicit keys win over what the token carries. -/
structure Request where
  path : Text
  method : Text
  token : Text
  keys : Keys
  cost : ℤ

structure Headers where
  block : Text
  rule : Text
  limit : ℤ
  remaining : ℤ
  retryAfter : ℤ
  resetAfter : ℤ
  cost : ℤ
  effectiveWindow : ℤ
  algorithm : Text
  periodSeconds : ℤ
  deriving DecidableEq

structure RuleOutcome where
  block : Text
  rule : Text
  shadow : Bool
  allowed : Bool
  cost : ℤ
  costExceedsCapacity : Bool
  limit : ℤ
  capacity : ℤ
  remaining : ℤ
  retryAfter : ℤ
  algorithm : Text
  periodSeconds : ℤ
  deriving DecidableEq

structure Decision where
  allowed : Bool
  costExceedsCapacity : Bool
  headers : Option Headers
  rules : List RuleOutcome
  targeted : Bool
  skips : List Skip
  extractedKeys : List Text
  deriving DecidableEq

/-- The two kinds of error: the budget, and the store's own. -/
inductive Failure where
  | tooManyBuckets (n : ℕ)
  | store (e : Message)
  deriving DecidableEq

def Failure.message : Failure → Message
  | tooManyBuckets n =>
    ⟨"engine: the decision exceeds the bucket budget: the request matched %d buckets", [.number n]⟩
  | store e => e

def maxDecisionBuckets : ℕ := Model.maxDomainDecisionBuckets

def mul64 (x y : ℤ) : ℤ := (x * y).bmod (2 ^ 64)

abbrev Judged := Bucket × Verdict

/-- Whether a bucket binds harder than the current best: a smaller remaining
over cost on allow, a longer wait on refusal, the smaller key on a tie. -/
def stricter (allowed : Bool) (x best : Judged) : Bool :=
  if allowed then
    let left := mul64 x.2.remaining best.1.cost
    let right := mul64 best.2.remaining x.1.cost
    if left ≠ right then left < right else x.1.key < best.1.key
  else if x.2.costExceedsCapacity ≠ best.2.costExceedsCapacity then x.2.costExceedsCapacity
  else if x.2.costExceedsCapacity = false ∧ x.2.retryAfter ≠ best.2.retryAfter then
    best.2.retryAfter < x.2.retryAfter
  else x.1.key < best.1.key

/-- The buckets the loop of `strictestIndex` passes over. -/
def passesOver (allowed skipShadow : Bool) (x : Judged) : Bool :=
  skipShadow && x.1.shadow || !allowed && x.2.allowed

/-- The loop of `strictestIndex` over a range, each bucket with its index. -/
def strictestFrom (allowed skipShadow : Bool) :
    List (Judged × ℕ) → Option (Judged × ℕ) → Option (Judged × ℕ)
  | [], best => best
  | x :: rest, best =>
    if passesOver allowed skipShadow x.1 then strictestFrom allowed skipShadow rest best
    else
      match best with
      | none => strictestFrom allowed skipShadow rest (some x)
      | some y =>
        strictestFrom allowed skipShadow rest (if stricter allowed x.1 y.1 then some x else some y)

def strictestIndex (judged : List Judged) (start stop : ℕ) (allowed skipShadow : Bool) :
    Option (Judged × ℕ) :=
  strictestFrom allowed skipShadow ((judged.zipIdx.drop start).take (stop - start)) none

/-- What a window's remaining counts down from. -/
def bucketCapacity (w : Window) : ℤ := if 0 < w.burst then w.burst else w.requests

/-- How long until the bucket admits one request more than its verdict reports. -/
def effectiveWindow (b : Bucket) (v : Verdict) : ℤ :=
  if bucketCapacity b.window ≤ v.remaining then -1
  else if b.algorithm ≠ .gcraID then v.resetAfter
  else
    let depth := v.resetAfter.tdiv microsecond
    let emission := emissionMicros b.window
    (depth - tauMicros b.window + (v.remaining + 1) * emission) * microsecond

def algorithmName (id : ID) : Text :=
  match byID id with
  | none => []
  | some a => Strings.toLowerAscii a.name

/-- The matched rule that owns a bucket of the flattened list. -/
def ruleOf : List MatchedRule → ℕ → MatchedRule
  | [], _ => ⟨[], [], false, 0, []⟩
  | m :: ms, i => if i < m.buckets.length then m else ruleOf ms (i - m.buckets.length)

def headersOf (owner : MatchedRule) (x : Judged) (costExceeds : Bool) : Headers :=
  { block := owner.block
    rule := owner.rule
    limit := x.1.window.requests
    remaining := x.2.remaining
    retryAfter := if costExceeds then -1 else x.2.retryAfter
    resetAfter := x.2.resetAfter
    cost := x.1.cost
    effectiveWindow := effectiveWindow x.1 x.2
    algorithm := algorithmName x.1.algorithm
    periodSeconds := x.1.window.period.tdiv second }

/-- The headers of the strictest enforcing bucket, and whether no waiting cures it. -/
def aggregate (matched : List MatchedRule) (judged : List Judged) (allowed : Bool) :
    Option Headers × Bool :=
  let costExceeds := !allowed && judged.any fun x => !x.1.shadow && x.2.costExceedsCapacity
  match strictestIndex judged 0 judged.length allowed true with
  | none => (none, false)
  | some (x, i) => (some (headersOf (ruleOf matched i) x costExceeds), costExceeds)

/-- One rule's own verdict, from its range of the judged buckets. -/
def ruleOutcome (m : MatchedRule) (judged : List Judged) (start : ℕ) : RuleOutcome :=
  let own := (judged.drop start).take m.buckets.length
  let allowed := own.all fun x => x.2.allowed
  let base : RuleOutcome :=
    { block := m.block, rule := m.rule, shadow := m.shadow, allowed, cost := m.cost
      costExceedsCapacity := own.any fun x => !x.2.allowed && x.2.costExceedsCapacity
      limit := 0, capacity := 0, remaining := 0, retryAfter := 0, algorithm := []
      periodSeconds := 0 }
  match strictestIndex judged start (start + m.buckets.length) allowed false with
  | none => base
  | some (x, _) =>
    { base with
      limit := x.1.window.requests
      capacity := bucketCapacity x.1.window
      remaining := x.2.remaining
      retryAfter := x.2.retryAfter
      algorithm := algorithmName x.1.algorithm
      periodSeconds := x.1.window.period.tdiv second }

/-- The verdicts folded back onto their rules, from index `start` on. -/
def ruleOutcomes (judged : List Judged) : ℕ → List MatchedRule → List RuleOutcome
  | _, [] => []
  | start, m :: ms =>
    ruleOutcome m judged start :: ruleOutcomes judged (start + m.buckets.length) ms

/-- The declared identity keys the request carried, in the order of the set. -/
def keyNames (snap : Snapshot) (keys : Keys) : List Text :=
  snap.effectiveKeys.filter fun k => k ∈ keys

def decisionOf (snap : Snapshot) (matched : List MatchedRule) (verdicts : List Verdict)
    (keys : Keys) (skips : List Skip) : Decision :=
  let buckets := bucketsOf matched
  let allowed := admitted buckets verdicts
  let judged := buckets.zip verdicts
  let aggregated := aggregate matched judged allowed
  { allowed
    costExceedsCapacity := aggregated.2
    headers := aggregated.1
    rules := ruleOutcomes judged 0 matched
    targeted := true
    skips
    extractedKeys := keyNames snap keys }

def untouched (targeted : Bool) (skips : List Skip) (extractedKeys : List Text) : Decision :=
  { allowed := true, costExceedsCapacity := false, headers := none, rules := [], targeted, skips
    extractedKeys }

/-- The cost a request charges; zero means one. -/
def Request.ownCost (req : Request) : ℤ := if req.cost = 0 then 1 else req.cost

variable {S : Type}

/-- The pipeline behind `Decide` and `Peek`. -/
def evaluate (codec : Codec) (snap : Snapshot) (judge : S → List Bucket → S × Answer) (s : S)
    (req : Request) : S × Except Failure Decision :=
  let cands := candidates snap req.path req.method
  if cands.empty then (s, .ok (untouched false [] []))
  else
    let (keys, skips) := extractKeys codec snap.extraction req.token req.keys
    let matched := cands.evaluate keys req.ownCost
    let buckets := bucketsOf matched
    if buckets = [] then (s, .ok (untouched true skips (keyNames snap keys)))
    else if maxDecisionBuckets < buckets.length then (s, .error (.tooManyBuckets buckets.length))
    else
      match judge s buckets with
      | (s, .error e) => (s, .error (.store e))
      | (s, .ok verdicts) => (s, .ok (decisionOf snap matched verdicts keys skips))

/-- `Decide` on the in-memory store, at a reading of its clock. -/
def decideRequest (codec : Codec) (snap : Snapshot) (now : ℕ) (m : Memory.Entries) (req : Request) :
    Memory.Entries × Except Failure Decision :=
  evaluate codec snap (Memory.storeDecide now) m req

/-- `Peek` on the in-memory store. -/
def peekRequest (codec : Codec) (snap : Snapshot) (now : ℕ) (m : Memory.Entries) (req : Request) :
    Memory.Entries × Except Failure Decision :=
  evaluate codec snap (Memory.storePeek now) m req

end Ratelimit.Engine
