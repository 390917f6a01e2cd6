import Ratelimit.Engine.Decision

/-!
# The rate limit service

Each descriptor of a check is decided on its own, in order; the check refuses where one of them
does, and an error of the store ends it. The engine is two functions on its state. Metrics and
log lines are left out.
-/
namespace Ratelimit.Rls

open Library Engine

def descriptorKeyPath : Text := ascii "path"

def descriptorKeyMethod : Text := ascii "method"

def descriptorKeyToken : Text := ascii "token"

def descriptorKeyRequestID : Text := ascii "request_id"

def maxDescriptorsPerCheck : ℕ := 16

def maxHitsAddend : UInt64 := UInt64.ofNat Model.maxCost.toNat

section Protocol

structure DescriptorEntry where
  key : Text
  value : Text
  deriving DecidableEq

structure Descriptor where
  entries : List DescriptorEntry
  /-- Absent where the caller did not set it. -/
  hitsAddend : Option UInt64
  isNegativeHits : Bool
  deriving DecidableEq

structure RateLimitRequest where
  domain : Text
  descriptors : List Descriptor
  hitsAddend : UInt32
  deriving DecidableEq

inductive Code where
  | ok
  | overLimit
  deriving DecidableEq

structure HeaderValue where
  key : Text
  value : Text
  deriving DecidableEq

structure RateLimitResponse where
  overallCode : Code
  responseHeadersToAdd : List HeaderValue
  deriving DecidableEq

inductive StatusCode where
  | unavailable
  deriving DecidableEq

structure StatusError where
  code : StatusCode
  message : Message
  deriving DecidableEq

abbrev Reply := Except StatusError RateLimitResponse

end Protocol

section Requests

/-- The engine request of one descriptor, and whether it is decided without
charging. -/
structure Check where
  request : Request
  free : Bool

def addEntry (er : Request) (entry : DescriptorEntry) : Request :=
  if entry.value = [] then er
  else if entry.key = descriptorKeyPath then { er with path := entry.value }
  else if entry.key = descriptorKeyMethod then { er with method := entry.value }
  else if entry.key = descriptorKeyToken then { er with token := entry.value }
  else if entry.key = descriptorKeyRequestID then er
  else { er with
    keys := er.keys.insert entry.key ((er.keys.lookup entry.key).getD [] ++ [entry.value]) }

def bareRequest (cost : ℤ) : Request := ⟨[], [], [], ∅, cost⟩

/-- `int64` of an unsigned value. -/
def int64Of (n : UInt64) : ℤ := (n.toNat : ℤ).bmod (2 ^ 64)

def engineRequest (cost : ℤ) (descriptor : Descriptor) : Check :=
  match descriptor.hitsAddend with
  | none => ⟨descriptor.entries.foldl addEntry (bareRequest cost), false⟩
  | some addend =>
    let own := int64Of addend
    ⟨descriptor.entries.foldl addEntry (bareRequest own), decide (own = 0)⟩

/-- A request without descriptors still makes one decision. -/
def engineRequests (req : RateLimitRequest) : List Check :=
  let cost : ℤ := req.hitsAddend.toNat
  if req.descriptors = [] then [⟨bareRequest cost, false⟩]
  else req.descriptors.map (engineRequest cost)

/-- The loop of `costViolation`: the descriptors from index `i` on. -/
def addCosts (requestCost : UInt64) : ℕ → UInt64 → List Descriptor → Except Message UInt64
  | _, total, [] => .ok total
  | i, total, descriptor :: rest =>
    if descriptor.isNegativeHits then
      .error ⟨"is_negative_hits on descriptor %d", [.number i]⟩
    else
      match descriptor.hitsAddend with
      | none => addCosts requestCost (i + 1) (total + requestCost) rest
      | some addend =>
        if maxHitsAddend < addend then
          .error ⟨"hits_addend %d on descriptor %d, over the limit of %d",
            [.number addend.toNat, .number i, .number maxHitsAddend.toNat]⟩
        else addCosts requestCost (i + 1) (total + addend) rest

/-- The description of a cost the engine does not charge, if there is one. -/
def costViolation (req : RateLimitRequest) : Option Message :=
  let requestCost : UInt64 := if req.hitsAddend = 0 then 1 else req.hitsAddend.toUInt64
  match addCosts requestCost 0 0 req.descriptors with
  | .error violation => some violation
  | .ok sum =>
    let total := if req.descriptors = [] then requestCost else sum
    if maxHitsAddend < total then
      some ⟨"a total cost of %d, over the limit of %d",
        [.number total.toNat, .number maxHitsAddend.toNat]⟩
    else none

/-- The path, without its query string, is the prefix or lies under it by whole
segments. -/
def underPrefix (path pre : Text) : Bool :=
  match Strings.cutPrefix (Strings.cut path (byte '?')).1 pre with
  | none => false
  | some [] => true
  | some (c :: _) => decide (c = byte '/')

end Requests

section Headers

def noDecision : Decision := ⟨false, false, none, [], false, [], []⟩

/-- The loop body of `strictestDecision`. -/
def keepStricter (allowed : Bool) (best d : Decision) : Decision :=
  match d.headers with
  | none => best
  | some h =>
    if d.allowed ≠ allowed then best
    else
      match best.headers with
      | none => d
      | some b =>
        if allowed then
          if mul64 h.remaining b.cost < mul64 b.remaining h.cost then d else best
        else if b.retryAfter < h.retryAfter then d
        else best

def strictestDecision (decisions : List Decision) (allowed : Bool) : Decision :=
  let best := decisions.foldl (keepStricter allowed) noDecision
  match best.headers with
  | none => { best with allowed }
  | some _ => best

def ceilSeconds (d : ℤ) : ℤ :=
  if d ≤ 0 then 0 else (d + Algo.second - 1).tdiv Algo.second

def header (key : String) (value : Text) : HeaderValue := ⟨ascii key, value⟩

/-- The two structured fields, under the name of the rule. -/
def ietfFields (h : Headers) : List HeaderValue :=
  let policy := ascii "\"" ++ h.block ++ ascii "/" ++ h.rule ++ ascii "\""
  let quota := policy ++ ascii ";r=" ++ Strconv.formatInt h.remaining ++
    if 0 ≤ h.effectiveWindow then ascii ";t=" ++ Strconv.formatInt (ceilSeconds h.effectiveWindow)
    else []
  [header "ratelimit-policy" (policy ++ ascii ";q=" ++ Strconv.formatInt h.limit ++ ascii ";w=" ++
      Strconv.formatInt h.periodSeconds),
    header "ratelimit" quota]

def responseHeaders (ietfHeaders : Bool) (decision : Decision) : List HeaderValue :=
  match decision.headers with
  | none => []
  | some h =>
    [header "x-ratelimit-limit" (Strconv.formatInt h.limit),
      header "x-ratelimit-remaining" (Strconv.formatInt h.remaining),
      header "x-ratelimit-reset" (Strconv.formatInt (ceilSeconds h.resetAfter))] ++
    (if decision.allowed = false ∧ 0 ≤ h.retryAfter then
      [header "retry-after" (Strconv.formatInt (ceilSeconds h.retryAfter))] else []) ++
    if ietfHeaders then ietfFields h else []

end Headers

/-- An engine bound to its counters, as the server asks it. -/
structure Decider (S : Type) where
  decide : S → Request → S × Except Failure Decision
  peek : S → Request → S × Except Failure Decision

structure Server where
  ietfHeaders : Bool
  exemptPrefix : Text
  exemptDomains : List Text

section Checks

variable {S : Type} (srv : Server)

def Server.withoutExempt (domain : Text) (requests : List Check) : List Check :=
  if domain ∉ srv.exemptDomains then requests
  else requests.filter fun c => !underPrefix c.request.path srv.exemptPrefix

def Decider.attempt (eng : Decider S) (s : S) (c : Check) : S × Except Failure Decision :=
  if c.free then eng.peek s c.request else eng.decide s c.request

/-- The loop over the descriptors, with the decisions so far. -/
def Server.decideAll (eng : Decider S) : S → List Check → List Decision → Bool → S × Reply
  | s, [], decisions, allowed =>
    (s, .ok ⟨if allowed then .ok else .overLimit,
      responseHeaders srv.ietfHeaders (strictestDecision decisions allowed)⟩)
  | s, c :: cs, decisions, allowed =>
    match eng.attempt s c with
    -- a configuration violation denies whatever came before
    | (s, .error (.tooManyBuckets _)) => (s, .ok ⟨.overLimit, []⟩)
    | (s, .error (.store _)) =>
      if allowed = false then
        (s, .ok ⟨.overLimit,
          responseHeaders srv.ietfHeaders (strictestDecision decisions false)⟩)
      else (s, .error ⟨.unavailable, ⟨"rate limit store unavailable", []⟩⟩)
    | (s, .ok d) => decideAll eng s cs (decisions ++ [d]) (allowed && d.allowed)

def Server.shouldRateLimit (engines : Text → Option (Decider S)) (s : S) (req : RateLimitRequest) :
    S × Reply :=
  match engines req.domain with
  -- no policy means no limit to enforce
  | none => (s, .ok ⟨.ok, []⟩)
  | some eng =>
    let requests := engineRequests req
    if maxDescriptorsPerCheck < requests.length then (s, .ok ⟨.overLimit, []⟩)
    else
      match costViolation req with
      | some _ => (s, .ok ⟨.overLimit, []⟩)
      | none =>
        let requests := srv.withoutExempt req.domain requests
        if requests = [] then (s, .ok ⟨.ok, []⟩)
        else srv.decideAll eng s requests [] true

end Checks

end Ratelimit.Rls
