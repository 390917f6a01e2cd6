import Ratelimit.Base.Json
import Ratelimit.Compile.Snapshot
import Ratelimit.Management.CounterKey
import Ratelimit.Records.Redis

/-!
# Refusals, and the selection grammar

Rules by id, a window, an identity and a state select counters, in one canonical form for the
query and the body. An argument of a message is the text before `logSafe` bounds it. Of several
refused entries of a map, the first in key order is reported here.
-/
namespace Ratelimit.Management

open Library Compile

/-- The standard library functions that the handlers call. -/
structure Stdlib where
  /-- The hex SHA-256 of the encoding of a document. -/
  digest : Json → Text
  digest_length : ∀ j, (digest j).length = 64
  /-- The hex SHA-256 of a text. -/
  sum : Text → Text
  toLower : Text → Text
  /-- In nanoseconds. -/
  parseDuration : Text → Option ℤ

section Errors

inductive Code where
  | invalidRequest
  | notFound
  | conflict
  | gone
  | workLimit
  | internal
  | interrupted
  | storeDown
  deriving DecidableEq

def Code.text : Code → Text
  | invalidRequest => ascii "RLS-0400"
  | notFound => ascii "RLS-0404"
  | conflict => ascii "RLS-0409"
  | gone => ascii "RLS-0410"
  | workLimit => ascii "RLS-0422"
  | internal => ascii "RLS-0500"
  | interrupted => ascii "RLS-0501"
  | storeDown => ascii "RLS-0503"

inductive ConflictType where
  | commandMismatch
  | staleConfirmation
  | staleRuleSet
  | sweepInFlight
  deriving DecidableEq

structure BulkRuleCount where
  ruleID : Text
  matchedCount : Option ℕ
  resetCount : Option ℕ
  deriving DecidableEq

structure PartialReset where
  dryRun : Bool
  scanned : ℕ
  matchedCount : Option ℕ
  resetCount : Option ℕ
  rules : List BulkRuleCount
  keys : List Text
  truncated : Bool
  deriving DecidableEq

structure ApiError where
  code : Code
  message : Message
  fields : List Text
  conflictType : Option ConflictType
  partialReset : Option PartialReset
  retryAfter : ℤ
  /-- The id of an instance that a record keeps; any other is minted and forgotten. -/
  id : Option Text
  deriving DecidableEq

def errorf (code : Code) (message : Message) (fields : List Text) : ApiError :=
  ⟨code, message, fields, none, none, 0, none⟩

def invalid (message : Message) (fields : List Text) : ApiError :=
  errorf .invalidRequest message fields

def notFound (message : Message) : ApiError := errorf .notFound message []

def conflict (kind : ConflictType) (message : Message) : ApiError :=
  { errorf .conflict message [] with conflictType := some kind }

def storeDown (message : String) : ApiError := errorf .storeDown ⟨message, []⟩ []

/-- A failure that a record keeps under its id. -/
def replayOf (code : Code) (id : Text) (message : Message) (disclosed : PartialReset) : ApiError :=
  { errorf code message [] with id := some id, partialReset := some disclosed }

theorem passed_iff {ε α β : Type} {check : Except ε α} {rest : α → Except ε β} {out : β} :
    (check >>= rest) = .ok out ↔ ∃ v, check = .ok v ∧ rest v = .ok out := by
  rcases check with e | v <;> simp [bind, Except.bind]

end Errors

section Selectors

structure Selector where
  ruleIDs : List Text
  algorithm : Text
  periodSeconds : ℤ
  axes : Finmap fun _ : Text => List Text
  limitedOnly : Bool
  deriving DecidableEq

def Selector.empty : Selector := ⟨[], [], 0, ∅, false⟩

/-- A field that `omitempty` leaves out. -/
def omitempty (present : Bool) (name : String) (value : Json) : List (Text × Json) :=
  if present then [(ascii name, value)] else []

def texts (ts : List Text) : Json := .array (ts.map .string)

def Selector.canonical (s : Selector) : Json :=
  .object (omitempty (decide (s.ruleIDs ≠ [])) "ruleIds" (texts s.ruleIDs) ++
    omitempty (decide (s.algorithm ≠ [])) "algorithm" (.string s.algorithm) ++
    omitempty (decide (s.periodSeconds ≠ 0)) "periodSeconds" (.number s.periodSeconds) ++
    omitempty (decide (s.axes ≠ ∅)) "axes"
      (.object ((entries s.axes).map fun e => (e.1, texts e.2))) ++
    omitempty s.limitedOnly "limited" (.bool true))

def Selector.fingerprint (std : Stdlib) (s : Selector) : Text := (std.digest s.canonical).take 16

def sortedUnique (values : List Text) : List Text := values.toFinset.sort (· ≤ ·)

def checkRuleIDForm (id field : Text) : Except ApiError Unit :=
  let parts := Strings.split id (byte '/')
  if 2 < parts.length then
    .error (invalid ⟨"the rule id %s has more than the two block/rule segments; the policy segment the layout used to carry is gone, because a domain has exactly one policy", [.text id]⟩
      [field])
  else if [] ∈ parts then
    .error (invalid ⟨"the rule id %s carries an empty segment; use block or block/rule", [.text id]⟩
      [field])
  else .ok ()

def parsePeriod (std : Stdlib) (raw field : Text) : Except ApiError ℤ :=
  match Strconv.parseInt raw with
  | some seconds =>
    if seconds ≤ 0 then
      .error (invalid ⟨"the period must be a positive number of seconds", []⟩ [field])
    else .ok seconds
  | none =>
    match std.parseDuration raw with
    | none =>
      .error (invalid ⟨"the period %s is neither a number of seconds nor a duration such as 1m or 24h",
        [.text raw]⟩ [field])
    | some period =>
      if period ≤ 0 ∨ period.tmod Algo.second ≠ 0 then
        .error (invalid ⟨"the period must be a positive whole number of seconds", []⟩ [field])
      else .ok (period.tdiv Algo.second)

def matchesRuleID (id : Text) (parsed : CounterKey) : Bool :=
  match Strings.split id (byte '/') with
  | [block] => decide (parsed.block = block)
  | [_, _] => decide (parsed.ruleID = id)
  | _ => false

def Selector.matches (s : Selector) (parsed : CounterKey) : Bool :=
  if s.algorithm ≠ [] ∧ parsed.algorithm ≠ s.algorithm then false
  else if s.periodSeconds ≠ 0 ∧ parsed.periodSeconds ≠ s.periodSeconds then false
  else if s.ruleIDs = [] then true
  else s.ruleIDs.any fun id => matchesRuleID id parsed

def Selector.matchesAxes (s : Selector) (axes : Finmap fun _ : Text => Text) : Bool :=
  (entries s.axes).all fun e =>
    match axes.lookup e.1 with
    | none => false
    | some value => decide (value ∈ e.2)

/-- The keys that a path capture sets in the blocks the rule ids address. -/
def capturedKeys (snapshot : Snapshot) (ruleIDs : List Text) : List Text :=
  let addressed := ruleIDs.map fun id => (Strings.cut id (byte '/')).1
  (snapshot.blocks.filter fun b => addressed = [] ∨ b.name ∈ addressed).flatMap Block.captures

/-- The refusal of an identity value that the domain's normalization would change. -/
def unnormalized (std : Stdlib) (snapshot : Snapshot) (values : Text → List Text)
    (captured : List Text) (field : Text → Text) : Option ApiError :=
  snapshot.extraction.findSome? fun e =>
    if e.normalization ≠ .lowercase ∨ e.key ∈ captured then none
    else (values e.key).findSome? fun value =>
      if std.toLower value ≠ value then
        some (invalid ⟨"the %s value %q addresses no counter and no identity a request carries: the domain lowercases %s, so use %q",
          [.text e.key, .text value, .text e.key, .text (std.toLower value)]⟩ [field e.key])
      else none

end Selectors

section Keys

def recordTag (s : Key.Scope) : Text := ascii "rlm:v1:" ++ Key.domainTag s ++ ascii ":"

def tokenKey (s : Key.Scope) (token : Text) : Text := recordTag s ++ ascii "ct:" ++ token

def leaseKey (s : Key.Scope) : Text := recordTag s ++ ascii "sweep"

def recordKey (std : Stdlib) (s : Key.Scope) (endpoint subject idempotencyKey : Text) : Text :=
  recordTag s ++ ascii "idem:" ++ endpoint ++ ascii ":" ++
    (std.sum (subject ++ 0 :: idempotencyKey)).take 32

end Keys

section Callers

def isRequestIDByte (c : Byte) : Bool :=
  isLower c || isUpper c || Strconv.isDigit c

/-- Matches `requestIDPattern`. -/
def requestID : Text → Bool
  | [] => false
  | c :: s =>
    isRequestIDByte c && decide (s.length ≤ 127) &&
      s.all fun c => isRequestIDByte c || decide (c ∈ ascii "._:-")

def requestIDPattern : Text := ascii "^[A-Za-z0-9][A-Za-z0-9._:-]\x7b0,127\x7d$"

def headerIdempotencyKey : Text := ascii "Idempotency-Key"

def idempotencyKeyOf (key : Text) : Except ApiError Text :=
  if key = [] then
    .error (invalid ⟨"this mutation needs an Idempotency-Key header", []⟩ [headerIdempotencyKey])
  else if requestID key = false then
    .error (invalid ⟨"the Idempotency-Key does not match %s", [.text requestIDPattern]⟩
      [headerIdempotencyKey])
  else .ok key

/-- What a replica enforces in a domain when a call arrives. -/
structure Served (domain : Text) where
  snapshot : Snapshot
  version : Text
  domain_eq : snapshot.domain = domain

def servedOf {domain : Text} (served : Option (Served domain)) : Except ApiError (Served domain) :=
  match served with
  | some served => .ok served
  | none => .error (notFound ⟨"domain %s is not in the enforced rule set", [.text domain]⟩)

/-- What a mutation answers: a body, a poll for one, or a refusal. -/
inductive Response (Body : Type) where
  | body (b : Body)
  | pending (retryAfter : ℤ)
  | refused (e : ApiError)
  deriving DecidableEq

end Callers

end Ratelimit.Management
