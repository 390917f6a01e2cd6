import Ratelimit.Management.Request

/-!
# Bulk commands

A body is one of four shapes: preview or execution, by selector or domain-wide.
An execution needs the token a preview of the same selection minted. What a
finished command answers is a function of the command and of the outcome its
record keeps.
-/
namespace Ratelimit.Management

open Library Records

def confirmationTTL : ℕ := 10 * 60 * 1000

def sweepDeadline : ℤ := 60 * Algo.second

def leaseTTL : ℕ := 75 * 1000

def pollInterval : ℤ := 5 * Algo.second

def keySampleLimit : ℕ := 100

def fieldSelectorAxes : Text := ascii "selector.axes"

def endpointResets : Text := ascii "counter-resets"

structure SelectorBody where
  ruleIDs : List Text
  algorithm : Text
  period : Text
  axes : Finmap fun _ : Text => List Text
  limited : Option Bool
  deriving DecidableEq

structure BulkResetRequest where
  selector : Option SelectorBody
  confirmDomain : Text
  dryRun : Option Bool
  confirmationToken : Text
  deriving DecidableEq

structure BulkCommand where
  selector : Selector
  domainWide : Bool
  dryRun : Bool
  confirmationToken : Text
  deriving DecidableEq

structure BulkResult where
  domain : Text
  dryRun : Bool
  scanned : ℕ
  keys : List Text
  truncated : Bool
  rules : List BulkRuleCount
  matchedCount : Option ℕ
  resetCount : Option ℕ
  confirmationToken : Text
  confirmationExpiresAt : Option ℤ
  deriving DecidableEq

section Parsing

/-- The value of an optional flag whose only value is true. -/
def onlyTrue (flag : Option Bool) (message : String) (field : Text) : Except ApiError Bool :=
  match flag with
  | none => .ok false
  | some true => .ok true
  | some false => .error (invalid ⟨message, []⟩ [field])

def checkAxis (name : Text) (values : List Text) : Except ApiError Unit :=
  if name = [] then
    .error (invalid ⟨"an axis in selector.axes needs a name", []⟩ [fieldSelectorAxes])
  else if values = [] then
    .error (invalid ⟨"axis %s carries no values; omit it instead", [.text name]⟩ [fieldSelectorAxes])
  else if [] ∈ values then
    .error (invalid ⟨"axis %s has an empty value, which addresses no counter", [.text name]⟩
      [fieldSelectorAxes])
  else .ok ()

def parseAxesBody : List (Text × List Text) → Except ApiError (Finmap fun _ : Text => List Text)
  | [] => .ok ∅
  | (name, values) :: rest => do
    checkAxis name values
    let axes ← parseAxesBody rest
    pure (axes.insert name (sortedUnique values))

def SelectorBody.parse (std : Stdlib) (s : SelectorBody) : Except ApiError Selector := do
  s.ruleIDs.forM fun id => checkRuleIDForm id (ascii "selector.ruleIds")
  let periodSeconds ← if s.period = [] then pure 0
    else parsePeriod std s.period (ascii "selector.period")
  let limitedOnly ← onlyTrue s.limited "the only value of limited is true; omit the field instead"
    (ascii "selector.limited")
  let axes ← parseAxesBody (entries s.axes)
  let out : Selector :=
    { ruleIDs := sortedUnique s.ruleIDs
      algorithm := if s.algorithm = [] then [] else std.toLower s.algorithm
      periodSeconds
      axes
      limitedOnly }
  if out = .empty then
    throw (invalid ⟨"the selector names nothing; use confirmDomain for the domain-wide form", []⟩
      [ascii "selector"])
  else pure out

def isLowerHex (c : Byte) : Bool :=
  Strconv.isDigit c || decide (byte 'a' ≤ c ∧ c ≤ byte 'f')

/-- Matches `confirmationTokenPattern`. -/
def confirmationToken (token : Text) : Bool :=
  match Strings.cutPrefix token (ascii "ct-") with
  | some id => decide (id.length = 12) && id.all isLowerHex
  | none => false

def checkConfirmation (dryRun : Bool) (token : Text) : Except ApiError Unit :=
  let field := ascii "confirmationToken"
  if dryRun then
    if token ≠ [] then
      .error (invalid ⟨"a preview mints a confirmation token; it does not take one", []⟩ [field])
    else .ok ()
  else if token = [] then
    .error (invalid ⟨"an execution needs the confirmationToken from a preview of this same selection; run the preview first with dryRun=true", []⟩
      [field])
  else if confirmationToken token = false then
    .error (invalid ⟨"the confirmationToken is not a token this API mints", []⟩ [field])
  else .ok ()

def parseBulk (std : Stdlib) (domain : Text) (request : BulkResetRequest) :
    Except ApiError BulkCommand := do
  let dryRun ← onlyTrue request.dryRun
    "the only value of dryRun is true; omit the field to execute" (ascii "dryRun")
  checkConfirmation dryRun request.confirmationToken
  let command := fun (selector : Selector) (domainWide : Bool) =>
    (⟨selector, domainWide, dryRun, request.confirmationToken⟩ : BulkCommand)
  match request.selector with
  | some body =>
    if request.confirmDomain ≠ [] then
      throw (invalid ⟨"confirmDomain is the domain-wide selection and stands alone; it does not combine with a selector", []⟩
        [ascii "confirmDomain"])
    else do
      let selector ← body.parse std
      pure (command selector false)
  | none =>
    if request.confirmDomain = [] then
      throw (invalid ⟨"the body names no selection: give a selector, or confirmDomain for the domain-wide form", []⟩
        [])
    else if request.confirmDomain ≠ domain then
      throw (invalid ⟨"confirmDomain %s does not match the path domain %s",
        [.text request.confirmDomain, .text domain]⟩ [ascii "confirmDomain"])
    else pure (command .empty true)

end Parsing

section Commands

/-- What a command deletes: what a confirmation token is bound to. -/
def BulkCommand.selection (std : Stdlib) (c : BulkCommand) : Text :=
  if c.domainWide then ascii "domain" else c.selector.fingerprint std

def BulkCommand.kind (c : BulkCommand) : Text :=
  (if c.dryRun then ascii "preview" else ascii "execute") ++ ascii "-" ++
    if c.domainWide then ascii "domain" else ascii "selector"

def BulkCommand.command (std : Stdlib) (c : BulkCommand) (domain : Text) : Text :=
  std.digest (.object ([(ascii "kind", .string c.kind), (ascii "domain", .string domain),
      (ascii "selector", c.selector.canonical)] ++
    omitempty c.domainWide "confirmDomain" (.string domain) ++
    omitempty c.dryRun "dryRun" (.bool true) ++
    omitempty (decide (c.confirmationToken ≠ [])) "confirmationToken"
      (.string c.confirmationToken)))

def commandKeys (s : Key.Scope) (record : Text) (c : BulkCommand) : Keys where
  record := record
  lease := leaseKey s
  token := if c.dryRun then none else some (tokenKey s c.confirmationToken)

end Commands

section Answers

def ruleCounts (rules : Finmap fun _ : Text => ℕ) (dryRun : Bool) : List BulkRuleCount :=
  (entries rules).map fun e =>
    if dryRun then ⟨e.1, some e.2, none⟩ else ⟨e.1, none, some e.2⟩

def partialOf (p : Progress) (dryRun : Bool) : PartialReset where
  dryRun := dryRun
  scanned := p.scanned
  matchedCount := if dryRun then some p.matched else none
  resetCount := if dryRun then none else some p.reset
  rules := ruleCounts p.rules dryRun
  keys := p.keys
  truncated := p.truncated

def sweepResult (p : Progress) (domain : Text) (dryRun : Bool) : BulkResult where
  domain := domain
  dryRun := dryRun
  scanned := p.scanned
  keys := p.keys
  truncated := p.truncated
  rules := ruleCounts p.rules dryRun
  matchedCount := if dryRun then some p.matched else none
  resetCount := if dryRun then none else some p.reset
  confirmationToken := []
  confirmationExpiresAt := none

/-- A completed command's body from what the record kept. -/
def resultOf (outcome : Outcome) (domain : Text) (c : BulkCommand) : BulkResult :=
  let result := sweepResult outcome.progress domain c.dryRun
  if c.dryRun then
    { result with
      confirmationToken := outcome.token
      confirmationExpiresAt := outcome.tokenExpiresAt }
  else result

/-- The answer from a recorded outcome: the same body, or the same error instance. -/
def replay (outcome : Outcome) (domain : Text) (c : BulkCommand) : Response BulkResult :=
  if outcome.failed = false then .body (resultOf outcome domain c)
  else
    let code := if outcome.code = Code.workLimit.text then Code.workLimit else .interrupted
    .refused (replayOf code outcome.errorID outcome.message (partialOf outcome.progress c.dryRun))

def retryAfterSeconds (wait : ℤ) : ℤ := max (wait.tdiv Algo.second) 1

end Answers

end Ratelimit.Management
