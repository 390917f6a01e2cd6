import Ratelimit.Management.Sweep

/-!
# The counter-resets action

The handler of a bulk reset as a program over the store. What the replica itself
contributes to a call (the rule set it serves, the random values it mints) belongs
to the call. The answers are those of the source; the audit and error logs are not
modelled.
-/
namespace Ratelimit.Management

open Library Records Compile

structure BulkCall where
  scope : Key.Scope
  served : Option (Served scope.domain)
  subject : Text
  idempotencyKey : Text
  /-- The decoded body, or the refusal of it. -/
  body : Except ApiError BulkResetRequest
  fencing : Text
  fencing_ne : fencing ≠ []
  /-- The random part of a token this call would mint. -/
  tokenID : Text
  errorID : Text
  /-- A bound on the steps of the scan. -/
  fuel : ℕ

/-- A call that passed every check in front of the record. -/
structure Admitted where
  call : BulkCall
  served : Served call.scope.domain
  command : BulkCommand
  keys : Keys

namespace Admitted

variable (std : Stdlib) (a : Admitted)

def scope : Key.Scope := a.call.scope

def domain : Text := a.call.scope.domain

def hash : Text := a.command.command std a.domain

def sweep : Sweep := ⟨a.scope, a.served.snapshot, a.command, a.keys, a.call.fencing⟩

def acceptance : Acceptance := ⟨a.keys, a.hash std, a.call.fencing, leaseTTL⟩

def newConfirmationToken : Text := ascii "ct-" ++ a.call.tokenID

end Admitted

def refuse (e : ApiError) : Client (Response BulkResult) := pure (.refused e)

section Outcomes

variable (std : Stdlib) (a : Admitted)

def outcomeNotRecorded : String :=
  "the counter store did not answer while recording the outcome"

def replayFrom : Client (Response BulkResult) := do
  match ← lookup a.keys with
  | some record =>
    if record.found = false ∨ record.terminal = false then
      refuse (storeDown "the outcome of this command could not be read back")
    else pure (replay record.outcome a.domain a.command)
  | none => refuse (storeDown "the outcome of this command could not be read back")

/-- Records an outcome and answers, from the record where another hand was first. -/
def commitOutcome (outcome : Outcome) (answer : Response BulkResult) :
    Client (Response BulkResult) := do
  let verdict : Option WriteVerdict ← Prog.ask (Req.commit ⟨a.keys, a.call.fencing, outcome⟩)
  match verdict with
  | some .ok => pure answer
  | some .lost => replayFrom a
  | none => refuse (storeDown outcomeNotRecorded)

def failureCode : Fault → Code
  | .deadline => .workLimit
  | .failed => .interrupted

def failureMessage : Fault → Message
  | .deadline => ⟨"the selection did not finish within the server's work limit; narrow it, or reset rule by rule", []⟩
  | .failed => ⟨"the command was interrupted after acceptance", []⟩

/-- Writes a failure with the progress it discloses. -/
def commitFailure (fault : Fault) (progress : Progress) : Client (Response BulkResult) :=
  commitOutcome a
    { Outcome.zero with
      failed := true
      code := (failureCode fault).text
      errorID := a.call.errorID
      message := failureMessage fault
      progress }
    (.refused (replayOf (failureCode fault) a.call.errorID (failureMessage fault)
      (partialOf progress a.command.dryRun)))

def recordFailure (walker : Walker) (fault : Fault) : Client (Response BulkResult) :=
  match fault with
  | .deadline => commitFailure a .deadline walker.progress
  | .failed => do
    match ← lookup a.keys with
    | some record =>
      if record.found = false then refuse (storeDown outcomeNotRecorded)
      else commitFailure a .failed record.progress
    | none => refuse (storeDown outcomeNotRecorded)

def tokenDocument (expires : ℤ) : TokenDocument :=
  ⟨a.command.selection std, a.domain, a.call.subject, a.served.version, expires⟩

/-- The moment the token expires, or nothing where it could not be stored. -/
def mintToken : Client (Option ℤ) := do
  let t ← now
  let expires := t + confirmationTTL * millisecond
  let stored : Option Unit ← Prog.ask
    (Req.put (tokenKey a.scope a.newConfirmationToken) (tokenDocument std a expires) confirmationTTL)
  pure (stored.map fun _ => expires)

def finishSweep (walker : Walker) : Client (Response BulkResult) :=
  let outcome := { Outcome.zero with progress := walker.progress }
  let result := sweepResult walker.progress a.domain a.command.dryRun
  if a.command.dryRun then do
    match ← mintToken std a with
    | none => recordFailure a walker .failed
    | some expires =>
      commitOutcome a { outcome with token := a.newConfirmationToken, tokenExpiresAt := some expires }
        (.body { result with
          confirmationToken := a.newConfirmationToken
          confirmationExpiresAt := some expires })
  else commitOutcome a outcome (.body result)

def sweep : Client (Response BulkResult) := do
  let t ← now
  let (walker, fault) ← a.sweep.run (t + sweepDeadline) a.call.fuel [] Walker.start
  match fault with
  | some fault => recordFailure a walker fault
  | none => finishSweep std a walker

end Outcomes

section Handler

variable (std : Stdlib) (a : Admitted)

def interruptedOutcome : Outcome :=
  { Outcome.zero with
    failed := true
    code := Code.interrupted.text
    errorID := a.call.errorID
    message := ⟨"the command was interrupted after acceptance and its worker did not return", []⟩ }

def commandMismatch : ApiError :=
  conflict .commandMismatch
    ⟨"this Idempotency-Key is already bound to a different command; a new command needs a new key", []⟩

/-- The answer of `standing` once it has finalized the record. -/
def afterFinalize : Option Record → Client (Response BulkResult)
  | none => refuse (storeDown "the command record store did not answer")
  | some finalized =>
    if finalized.found = false then
      refuse (errorf .internal
        ⟨"the record of this command disappeared while it was being read", []⟩ [])
    else if finalized.terminal = false then
      pure (.pending (retryAfterSeconds finalized.leaseTTL))
    else pure (replay finalized.outcome a.domain a.command)

/-- Answers a retry by the state of the record. -/
def standing (record : Record) : Client (Response BulkResult) :=
  if record.command ≠ a.hash std then refuse commandMismatch
  else if record.terminal then pure (replay record.outcome a.domain a.command)
  else if record.alive then
    pure (.pending (retryAfterSeconds (min pollInterval record.leaseTTL)))
  else do afterFinalize a (← finalize ⟨a.keys, interruptedOutcome a⟩)

def tokenGone : ApiError :=
  errorf .gone ⟨"the confirmation token expired or was already used; run a new preview", []⟩ []

def notAccepted : ApiError :=
  storeDown "the command record store did not answer; the command was not accepted"

def checkDocument (token : TokenDocument) : Option ApiError :=
  if token.domain ≠ a.domain ∨ token.subject ≠ a.call.subject then
    some (conflict .staleConfirmation
      ⟨"this confirmation token belongs to another domain or another subject", []⟩)
  else if token.selection ≠ a.command.selection std then
    some (conflict .staleConfirmation
      ⟨"this confirmation token was minted for a different selection; preview the one you mean to run", []⟩)
  else if token.ruleSetVersion ≠ a.served.version then
    some (conflict .staleRuleSet
      ⟨"the enforced rule set changed since the preview; run a new preview", []⟩)
  else none

/-- The refusal of the confirmation token, if it is refused. -/
def checkToken : Client (Option ApiError) := do
  let found : Option (Option TokenDocument) ←
    Prog.ask (Req.get (tokenKey a.scope a.command.confirmationToken))
  match found with
  | none => pure (some notAccepted)
  | some none => pure (some tokenGone)
  | some (some token) => pure (checkDocument std a token)

def acceptCommand : Client (Response BulkResult) := do
  match ← accept (a.acceptance std) with
  | none =>
    refuse (storeDown "the command record store did not answer; retry the same Idempotency-Key, never a new one")
  | some (.sweepBusy ttl) =>
    refuse { conflict .sweepInFlight
      ⟨"another sweep is already running in domain %s; nothing was accepted, so retry after the wait",
        [.text a.domain]⟩ with retryAfter := ttl }
  | some .tokenMissing => refuse tokenGone
  | some (.existing record) =>
    -- the record of a lost reply is this call's own acceptance
    if record.found = true ∧ record.fencing = a.call.fencing then sweep std a
    else standing std a record
  | some (.ok _) => sweep std a

def admitBulk (call : BulkCall) : Except ApiError Admitted := do
  let served ← servedOf call.served
  let idempotencyKey ← idempotencyKeyOf call.idempotencyKey
  let request ← call.body
  let command ← parseBulk std served.snapshot.domain request
  match unnormalized std served.snapshot (fun k => (command.selector.axes.lookup k).getD [])
      (capturedKeys served.snapshot command.selector.ruleIDs) (fun _ => fieldSelectorAxes) with
  | some e => throw e
  | none =>
    let record := recordKey std call.scope endpointResets call.subject idempotencyKey
    pure ⟨call, served, command, commandKeys call.scope record command⟩

def resolve : Client (Response BulkResult) := do
  match ← lookup a.keys with
  | none => refuse notAccepted
  | some record =>
    if record.found then standing std a record
    else if a.command.dryRun then acceptCommand std a
    else do
      match ← checkToken std a with
      | some e => refuse e
      | none => acceptCommand std a

def handleBulkReset (call : BulkCall) : Client (Response BulkResult) :=
  match admitBulk std call with
  | .error e => refuse e
  | .ok a => resolve std a

end Handler

end Ratelimit.Management
