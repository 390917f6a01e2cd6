import Ratelimit.Management.BulkReset

/-!
# The addressed reset

One rule and one value for every axis name a finite set of keys. The store binds the key of
the call, drops the keys and records the answer in one step. A retry is recognized by the hash
of its query and answered from the record.
-/
namespace Ratelimit.Management

open Library Records Compile Store

def endpointCounters : Text := ascii "counters"

def axisPrefix : Text := ascii "axis."

/-- `url.Values`, every repetition kept. -/
abbrev Query := Finmap fun _ : Text => List Text

/-- The first value under a name, empty where there is none. -/
def Query.get (q : Query) (name : String) : Text := ((q.lookup (ascii name)).getD []).headD []

structure ResetCall where
  scope : Key.Scope
  served : Option (Served scope.domain)
  subject : Text
  idempotencyKey : Text
  query : Query

section Parsing

def selectorParams (extra : List Text) : List Text :=
  [ascii "ruleId", ascii "algorithm", ascii "period", ascii "limited"] ++ extra

def resetParams : List Text := selectorParams [ascii "dryRun", ascii "expectedRuleSetVersion"]

def checkQueryNames (q : Query) (allowed : List Text) : Except ApiError Unit :=
  let unknown := (q.keys.sort (· ≤ ·)).filter fun name =>
    name ∉ allowed ∧ Strings.hasPrefix name axisPrefix = false
  if unknown = [] then .ok ()
  else .error (invalid ⟨"the query carries parameters this endpoint does not define: %s",
    [.list unknown]⟩ unknown)

def parseEnumTrue (q : Query) (name : String) : Except ApiError Bool :=
  let raw := q.get name
  if raw = [] then .ok false
  else if raw = ascii "true" then .ok true
  else .error (invalid ⟨"the only value of %s is true; omit the parameter instead of passing %s",
    [.text (ascii name), .text raw]⟩ [ascii name])

def parseAxes : List (Text × List Text) → Except ApiError (Finmap fun _ : Text => List Text)
  | [] => .ok ∅
  | (parameter, values) :: rest =>
    match Strings.cutPrefix parameter axisPrefix with
    | none => parseAxes rest
    | some name =>
      if name = [] then
        .error (invalid ⟨"an axis parameter needs a name after %s", [.text axisPrefix]⟩ [parameter])
      else if [] ∈ values then
        .error (invalid ⟨"axis %s has an empty value, which addresses no counter", [.text name]⟩
          [parameter])
      else do
        let axes ← parseAxes rest
        pure (axes.insert name (sortedUnique values))

def parseSelector (std : Stdlib) (q : Query) : Except ApiError Selector := do
  let ids := (q.lookup (ascii "ruleId")).getD []
  ids.forM fun id => checkRuleIDForm id (ascii "ruleId")
  let algorithm := q.get "algorithm"
  let period := q.get "period"
  let periodSeconds ← if period = [] then pure 0 else parsePeriod std period (ascii "period")
  let limitedOnly ← parseEnumTrue q "limited"
  let axes ← parseAxes (entries q)
  pure
    { ruleIDs := sortedUnique ids
      algorithm := if algorithm = [] then [] else std.toLower algorithm
      periodSeconds
      axes
      limitedOnly }

end Parsing

section Commands

structure ResetCommand where
  selector : Selector
  dryRun : Bool
  expectedVersion : Text
  id : Text
  block : Block
  rule : Rule
  axesByName : Finmap fun _ : Text => Text
  ordered : List Text

/-- The hash an Idempotency-Key is bound to: the query alone determines it. -/
def resetHash (std : Stdlib) (selector : Selector) (dryRun : Bool) (expectedVersion : Text) : Text :=
  std.digest (.object ([(ascii "selector", selector.canonical)] ++
    omitempty dryRun "dryRun" (.bool true) ++
    omitempty (decide (expectedVersion ≠ [])) "expectedRuleSetVersion" (.string expectedVersion)))

def resetBinding (std : Stdlib) (q : Query) : Except ApiError Text := do
  let selector ← parseSelector std q
  let dryRun ← parseEnumTrue q "dryRun"
  pure (resetHash std selector dryRun (q.get "expectedRuleSetVersion"))

def findRule (snapshot : Snapshot) (block rule : Text) : Option (Block × Rule) :=
  (snapshot.blocks.filter fun b => b.name = block).findSome? fun b =>
    (b.rules.find? fun r => r.name = rule).map (Prod.mk b)

/-- The values of the declared axes in their order, one each. -/
def orderedValues (id : Text) (axes : Finmap fun _ : Text => List Text) :
    List Text → Except ApiError (List Text)
  | [] => .ok []
  | name :: names =>
    match axes.lookup name with
    | some [value] => do
      let rest ← orderedValues id axes names
      pure (value :: rest)
    | _ =>
      .error (invalid ⟨"axis %s of rule %s takes exactly one value here; several values address several counters",
        [.text name, .text id]⟩ [axisPrefix ++ name])

def resolveAxes (id : Text) (declared : List Text) (axes : Finmap fun _ : Text => List Text) :
    Except ApiError (List Text) :=
  match (entries axes).find? fun e => e.1 ∉ declared with
  | some (name, _) =>
    .error (invalid ⟨"rule %s does not count by axis %s; it counts by [%s]",
      [.text id, .text name, .list declared]⟩ [axisPrefix ++ name])
  | none =>
    if (entries axes).length ≠ declared.length then
      .error (invalid ⟨"the addressed reset needs one value for every axis of %s [%s]; a partial selection is a counter-resets action, never a silently wider reset",
        [.text id, .list declared]⟩ [ascii "axis"])
    else orderedValues id axes declared

def parseReset (std : Stdlib) (snapshot : Snapshot) (q : Query) : Except ApiError ResetCommand := do
  checkQueryNames q resetParams
  let selector ← parseSelector std q
  match selector.ruleIDs with
  | [id] =>
    match splitID id with
    | none =>
      throw (invalid ⟨"the ruleId %s is not a full block/rule id; prefix forms are refused here",
        [.text id]⟩ [ascii "ruleId"])
    | some (block, rule) => do
      let dryRun ← parseEnumTrue q "dryRun"
      match findRule snapshot block rule with
      | none =>
        throw (notFound ⟨"no rule %s is enforced in domain %s; a rule missing here but present in a policy object means the policy was rejected or is running on an earlier spec",
          [.text id, .text snapshot.domain]⟩)
      | some (b, r) => do
        let ordered ← resolveAxes id r.counters selector.axes
        pure
          { selector
            dryRun
            expectedVersion := q.get "expectedRuleSetVersion"
            id
            block := b
            rule := r
            axesByName := (r.counters.zip ordered).foldl (fun axes e => axes.insert e.1 e.2) ∅
            ordered }
  | _ =>
    throw (invalid ⟨"the addressed reset takes exactly one full block/rule id; wider selections are a counter-resets action", []⟩
      [ascii "ruleId"])

/-- What a parsed command takes from the query, and what from the snapshot. -/
structure Resolves (std : Stdlib) (snapshot : Snapshot) (q : Query) (c : ResetCommand) : Prop where
  selector : parseSelector std q = .ok c.selector
  dryRun : parseEnumTrue q "dryRun" = .ok c.dryRun
  expectedVersion : c.expectedVersion = q.get "expectedRuleSetVersion"
  ruleIDs : c.selector.ruleIDs = [c.id]
  rule : ∃ block rule, splitID c.id = some (block, rule) ∧
    findRule snapshot block rule = some (c.block, c.rule)
  ordered : resolveAxes c.id c.rule.counters c.selector.axes = .ok c.ordered
  axesByName : c.axesByName =
    (c.rule.counters.zip c.ordered).foldl (fun axes e => axes.insert e.1 e.2) ∅

theorem parseReset_resolves {std : Stdlib} {snapshot : Snapshot} {q : Query} {c : ResetCommand}
    (h : parseReset std snapshot q = .ok c) : Resolves std snapshot q c := by
  obtain ⟨-, -, h⟩ := passed_iff.mp h
  obtain ⟨selector, hselector, h⟩ := passed_iff.mp h
  split at h
  · next id hids =>
    split at h
    · cases h
    · next block rule hsplit =>
      obtain ⟨dryRun, hdryRun, h⟩ := passed_iff.mp h
      split at h
      · cases h
      · next b r hfind =>
        obtain ⟨ordered, hordered, h⟩ := passed_iff.mp h
        cases h
        exact ⟨hselector, hdryRun, rfl, hids, ⟨block, rule, hsplit, hfind⟩, hordered, rfl⟩
  · cases h

namespace ResetCommand

variable (c : ResetCommand)

def hash (std : Stdlib) : Text := resetHash std c.selector c.dryRun c.expectedVersion

def windowSelected (rate : Rate) : Bool :=
  if c.selector.algorithm ≠ [] ∧ Strings.toLowerAscii rate.algorithm.name ≠ c.selector.algorithm then
    false
  else if c.selector.periodSeconds ≠ 0 ∧
      rate.window.period.tdiv Algo.second ≠ c.selector.periodSeconds then false
  else true

def bucketOf (rate : Rate) : Text := Key.bucket rate.keyPrefix c.ordered

/-- The counter keys the command addresses, one per selected window. -/
def keys : List Text := sortedUnique ((c.rule.rates.filter c.windowSelected).map c.bucketOf)

/-- The cost-1 buckets of keys; of two rates with one key the last counts. -/
def buckets (computed : List Text) : List Bucket :=
  computed.filterMap fun k =>
    (c.rule.rates.reverse.find? fun rate => c.bucketOf rate = k).map fun rate =>
      ⟨k, rate.algorithm.id, rate.window, decide (c.rule.behavior = .shadow), 1⟩

end ResetCommand

end Commands

section Handler

variable (std : Stdlib)

/-- The keys whose windows would refuse the next cost-1 request. -/
def refusingKeys (c : ResetCommand) (computed : List Text) :
    Client (Except ApiError (List Text)) := do
  let buckets := c.buckets computed
  let answer : Option Answer ← Prog.ask (Req.peek buckets)
  match answer with
  | some (.ok verdicts) =>
    if verdicts.length ≠ buckets.length then
      pure (.error (errorf .internal
        ⟨"the counter store answered a different number of verdicts than keys", []⟩ []))
    else pure (.ok (((buckets.zip verdicts).filter fun p => !p.2.allowed).map fun p => p.1.key))
  | _ => pure (.error (storeDown "the counter store did not answer the read"))

def counted (answer : ResetResponse) (count : ℕ) : ResetResponse :=
  if answer.dryRun then { answer with matchedCount := some count }
  else { answer with resetCount := some count }

def resetAnswer (domain version : Text) (c : ResetCommand) : ResetResponse :=
  ⟨domain, c.id, version, c.axesByName, c.keys, c.dryRun, none, none⟩

def dropKeys (record : Text) (c : ResetCommand) (answer : ResetResponse) (drop : List Text) :
    Client (Response ResetResponse) := do
  match ← reset ⟨record, c.hash std, drop, c.dryRun, answer⟩ with
  | none =>
    pure (.refused (storeDown "the counter store did not accept the reset; nothing was bound, so the call can be retried"))
  | some outcome =>
    if outcome.replayed = true ∧ outcome.command ≠ c.hash std then pure (.refused commandMismatch)
    else pure (.body (counted answer outcome.count))

def runReset (domain version record : Text) (c : ResetCommand) : Client (Response ResetResponse) :=
  if c.keys = [] then
    pure (.refused (notFound ⟨"rule %s has no window matching the algorithm and period given",
      [.text c.id]⟩))
  else if c.selector.limitedOnly then do
    match ← refusingKeys c c.keys with
    | .error e => pure (.refused e)
    | .ok drop => dropKeys std record c (resetAnswer domain version c) drop
  else dropKeys std record c (resetAnswer domain version c) c.keys

/-- The answer to a retry, if the call is one. -/
def replayReset (q : Query) (record : Text) : Client (Option (Response ResetResponse)) :=
  match resetBinding std q with
  | .error _ => pure none
  | .ok binding => do
    match ← lookup ⟨record, [], none⟩ with
    | none =>
      pure (some (.refused (storeDown "the counter store did not answer the idempotency lookup")))
    | some found =>
      match found.answer with
      | none => pure none
      | some answer =>
        if found.found = false ∨ found.terminal = false then pure none
        else if found.command ≠ binding then pure (some (.refused commandMismatch))
        else pure (some (.body (counted answer found.progress.reset)))

/-- The checks of a new command against what is enforced now. -/
def judgeReset (snapshot : Snapshot) (version : Text) (q : Query) : Except ApiError ResetCommand := do
  let c ← parseReset std snapshot q
  match unnormalized std snapshot (fun k => (c.axesByName.lookup k).toList)
      (capturedKeys snapshot [c.block.name]) (fun k => axisPrefix ++ k) with
  | some e => throw e
  | none =>
    if c.expectedVersion ≠ [] ∧ c.expectedVersion ≠ version then
      throw (conflict .staleRuleSet
        ⟨"the enforced rule set is now %s, not the %s this call pinned; re-read the rules and repeat the command",
          [.text version, .text c.expectedVersion]⟩)
    else pure c

theorem judgeReset_ok {snapshot : Snapshot} {version : Text} {q : Query} {c : ResetCommand}
    (h : judgeReset std snapshot version q = .ok c) :
    Resolves std snapshot q c ∧ (c.expectedVersion = [] ∨ c.expectedVersion = version) := by
  obtain ⟨c', hparse, h⟩ := passed_iff.mp h
  split at h
  · cases h
  · split_ifs at h with hversion
    cases h
    refine ⟨parseReset_resolves hparse, ?_⟩
    by_cases hnone : c.expectedVersion = []
    · exact Or.inl hnone
    · exact Or.inr (not_not.mp fun hne => hversion ⟨hnone, hne⟩)

def admitReset (call : ResetCall) : Except ApiError (Served call.scope.domain × Text) := do
  let served ← servedOf call.served
  let idempotencyKey ← idempotencyKeyOf call.idempotencyKey
  checkQueryNames call.query resetParams
  pure (served, recordKey std call.scope endpointCounters call.subject idempotencyKey)

def resolveReset (call : ResetCall) (served : Served call.scope.domain) (record : Text) :
    Client (Response ResetResponse) := do
  match ← replayReset std call.query record with
  | some answer => pure answer
  | none =>
    match judgeReset std served.snapshot served.version call.query with
    | .error e => pure (.refused e)
    | .ok c => runReset std served.snapshot.domain served.version record c

def handleReset (call : ResetCall) : Client (Response ResetResponse) :=
  match admitReset std call with
  | .error e => pure (.refused e)
  | .ok (served, record) => resolveReset std call served record

end Handler

end Ratelimit.Management
