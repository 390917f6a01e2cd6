import Ratelimit.Compile.Routes

/-!
# Compilation of the blocks, and of a whole domain

Every helper reports what it finds and goes on: a repeated name is reported and
skipped, a defective predicate or window is reported and left out. Compilation
is all or nothing, so none of what was left out matters to an accepted policy.
-/
namespace Ratelimit.Compile

open Algo Library

/-- The keys a rule of a block may name, and whether they are array-valued. -/
abbrev BlockKeys := Finmap fun _ : Text => Bool

/-- Whether the parameters of a predicate fit its operator. -/
def operatorArity (b : Model.Block) (r : Model.Rule) (p : Model.Predicate) : Checked Bool :=
  let bad (format : String) (args : List Arg) : Checked Bool := do
    Logged.report (failure b.name r.name .invalidSpec format args)
    pure false
  match p.operator with
  | .equals | .contains | .inGroup =>
    if p.value = [] ∨ p.values ≠ [] then
      bad "%s takes value and nothing else" [.text p.operator.text]
    else pure true
  | .isIn =>
    if p.values = [] ∨ p.value ≠ [] then
      bad "In takes a non-empty values list and nothing else" []
    else pure true
  | .exist | .doesNotExist =>
    if p.value ≠ [] ∨ p.values ≠ [] then
      bad "%s takes no parameters" [.text p.operator.text]
    else pure true
  | .other t _ => bad "unknown operator %q" [.text t]

/-- The part of `compilePredicate` after its key and its parameters. -/
def compileOperator (c : BlockCompiler) (b : Model.Block) (r : Model.Rule) (p : Model.Predicate)
    (isArray : Bool) : Checked (Option Predicate) :=
  let compiled (values : Finset Text) : Predicate :=
    { key := p.key, operator := p.operator, value := p.value, values }
  match p.operator with
  | .equals => do
    Logged.reportIf (isArray = true) (failure b.name r.name .incompatibleOperator
      "Equals cannot apply to the array-valued key %q" [.text p.key])
    pure (some (compiled ∅))
  | .isIn => pure (some (compiled p.values.toFinset))
  | .inGroup =>
    match c.env.groups.lookup p.value with
    | none => do
      Logged.report (failure b.name r.name .unresolvedGroupReference
        "InGroup names %q, which no group declares" [.text p.value])
      pure none
    | some values => pure (some (compiled values.toFinset))
  | .contains | .exist | .doesNotExist | .other _ _ => pure (some (compiled ∅))

def compilePredicate (c : BlockCompiler) (b : Model.Block) (r : Model.Rule)
    (blockKeys : BlockKeys) (p : Model.Predicate) : Checked (Option Predicate) :=
  if p.key = Model.keyPath ∨ p.key = Model.keyMethod ∨ p.key = Model.keyToken then do
    Logged.report (failure b.name r.name .invalidSpec
      "matches key %q belongs to the target, not to matches" [.text p.key])
    pure none
  else
    match blockKeys.lookup p.key with
    | none => do
      Logged.report (failure b.name r.name .unresolvedKeyReference
        "key %q is not in the effective set of the domain" [.text p.key])
      pure none
    | some isArray => do
      let fits ← operatorArity b r p
      if fits then compileOperator c b r p isArray else pure none

/-- The axes are only checked: the compiled rule takes them as authored. -/
def compileCounters (b : Model.Block) (r : Model.Rule) (blockKeys : BlockKeys) : Checked Unit :=
  Logged.each (fun axis =>
    match blockKeys.lookup axis with
    | none => Logged.report (failure b.name r.name .unresolvedKeyReference
        "counter axis %q is not in the effective set of the domain" [.text axis])
    | some isArray => Logged.reportIf (isArray = true) (failure b.name r.name .invalidCounterAxis
        "the array-valued key %q cannot be a counter axis" [.text axis])) r.counters

def resolveAlgorithm (name : Text) : Text := if name = [] then ascii "GCRA" else name

/-- The window with the documented default burst, a full bucket. -/
def resolveWindow (a : Algorithm) (rate : Model.Rate) : Window :=
  { requests := rate.requests
    period := rate.period
    burst := if a = .gcra ∧ rate.burst = 0 then rate.requests else rate.burst }

def compileRate (b : Model.Block) (r : Model.Rule) (ident : Key.Ident) (rate : Model.Rate) :
    Checked (Option Rate) :=
  let name := resolveAlgorithm rate.algorithm
  match byName name with
  | none => do
    Logged.report (failure b.name r.name .invalidSpec "unknown algorithm %q; known: %v"
      [.text rate.algorithm, .list names])
    pure none
  | some a =>
    let w := resolveWindow a rate
    match check a w with
    | .error e => do
      let message := Message.wrap "window %s/%s: " [.text name, .duration rate.period] e
      Logged.report ⟨b.name, r.name, .invalidWindow, message, !informational .invalidWindow⟩
      pure none
    | .ok () => pure (some { algorithm := a, window := w, keyPrefix := Key.ratePrefix ident a w })

/-- Whether the rates of the rule are worth walking. -/
def ratesCompilable (b : Model.Block) (r : Model.Rule) (behavior : Model.Behavior) :
    Checked Bool :=
  if behavior = .bypass then do
    Logged.reportIf (r.rates ≠ [])
      (failure b.name r.name .invalidSpec "a Bypass rule carries no rates" [])
    pure false
  else if r.rates = [] then do
    Logged.report
      (failure b.name r.name .invalidSpec "a counting rule carries at least one rates entry" [])
    pure false
  else pure true

def compileRates (c : BlockCompiler) (b : Model.Block) (r : Model.Rule)
    (behavior : Model.Behavior) : Checked (List Rate) := do
  let compilable ← ratesCompilable b r behavior
  if compilable then
    Logged.collectDistinct Model.Rate.period
      (fun rate => failure b.name r.name .invalidSpec "two rates entries share the period %s"
        [.duration rate.period])
      (compileRate b r { scope := c.scope, block := b.name, rule := r.name }) [] r.rates
  else pure []

def resolveBehavior (behavior : Model.Behavior) : Model.Behavior :=
  if behavior = .unset then .enforce else behavior

def compileRule (c : BlockCompiler) (b : Model.Block) (blockKeys : BlockKeys) (r : Model.Rule) :
    Checked Rule := do
  let behavior := resolveBehavior r.behavior
  Logged.reportIf (behavior ∉ [.enforce, .shadow, .bypass])
    (failure b.name r.name .invalidSpec "unknown behavior %q" [.text r.behavior.text])
  Logged.reportIf (behavior = .bypass ∧ b.mode ≠ .firstMatch ∧ r.replacedRules = [])
    (failure b.name r.name .invalidSpec
      "a Bypass rule under All names the rules it exempts from in replacedRules" [])
  let predicates ← Logged.collect (compilePredicate c b r blockKeys) r.predicates
  compileCounters b r blockKeys
  let rates ← compileRates c b r behavior
  pure
    { name := r.name
      behavior
      predicates
      counters := r.counters
      rates
      replacedRules := r.replacedRules }

def checkReplacedRules (b : Model.Block) (mode : Model.Mode) (names : List Text) : Checked Unit :=
  Logged.each (fun r =>
    if r.replacedRules = [] then pure ()
    else if mode = .firstMatch then
      Logged.report (failure b.name r.name .invalidSpec
        "replacedRules is not available under FirstMatch, where the order of the rules already decides"
        [])
    else
      Logged.each (fun target =>
        Logged.reportIf (target ∉ names ∨ target = r.name)
          (failure b.name r.name .unresolvedReplacedRules
            "replacedRules names %q, which is not another rule of this block" [.text target]))
        r.replacedRules) b.rules

/-- The burst of a GCRA window and the requests of a fixed one. -/
def capacity (w : Window) : ℤ := if w.burst = 0 then w.requests else w.burst

/-- The first window of the rule whose capacity is below the cost. -/
def windowBelow (rule : Rule) (cost : ℤ) : Option (Rate × ℤ) :=
  (rule.rates.find? fun rate => capacity rate.window < cost).map fun rate =>
    (rate, capacity rate.window)

def checkCostCapacity (b : Block) : Checked Unit :=
  Logged.each (fun route =>
    match route.cost with
    | none => pure ()
    | some cost =>
      Logged.each (fun rule =>
        match windowBelow rule cost.defaultCost with
        | none => pure ()
        | some (rate, capacity) =>
          Logged.report (failure b.name rule.name .costExceedsCapacity
            "route %q reads a default cost of %d, above the capacity %d of the %s window of %s"
            [.text route.value, .number cost.defaultCost, .number capacity,
              .text rate.algorithm.name, .duration rate.window.period])) b.rules) b.routes

def resolveMode (mode : Model.Mode) : Model.Mode := if mode = .unset then .all else mode

/-- The keys of the domain and the captures of the block, which win. -/
def blockKeys (keys : BlockKeys) (captures : List Text) : BlockKeys :=
  captures.foldl (fun keys capture => keys.insert capture false) keys

/-- A repeated rule adds no name. -/
def compileBlock (c : BlockCompiler) (b : Model.Block) : Checked Block := do
  let mode := resolveMode b.mode
  Logged.reportIf (mode ≠ .all ∧ mode ≠ .firstMatch)
    (failure b.name [] .invalidSpec "unknown mode %q" [.text b.mode.text])
  let (routes, captures) ← compileRoutes c b
  Logged.reportIf (b.rules = []) (failure b.name [] .invalidSpec "a block without rules" [])
  let rules ← Logged.collectDistinct Model.Rule.name
    (fun r => failure b.name r.name .invalidSpec "rule %q is declared twice" [.text r.name])
    (fun r => some <$> compileRule c b (blockKeys c.env.keys captures) r) [] b.rules
  checkReplacedRules b mode (b.rules.map Model.Rule.name)
  let out : Block := { name := b.name, mode, routes, captures, rules }
  checkCostCapacity out
  pure out

def compileBlocks (c : BlockCompiler) (p : Model.Policy) : Checked (List Block) := do
  Logged.reportIf (p.blocks = []) (failure [] [] .invalidSpec "a policy without blocks" [])
  Logged.collectDistinct Model.Block.name
    (fun b => failure b.name [] .invalidSpec "block %q is declared twice" [.text b.name])
    (fun b => some <$> compileBlock c b) [] p.blocks

/-- One step of the loop of `blockDecisionBuckets` over its two counters. -/
def countRule (mode : Model.Mode) (counts : ℕ × ℕ) (r : Rule) : ℕ × ℕ :=
  if mode ≠ .firstMatch ∨ r.behavior = .shadow then (counts.1 + r.rates.length, counts.2)
  else (counts.1, max counts.2 r.rates.length)

/-- What a block always counts, and the widest rule a cascade can settle on. -/
def blockDecisionBuckets (b : Block) : ℕ :=
  let counts := b.rules.foldl (countRule b.mode) (0, 0)
  counts.1 + counts.2

def decisionBuckets (blocks : List Block) : ℕ := (blocks.map blockDecisionBuckets).sum

def blocking (problems : List Problem) : Bool := problems.any Problem.blocking

/-- A snapshot without blocks. -/
def bareSnapshot (domain : Text) (effectiveKeys : List Text) (extraction : List KeyExtraction) :
    Snapshot :=
  { domain, effectiveKeys, blocks := [], extraction, decisionBuckets := 0 }

def budgetFailure (n : ℕ) : Problem :=
  ⟨[], [], .domainBudgetExceeded,
    ⟨"one decision can collect up to %d buckets across the domain; the budget is %d",
      [.number n, .number Model.maxDomainDecisionBuckets]⟩, true⟩

/-- Everything found in the environment, in the blocks, and in their total. -/
def policyProblems (env : Checked Environment) (blocks : Checked (List Block)) : List Problem :=
  env.log ++ blocks.log ++
    if Model.maxDomainDecisionBuckets < decisionBuckets blocks.value then
      [budgetFailure (decisionBuckets blocks.value)]
    else []

/-- `Compile` of a policy of a valid scope. -/
def compilePolicy (scope : Key.Scope) (p : Model.Policy) : Snapshot × List Problem :=
  let env := compileEnvironment scope.domain (some p)
  let snap := bareSnapshot scope.domain env.value.effectiveKeys env.value.extraction
  let blocks := compileBlocks ⟨scope, env.value⟩ p
  let problems := policyProblems env blocks
  if blocking problems then (snap, problems)
  else
    ({ snap with blocks := blocks.value, decisionBuckets := decisionBuckets blocks.value },
      problems)

/-- `Compile`: the snapshot of a domain and every problem found. -/
def compile (namespaceName domain : Text) (p : Option Model.Policy) : Snapshot × List Problem :=
  if hn : namespaceName = [] then
    (bareSnapshot domain [] [], [specFailure
      "the component's own namespace is empty; it is a segment of every counter key" []])
  else if hd : 63 < domain.length ∨ domainName domain = false then
    (bareSnapshot domain [] [], [specFailure
      "domain %q does not match %s or exceeds 63 characters"
      [.text domain, .text domainNamePattern]])
  else
    match p with
    | none =>
      let env := compileEnvironment domain none
      (bareSnapshot domain env.value.effectiveKeys env.value.extraction, env.log)
    | some p =>
      compilePolicy ⟨namespaceName, domain, hn,
        domainName_ne_nil (Bool.not_eq_false _ ▸ (not_or.mp hd).2)⟩ p

theorem compile_domain (namespaceName domain : Text) (p : Option Model.Policy) :
    (compile namespaceName domain p).1.domain = domain := by
  unfold compile
  split_ifs
  · rfl
  · rfl
  · cases p with
    | none => rfl
    | some p =>
      dsimp only
      unfold compilePolicy
      dsimp only
      split_ifs <;> rfl

end Ratelimit.Compile
