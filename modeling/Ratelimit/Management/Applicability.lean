import Ratelimit.Management.AddressedReset
import Ratelimit.Match.ByPath
import Ratelimit.Ruleview.View

/-!
# Which rules act on a client, and which could

Against the part of an identity that a caller knows, every rule of a listing is always,
conditionally or never applicable. A path narrows the listing to the blocks it reaches, and
the question to what its route decides about their captures.
-/
namespace Ratelimit.Management

open Library Compile Match Ruleview

section Scopes

/-- What the caller supplied about one client: the value sets of keys, empty for a
key that is known to be absent. -/
structure Scope where
  values : Finmap fun _ : Text => List Text
  present : Bool
  effective : List Text

def Scope.supply (sc : Scope) (name : Text) (values : List Text) : Scope :=
  { sc with values := sc.values.insert name values, present := true }

/-- Every identity key name this domain can carry. -/
def knownKeys (snapshot : Snapshot) : List Text :=
  [Model.keyPath, Model.keyMethod] ++ snapshot.effectiveKeys ++
    snapshot.blocks.flatMap Block.captures

def cutAxisParameter (parameter : Text) : Option Text :=
  if parameter.length ≤ axisPrefix.length ∨ Strings.hasPrefix parameter axisPrefix = false then none
  else some (parameter.drop axisPrefix.length)

def undeclaredKey (snapshot : Snapshot) (name field : Text) : ApiError :=
  invalid ⟨"no identity key %s is declared in domain %s", [.text name, .text snapshot.domain]⟩
    [field]

/-- One parameter in the first loop of `parseScope`. -/
def supplyAxis (snapshot : Snapshot) (sc : Scope) (entry : Text × List Text) :
    Except ApiError Scope :=
  match cutAxisParameter entry.1 with
  | none => .ok sc
  | some name =>
    let values := sortedUnique entry.2
    if name ∉ knownKeys snapshot then .error (undeclaredKey snapshot name entry.1)
    else if [] ∈ values then
      .error (invalid ⟨"axis %s has an empty value; declare the key known-absent with absent=%s instead",
        [.text name, .text name]⟩ [entry.1])
    else if name ∉ listValuedKeys snapshot ∧ 1 < values.length then
      .error (invalid ⟨"identity key %s is scalar, so one caller carries exactly one value for it",
        [.text name]⟩ [entry.1])
    else .ok (sc.supply name values)

def supplyAbsent (snapshot : Snapshot) (sc : Scope) (name : Text) : Except ApiError Scope :=
  if name ∉ knownKeys snapshot then .error (undeclaredKey snapshot name (ascii "absent"))
  else if name ∈ sc.values then
    .error (invalid ⟨"identity key %s is declared both known-absent and with a value", [.text name]⟩
      [ascii "absent"])
  else .ok (sc.supply name [])

def Query.absent (q : Query) : List Text := (q.lookup (ascii "absent")).getD []

def parseScope (snapshot : Snapshot) (q : Query) : Except ApiError Scope := do
  let sc ← (entries q).foldlM (supplyAxis snapshot) ⟨∅, false, snapshot.effectiveKeys⟩
  q.absent.foldlM (supplyAbsent snapshot) sc

/-- One capture of the targeted block in the loop of `forTarget`, from the scope
`s` of the query into the one that is narrowed. -/
def Scope.narrow (s : Scope) (target : Target) (out : Scope) (name : Text) :
    Except ApiError Scope :=
  let decided := (target.captures.lookup name).toList
  if name ∈ target.undecided then
    .ok (if name ∈ s.effective then { out with values := out.values.erase name } else out)
  else if name ∈ s.effective then
    .ok (if decided = [] then out else { out with values := out.values.insert name decided })
  else
    match s.values.lookup name with
    | none => .ok { out with values := out.values.insert name decided }
    | some supplied =>
      if supplied = decided then .ok out
      else
        let absent := supplied = []
        .error (invalid ⟨"path decides capture %s through the route it matches; drop %s or path",
          [.text name, .text (if absent then ascii "absent=" ++ name else axisPrefix ++ name)]⟩
          [if absent then ascii "absent" else axisPrefix ++ name])

/-- The scope of the request that a path names. -/
def Scope.forTarget (s : Scope) (target : Target) : Except ApiError Scope :=
  target.block.captures.foldlM (s.narrow target) s

end Scopes

section Evaluation

/-- What the supplied identity makes of a condition or a rule. -/
inductive State where
  | failed
  | satisfied
  | undecided
  deriving DecidableEq

def boolState (ok : Bool) : State := if ok then .satisfied else .failed

/-- What the scope says about one key: its value set, or no more than that there is
a value. -/
structure KeyValues where
  known : Bool
  values : List Text
  nonEmpty : Bool

/-- Every route of the block is a template that produces the capture. -/
def capturedByEveryRoute (block : Block) (name : Text) : Bool :=
  decide (block.routes ≠ []) &&
    block.routes.all fun route => route.segments.any fun s => decide (s.capture = name)

def Scope.lookup (s : Scope) (block : Block) (name : Text) : KeyValues :=
  match s.values.lookup name with
  | some values => ⟨true, values, false⟩
  | none =>
    if name = Model.keyPath ∨ name = Model.keyMethod then ⟨false, [], true⟩
    else ⟨false, [], capturedByEveryRoute block name⟩

/-- A condition against the value set of its key. -/
def setState (p : Predicate) (set : List Text) : State :=
  match p.operator with
  | .equals => boolState (set = [p.value])
  | .isIn | .inGroup => boolState (set.any fun v => v ∈ p.values)
  | .contains => boolState (p.value ∈ set)
  | .exist => boolState (0 < set.length)
  | .doesNotExist => boolState (set.length = 0)
  | .other _ _ => .undecided

/-- A condition where no more is known than whether the key has a value: that alone
decides the unary operators, and nothing else. -/
def presenceState (p : Predicate) (nonEmpty : Bool) : State :=
  if nonEmpty = false then .undecided
  else
    match p.operator with
    | .exist => .satisfied
    | .doesNotExist => .failed
    | _ => .undecided

def conditionState (block : Block) (p : Predicate) (sc : Scope) : State :=
  let values := sc.lookup block p.key
  if values.known then setState p values.values else presenceState p values.nonEmpty

/-- The first loop of `evaluateRule`: a gate for each undecided key, or a condition
that failed. -/
def conditionGates (block : Block) (sc : Scope) :
    List Predicate → List Text → Option (List ApplicabilityGate)
  | [], _ => some []
  | p :: ps, undecided =>
    match conditionState block p sc with
    | .failed => none
    | .satisfied => conditionGates block sc ps undecided
    | .undecided =>
      if p.key ∈ undecided then conditionGates block sc ps undecided
      else (conditionGates block sc ps (p.key :: undecided)).map
        (⟨.undecidedCondition, p.key, []⟩ :: ·)

/-- The second loop: a gate for each open axis that no condition stands for, or an
axis that takes no single value. -/
def axisGates (block : Block) (sc : Scope) (undecided : List Text) :
    List Text → Option (List ApplicabilityGate)
  | [] => some []
  | axis :: axes =>
    let values := sc.lookup block axis
    if values.known then
      if values.values.length = 1 then axisGates block sc undecided axes else none
    else if values.nonEmpty ∨ axis ∈ undecided then axisGates block sc undecided axes
    else (axisGates block sc undecided axes).map (⟨.missingAxis, axis, []⟩ :: ·)

/-- One rule against the scope, without the other rules of its block. -/
def evaluateRule (block : Block) (sc : Scope) (rule : Rule) : State × List ApplicabilityGate :=
  match conditionGates block sc rule.predicates [] with
  | none => (.failed, [])
  | some gates =>
    match axisGates block sc (gates.map ApplicabilityGate.key) rule.counters with
    | none => (.failed, [])
    | some more => (if gates ++ more = [] then .satisfied else .undecided, gates ++ more)

/-- The rules that can keep the rule at index `i` from applying: in a cascade every
earlier one that decides, else every other one that replaces it. -/
def preemptors (block : Block) (i : ℕ) (rule : Rule) : List Rule :=
  if block.mode = .firstMatch then
    (block.rules.take i).filter fun other => other.behavior ≠ .shadow
  else
    (block.rules.eraseIdx i).filter fun other =>
      other.behavior ≠ .shadow ∧ rule.name ∈ other.replacedRules

/-- The loop of `preempt` over those rules, unless one of them always comes first. -/
def preemptGates (block : Block) (sc : Scope) : List Rule → Option (List ApplicabilityGate)
  | [] => some []
  | other :: rest =>
    match (evaluateRule block sc other).1 with
    | .satisfied => none
    | .failed => preemptGates block sc rest
    | .undecided => (preemptGates block sc rest).map
        (⟨.mayBePreempted, [], ruleID block.name other.name⟩ :: ·)

def preempt (block : Block) (sc : Scope) (i : ℕ) (rule : Rule) :
    Applicability × List ApplicabilityGate :=
  let judged := evaluateRule block sc rule
  if judged.1 = .failed then (.never, [])
  else
    match preemptGates block sc (preemptors block i rule) with
    | none => (.never, [])
    | some more =>
      if judged.2 ++ more = [] then (.always, []) else (.conditional, judged.2 ++ more)

def annotate (block : Block) (view : BlockView) (sc : Scope) : BlockView :=
  { view with
    rules := (view.rules.zip block.rules.zipIdx).map fun x =>
      { x.1 with
        applicability := some (preempt block sc x.2.2 x.2.1).1
        conditionalOn := (preempt block sc x.2.2 x.2.1).2 } }

end Evaluation

section Listing

/-- The blocks of a request, or every block where no path is given. -/
def selectTargets (snapshot : Snapshot) (path method : Text) : List Target :=
  if path = [] then snapshot.blocks.map fun b => ⟨b, ∅, []⟩
  else if method = [] then targetsByPath snapshot path
  else (candidates snapshot path method).targets

/-- The question that the annotations of a target answer. -/
def questionFor (sc : Scope) (path : Text) (target : Target) : Except ApiError Scope :=
  if path = [] then .ok sc else sc.forTarget target

def listBlock (sc : Scope) (path : Text) (target : Target) : Except ApiError BlockView :=
  if sc.present = false then .ok (Ruleview.block target.block)
  else do
    let question ← questionFor sc path target
    pure (annotate target.block (Ruleview.block target.block) question)

def rulesParams : List Text := [ascii "path", ascii "method", ascii "absent"]

/-- The rules of a domain, filtered to a request and annotated for a partial
identity where the query asks for either. -/
def handleRules (std : Stdlib) (snapshot : Snapshot) (version : Text) (q : Query) :
    Except ApiError RuleSetView := do
  checkQueryNames q rulesParams
  let path := q.get "path"
  let method := q.get "method"
  if path = [] ∧ method ≠ [] then
    .error (invalid ⟨"method filters a route match and is meaningful only with path", []⟩
      [ascii "method"])
  else do
    let sc ← parseScope snapshot q
    match unnormalized std snapshot (fun k => (sc.values.lookup k).getD [])
        (capturedKeys snapshot []) (fun k => axisPrefix ++ k) with
    | some e => .error e
    | none => do
      let blocks ← (selectTargets snapshot path method).mapM (listBlock sc path)
      pure
        { domain := snapshot.domain
          ruleSetVersion := version
          effectiveKeys := snapshot.effectiveKeys
          listValuedKeys := listValuedKeys snapshot
          blocks }

end Listing

end Ratelimit.Management
