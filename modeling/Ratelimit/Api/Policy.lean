import Ratelimit.Compile.Blocks

/-!
# The resource

The spec of a `RateLimitPolicy` and its conversion into the engine's model. The enumerations
and the entries that convert field by field are the model's own. An absent number reads as
zero there, which the compiler takes for unset.
-/
namespace Ratelimit.Api

structure RouteCost where
  source : Model.CostSource
  name : Text
  defaultCost : Option ℤ
  deriving DecidableEq

structure Route where
  path : Model.PathMatch
  methods : List Text
  cost : Option RouteCost
  deriving DecidableEq

structure Rate where
  requests : ℤ
  periodSeconds : ℤ
  burst : Option ℤ
  algorithm : Text
  deriving DecidableEq

/-- One counter of a block. `predicates` are the entries of `matches`. -/
structure Rule where
  name : Text
  predicates : List Model.Predicate
  counters : List Text
  rates : List Rate
  behavior : Model.Behavior
  replacedRules : List Text
  deriving DecidableEq

structure LimitBlock where
  name : Text
  /-- The routes of the target, where there is one. -/
  target : Option (List Route)
  mode : Model.Mode
  rules : List Rule
  deriving DecidableEq

/-- `RateLimitPolicySpec`, the whole configuration of one domain. -/
structure Spec where
  domain : Text
  mappings : List Model.KeyMapping
  groups : List Model.Group
  limits : List LimitBlock
  deriving DecidableEq

/-- The spec that claims a domain and limits nothing. -/
def Spec.claiming (domain : Text) : Spec := ⟨domain, [], [], []⟩

section Convert

def modelRoute (route : Route) : Model.Route where
  path := route.path
  methods := route.methods
  cost := route.cost.map fun cost => ⟨cost.source, cost.name, cost.defaultCost.getD 0⟩

def modelRate (rate : Rate) : Model.Rate where
  requests := rate.requests
  period := rate.periodSeconds * Algo.second
  burst := rate.burst.getD 0
  algorithm := rate.algorithm

def modelRule (rule : Rule) : Model.Rule where
  name := rule.name
  predicates := rule.predicates
  counters := rule.counters
  rates := rule.rates.map modelRate
  behavior := rule.behavior
  replacedRules := rule.replacedRules

/-- `convert.Policy`. -/
def modelPolicy (spec : Spec) : Model.Policy where
  domain := spec.domain
  mappings := spec.mappings
  groups := spec.groups
  blocks := spec.limits.map fun block =>
    { name := block.name
      routes := (block.target.getD []).map modelRoute
      mode := block.mode
      rules := block.rules.map modelRule }

end Convert

/-- The compilation of a spec for its domain, as the operator and the service run it. -/
def compileSpec (namespaceName domain : Text) (spec : Spec) :
    Compile.Snapshot × List Compile.Problem :=
  Compile.compile namespaceName domain (some (modelPolicy spec))

/-- A problem that keeps the generation out was found. -/
def blocking (problems : List Compile.Problem) : Bool := problems.any fun p => p.blocking

def Compiles (namespaceName domain : Text) (spec : Spec) : Prop :=
  blocking (compileSpec namespaceName domain spec).2 = false

instance (namespaceName domain : Text) (spec : Spec) :
    Decidable (Compiles namespaceName domain spec) :=
  inferInstanceAs (Decidable (_ = false))

end Ratelimit.Api
