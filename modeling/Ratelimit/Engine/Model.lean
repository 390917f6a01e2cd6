import Ratelimit.Base.Algo

/-!
# The rule set as authored

Blocks, rules and named groups as authored: a default stays empty here and is resolved by the
compiler. The enumerations of the source are string types. Their named values are
constructors, and any other text stays representable. A field that a value leaves out has
its zero value.
-/
namespace Ratelimit.Model

def keyPath : Text := ascii "path"

def keyMethod : Text := ascii "method"

def keySub : Text := ascii "sub"

def keyToken : Text := ascii "token"

/-- The worst-case bucket count one decision may collect across the domain. -/
def maxDomainDecisionBuckets : ℕ := 128

def maxCost : ℤ := 1000000000

inductive PathType where
  | exact
  | pathPrefix
  | template
  | other (text : Text) (foreign : text ∉ [ascii "Exact", ascii "Prefix", ascii "Template"])
  deriving DecidableEq

def PathType.text : PathType → Text
  | exact => ascii "Exact"
  | pathPrefix => ascii "Prefix"
  | template => ascii "Template"
  | other t _ => t

inductive Mode where
  | all
  | firstMatch
  | other (text : Text) (foreign : text ∉ [ascii "All", ascii "FirstMatch"])
  deriving DecidableEq

namespace Mode

def text : Mode → Text
  | all => ascii "All"
  | firstMatch => ascii "FirstMatch"
  | other t _ => t

def unset : Mode := .other [] (by decide)

end Mode

inductive Operator where
  | equals
  | isIn
  | inGroup
  | contains
  | exist
  | doesNotExist
  | other (text : Text) (foreign : text ∉ [ascii "Equals", ascii "In", ascii "InGroup",
      ascii "Contains", ascii "Exists", ascii "DoesNotExist"])
  deriving DecidableEq

def Operator.text : Operator → Text
  | equals => ascii "Equals"
  | isIn => ascii "In"
  | inGroup => ascii "InGroup"
  | contains => ascii "Contains"
  | exist => ascii "Exists"
  | doesNotExist => ascii "DoesNotExist"
  | other t _ => t

inductive Behavior where
  | enforce
  | shadow
  | bypass
  | other (text : Text) (foreign : text ∉ [ascii "Enforce", ascii "Shadow", ascii "Bypass"])
  deriving DecidableEq

namespace Behavior

def text : Behavior → Text
  | enforce => ascii "Enforce"
  | shadow => ascii "Shadow"
  | bypass => ascii "Bypass"
  | other t _ => t

def unset : Behavior := .other [] (by decide)

end Behavior

inductive ValueType where
  | string
  | stringArray
  | other (text : Text) (foreign : text ∉ [ascii "String", ascii "StringArray"])
  deriving DecidableEq

namespace ValueType

def text : ValueType → Text
  | string => ascii "String"
  | stringArray => ascii "StringArray"
  | other t _ => t

def unset : ValueType := .other [] (by decide)

end ValueType

inductive Normalize where
  | none
  | lowercase
  | other (text : Text) (foreign : text ∉ [ascii "None", ascii "Lowercase"])
  deriving DecidableEq

namespace Normalize

def text : Normalize → Text
  | none => ascii "None"
  | lowercase => ascii "Lowercase"
  | other t _ => t

def unset : Normalize := .other [] (by decide)

end Normalize

inductive CostSource where
  | queryParameter
  | other (text : Text) (foreign : text ∉ [ascii "QueryParameter"])
  deriving DecidableEq

def CostSource.text : CostSource → Text
  | queryParameter => ascii "QueryParameter"
  | other t _ => t

structure Group where
  name : Text
  values : List Text
  deriving DecidableEq

/-- The cost entry of a route; a default of zero reads as one. -/
structure RouteCost where
  source : CostSource
  name : Text
  defaultCost : ℤ
  deriving DecidableEq

structure PathMatch where
  type : PathType
  value : Text
  deriving DecidableEq

structure Route where
  path : PathMatch
  methods : List Text := []
  cost : Option RouteCost := none
  deriving DecidableEq

structure Predicate where
  key : Text
  operator : Operator
  value : Text
  values : List Text
  deriving DecidableEq

/-- A burst of zero and an empty algorithm are unset. -/
structure Rate where
  requests : ℤ
  period : ℤ
  burst : ℤ
  algorithm : Text
  deriving DecidableEq

/-- One named limit. `predicates` are the entries of `matches`. -/
structure Rule where
  name : Text
  predicates : List Predicate := []
  counters : List Text := []
  rates : List Rate := []
  behavior : Behavior := .unset
  replacedRules : List Text := []
  deriving DecidableEq

/-- Routes written once with the rules that share them. -/
structure Block where
  name : Text
  routes : List Route := []
  mode : Mode := .unset
  rules : List Rule := []
  deriving DecidableEq

structure KeyMapping where
  key : Text
  claim : Text
  claimPath : List Text := []
  type : ValueType := .unset
  normalization : Normalize := .unset
  fallbacks : List Text := []
  deriving DecidableEq

structure Policy where
  domain : Text
  mappings : List KeyMapping := []
  groups : List Group := []
  blocks : List Block
  deriving DecidableEq

end Ratelimit.Model
