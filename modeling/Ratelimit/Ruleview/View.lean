import Ratelimit.Compile.Snapshot
import Ratelimit.Library.Sorting

/-!
# A compiled domain as the management API reports it

Views keep the spelling of the custom resource where they report configuration. What a rule
does at run time has a vocabulary of its own. A set is reported as its values in byte order.
-/
namespace Ratelimit.Ruleview

open Compile Library

inductive RuleMode where
  | enforce
  | shadow
  | bypass
  deriving DecidableEq

/-- The classes of a listing scoped by a partial identity. -/
inductive Applicability where
  | always
  | conditional
  | never
  deriving DecidableEq

inductive GateReason where
  | missingAxis
  | undecidedCondition
  | mayBePreempted
  deriving DecidableEq

/-- One reason a rule is only conditionally applicable: a key, or a rule that may
come first. -/
structure ApplicabilityGate where
  reason : GateReason
  key : Text
  rule : Text
  deriving DecidableEq

structure PredicateView where
  key : Text
  operator : Model.Operator
  value : Text
  values : List Text
  deriving DecidableEq

/-- `period` is the duration that the source prints for a reader. -/
structure RateView where
  algorithm : Text
  requests : ℤ
  periodSeconds : ℤ
  period : Arg
  burst : ℤ
  deriving DecidableEq

structure CostView where
  source : Model.CostSource
  name : Text
  defaultCost : ℤ
  deriving DecidableEq

structure RouteView where
  type : Model.PathType
  value : Text
  methods : List Text
  cost : Option CostView
  deriving DecidableEq

/-- The last two fields are annotations of a scoped listing. -/
structure RuleView where
  id : Text
  block : Text
  rule : Text
  mode : RuleMode
  axes : List Text
  predicates : List PredicateView
  replacedRules : List Text
  rates : List RateView
  applicability : Option Applicability
  conditionalOn : List ApplicabilityGate
  deriving DecidableEq

structure BlockView where
  block : Text
  mode : Model.Mode
  routes : List RouteView
  captures : List Text
  rules : List RuleView
  deriving DecidableEq

structure RuleSetView where
  domain : Text
  ruleSetVersion : Text
  effectiveKeys : List Text
  listValuedKeys : List Text
  blocks : List BlockView
  deriving DecidableEq

def ruleID (block rule : Text) : Text := block ++ byte '/' :: rule

def sortedKeys (set : Finset Text) : List Text := sortedBy (· ≤ ·) set

def algorithm (rate : Rate) : Text := Strings.toLowerAscii rate.algorithm.name

def rate (r : Rate) : RateView :=
  { algorithm := algorithm r
    requests := r.window.requests
    periodSeconds := r.window.period.tdiv Algo.second
    period := .duration r.window.period
    burst := r.window.burst }

def mode : Model.Behavior → RuleMode
  | .shadow => .shadow
  | .bypass => .bypass
  | .enforce | .other _ _ => .enforce

/-- A compiled `InGroup` is an `In` whose group is already resolved. -/
def predicate (p : Predicate) : PredicateView :=
  let operator := if p.operator = .inGroup then .isIn else p.operator
  { key := p.key
    operator
    value := if operator = .equals ∨ operator = .contains then p.value else []
    values := if operator = .isIn then sortedKeys p.values else [] }

def rule (blockName : Text) (r : Rule) : RuleView :=
  { id := ruleID blockName r.name
    block := blockName
    rule := r.name
    mode := mode r.behavior
    axes := r.counters
    predicates := r.predicates.map predicate
    replacedRules := r.replacedRules
    rates := r.rates.map rate
    applicability := none
    conditionalOn := [] }

def route (r : Route) : RouteView :=
  { type := r.type
    value := r.value
    methods := if r.methods = ∅ then [] else sortedKeys r.methods
    cost := r.cost.map fun c => ⟨.queryParameter, c.parameter, c.defaultCost⟩ }

def block (b : Block) : BlockView :=
  { block := b.name
    mode := if b.mode = .unset then .all else b.mode
    routes := b.routes.map route
    captures := b.captures
    rules := b.rules.map (rule b.name) }

def listValuedKeys (snap : Snapshot) : List Text :=
  ((snap.extraction.filter fun e => e.type = .stringArray).map KeyExtraction.key).insertionSort
    (· ≤ ·)

/-- `Render`: a whole snapshot, unannotated and without a version. -/
def render (snap : Snapshot) : RuleSetView :=
  { domain := snap.domain
    ruleSetVersion := []
    effectiveKeys := snap.effectiveKeys
    listValuedKeys := listValuedKeys snap
    blocks := snap.blocks.map block }

section Injective

theorem sortedKeys_injective {s t : Finset Text} (h : sortedKeys s = sortedKeys t) : s = t := by
  apply Finset.val_injective
  calc s.val = (sortedKeys s : Multiset Text) := (perm_sortedBy s).symm
    _ = (sortedKeys t : Multiset Text) := by rw [h]
    _ = t.val := perm_sortedBy t

theorem methods_eq_of_route_eq {r r' : Route} (h : route r = route r') :
    r.methods = r'.methods := by
  have hmethods := congrArg RouteView.methods h
  have hsorted : ∀ r : Route, (route r).methods = sortedKeys r.methods := by
    intro r
    by_cases hnone : r.methods = ∅
    · simp only [route, hnone, if_true]
      rfl
    · simp [route, hnone]
  rw [hsorted, hsorted] at hmethods
  exact sortedKeys_injective hmethods

theorem cost_eq_of_route_eq {r r' : Route} (h : route r = route r') : r.cost = r'.cost := by
  have hcost := congrArg RouteView.cost h
  refine Option.map_injective ?_ hcost
  rintro ⟨parameter, cost⟩ ⟨parameter', cost'⟩ heq
  simpa using heq

theorem algorithm_injective {r r' : Rate} (h : algorithm r = algorithm r') :
    r.algorithm = r'.algorithm := by
  have hnames : ∀ a a' : Algo.Algorithm,
      Strings.toLowerAscii a.name = Strings.toLowerAscii a'.name → a = a' := by
    intro a a' heq
    cases a <;> cases a'
    · rfl
    · exact absurd heq (by decide)
    · exact absurd heq (by decide)
    · rfl
  exact hnames _ _ h

theorem window_eq_of_rate_eq {r r' : Rate} (h : rate r = rate r') : r.window = r'.window := by
  obtain ⟨_, ⟨requests, period, burst⟩, _⟩ := r
  obtain ⟨_, ⟨requests', period', burst'⟩, _⟩ := r'
  simp only [rate, RateView.mk.injEq, Arg.duration.injEq] at h
  simp [h]

theorem mode_eq_shadow_iff {b : Model.Behavior} : mode b = .shadow ↔ b = .shadow := by
  cases b <;> simp [mode]

theorem mode_eq_bypass_iff {b : Model.Behavior} : mode b = .bypass ↔ b = .bypass := by
  cases b <;> simp [mode]

theorem mode_eq_firstMatch_iff {b : Block} : (block b).mode = .firstMatch ↔ b.mode = .firstMatch := by
  by_cases hunset : b.mode = .unset
  · simp [block, hunset, Model.Mode.unset]
  · simp [block, hunset]

end Injective

end Ratelimit.Ruleview
