import Ratelimit.Match.Matcher

/-!
# What a policy means

An interpreter of authored policies. It resolves the defaults, the groups, the
routes and the templates on the spot, and reads a key as the set of its values:
it compiles nothing and has nothing to report.
-/
namespace Ratelimit.Reference

open Algo Store Match

open scoped Classical

/-- The value of a set that has exactly one. -/
noncomputable def only (values : Finset Text) : Option Text :=
  if h : ∃ v, values = {v} then some h.choose else none

theorem only_eq_some_iff {values : Finset Text} {v : Text} : only values = some v ↔ values = {v} := by
  unfold only
  constructor
  · intro h
    split_ifs at h with hex
    rw [← Option.some.inj h]
    exact hex.choose_spec
  · rintro rfl
    have hex : ∃ w, ({v} : Finset Text) = {w} := ⟨v, rfl⟩
    rw [dif_pos hex]
    exact congrArg some (Finset.singleton_injective hex.choose_spec.symm)

section Targets

def placeholder : Text → Option Text
  | [] => none
  | c :: s =>
    if c = Key.openBrace ∧ s.getLast? = some Key.closeBrace then some s.dropLast else none

/-- The segments of a path that starts at the root. -/
def segmentsOf : Text → Option (List Text)
  | [] => none
  | c :: s => if c = byte '/' then some (Strings.split s (byte '/')) else none

/-- A placeholder takes any text but the empty one; a literal takes itself. -/
def SegmentTakes (segment part : Text) : Prop :=
  match placeholder segment with
  | some _ => part ≠ []
  | none => part = segment

def taken (segments parts : List Text) : List (Text × Text) :=
  (segments.zip parts).filterMap fun s => (placeholder s.1).map fun name => (name, s.2)

/-- The captures of a path the pattern covers. -/
noncomputable def pathCaptures (pattern : Model.PathMatch) (path : Text) :
    Option (List (Text × Text)) :=
  match pattern.type with
  | .exact => if path = pattern.value then some [] else none
  | .pathPrefix =>
    -- the end of the value is a segment boundary of the path
    if path = pattern.value ∨ pattern.value ++ ascii "/" <+: path ∨
        ascii "/" <:+ pattern.value ∧ pattern.value <+: path then some [] else none
  | .template =>
    match segmentsOf pattern.value, segmentsOf path with
    | some segments, some parts =>
      if List.Forall₂ SegmentTakes segments parts then some (taken segments parts) else none
    | _, _ => none
  | .other _ _ => none

/-- The positive decimal integer a parameter carries, at most the limit. -/
def usableCost (value : Text) : Option ℤ :=
  (Strconv.parseNat (unescape value)).bind fun n =>
    if n = 0 then none else some (min (n : ℤ) Model.maxCost)

/-- The largest cost the occurrences of the parameter carry, each of them the
default where it carries none. -/
def costOf (cost : Model.RouteCost) (query : Text) : ℤ :=
  let defaultCost := if cost.defaultCost = 0 then 1 else cost.defaultCost
  let carried := (Strings.split query (byte '&')).filterMap fun pair =>
    let (name, value) := Strings.cut pair (byte '=')
    if unescape name = cost.name then some ((usableCost value).getD defaultCost) else none
  carried.max?.getD defaultCost

end Targets

/-- A request as the rules of one block see it. -/
structure View where
  method : Text
  keys : Text → Finset Text
  pathAxis : Text
  captures : List (Text × Text)
  cost : ℤ

noncomputable def routeView (path query method : Text) (keys : Text → Finset Text) (cost : ℤ)
    (r : Model.Route) : Option (View) :=
  if r.methods = [] ∨ method ∈ r.methods then
    (pathCaptures r.path path).map fun captures =>
      { method, keys, captures
        pathAxis := if r.path.type = .template then r.path.value else path
        cost := match r.cost with
          | none => cost
          | some c => costOf c query }
  else none

/-- The first such route of the block decides; a block without routes is about
the whole domain. -/
noncomputable def viewOf (b : Model.Block) (path query method : Text) (keys : Text → Finset Text)
    (cost : ℤ) : Option (View) :=
  if b.routes = [] then some { method, keys, pathAxis := path, captures := [], cost }
  else b.routes.findSome? (routeView path query method keys cost)

/-- Path and method always have one value, and a capture wins over a key. -/
def View.values (view : View) (k : Text) : Finset Text :=
  if k = Model.keyPath then {view.pathAxis}
  else if k = Model.keyMethod then {view.method}
  else
    match view.captures.lookup k with
    | some v => {v}
    | none => view.keys k

def Holds (groups : List Model.Group) (view : View) (p : Model.Predicate) : Prop :=
  let values := view.values p.key
  match p.operator with
  | .equals => values = {p.value}
  | .isIn => ∃ v ∈ p.values, v ∈ values
  | .inGroup =>
    match groups.find? (fun g => g.name = p.value) with
    | some g => ∃ v ∈ g.values, v ∈ values
    | none => False
  | .contains => p.value ∈ values
  | .exist => values ≠ ∅
  | .doesNotExist => values = ∅
  | .other _ _ => False

/-- A rule applies to a request on which every predicate holds and every axis
has exactly one value. -/
def Applies (groups : List Model.Group) (view : View) (r : Model.Rule) : Prop :=
  (∀ p ∈ r.predicates, Holds groups view p) ∧ ∀ k ∈ r.counters, (only (view.values k)).isSome

def modeOf (b : Model.Block) : Model.Mode := if b.mode = .unset then .all else b.mode

def behaviorOf (r : Model.Rule) : Model.Behavior :=
  if r.behavior = .unset then .enforce else r.behavior

def algorithmOf (rate : Model.Rate) : Algorithm :=
  if rate.algorithm = Algorithm.fixedWindow.name then .fixedWindow else .gcra

def windowOf (rate : Model.Rate) : Window :=
  match algorithmOf rate with
  | .gcra =>
    { requests := rate.requests
      period := rate.period
      burst := if rate.burst = 0 then rate.requests else rate.burst }
  | .fixedWindow => { requests := rate.requests, period := rate.period, burst := rate.burst }

noncomputable def applying (groups : List Model.Group) (view : View)
    (rules : List Model.Rule) : List Model.Rule :=
  rules.filter fun r => Applies groups view r

/-- Every rule that applies counts, unless it is a bypass, or a rule that
applies and is not in shadow replaces it. -/
noncomputable def countingAll (groups : List Model.Group) (view : View)
    (rules : List Model.Rule) : List Model.Rule :=
  (applying groups view rules).filter fun r => behaviorOf r ≠ .bypass ∧
    ¬ ∃ s ∈ applying groups view rules, behaviorOf s ≠ .shadow ∧ r.name ∈ s.replacedRules

/-- The first rule that applies and is not in shadow decides, and the shadow
rules before it count along; a bypass decides without counting. -/
noncomputable def countingFirst (groups : List Model.Group) (view : View)
    (rules : List Model.Rule) : List Model.Rule :=
  (applying groups view rules).takeWhile (fun r => behaviorOf r = .shadow) ++
    ((applying groups view rules).dropWhile fun r => behaviorOf r = .shadow).head?.toList.filter
      fun r => behaviorOf r ≠ .bypass

noncomputable def counting (groups : List Model.Group) (view : View) (b : Model.Block) :
    List Model.Rule :=
  match modeOf b with
  | .firstMatch => countingFirst groups view b.rules
  | _ => countingAll groups view b.rules

noncomputable def bucketFor (scope : Key.Scope) (b : Model.Block) (view : View) (r : Model.Rule)
    (rate : Model.Rate) : Bucket :=
  { key := Key.bucket (Key.ratePrefix ⟨scope, b.name, r.name⟩ (algorithmOf rate) (windowOf rate))
      (r.counters.map fun k => (only (view.values k)).getD [])
    algorithm := (algorithmOf rate).id
    window := windowOf rate
    shadow := behaviorOf r = .shadow
    cost := view.cost }

noncomputable def applied (scope : Key.Scope) (b : Model.Block) (view : View) (r : Model.Rule) :
    MatchedRule :=
  { block := b.name
    rule := r.name
    shadow := behaviorOf r = .shadow
    cost := view.cost
    buckets := r.rates.map (bucketFor scope b view r) }

/-- The rules a policy applies to a request, in the order it lists them. -/
noncomputable def interpret (scope : Key.Scope) (p : Model.Policy) (path method : Text)
    (keys : Text → Finset Text) (cost : ℤ) : List MatchedRule :=
  let (path, query) := Strings.cut path (byte '?')
  p.blocks.flatMap fun b =>
    match viewOf b path query method keys cost with
    | none => []
    | some view => (counting p.groups view b).map (applied scope b view)

end Ratelimit.Reference
