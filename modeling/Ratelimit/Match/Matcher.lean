import Ratelimit.Compile.Blocks
import Ratelimit.Match.QueryCost
import Ratelimit.Store.Contract

/-!
# The matcher

The target phase picks the blocks a path and a method select, each with the
view its matched route built. The rule phase evaluates the rules of those blocks
over the identity values and expands the applied ones into buckets.
-/
namespace Ratelimit.Match

open Compile Store

/-- Extracted identity values. An absent key carries no value. -/
abbrev Keys := Finmap fun _ : Text => List Text

abbrev Captures := Finmap fun _ : Text => Text

/-- One targeted block: what the path axis reports inside it, the placeholders
of its route, and the cost the route read, zero where it reads none. -/
structure Hit where
  block : Block
  pathAxis : Text
  captures : Captures
  cost : ℤ

structure Candidates where
  method : Text
  hits : List Hit

/-- The loop of `matchTemplate` over the segments and the parts of the path. -/
def matchSegments : List (Segment × Text) → Captures → Option Captures
  | [], captures => some captures
  | (s, part) :: rest, captures =>
    if s.capture = [] then
      if part ≠ s.literal then none else matchSegments rest captures
    else if part = [] then none
    else matchSegments rest (captures.insert s.capture part)

/-- A placeholder takes exactly one non-empty segment, and the template covers
the whole path. -/
def matchTemplate (segments : List Segment) (path : Text) : Option Captures :=
  if Strings.hasPrefix path (ascii "/") = false then none
  else
    let parts := Strings.split (path.drop 1) (byte '/')
    if parts.length ≠ segments.length then none else matchSegments (segments.zip parts) ∅

def matchPrefix (value path : Text) : Bool :=
  if Strings.hasPrefix path value = false then false
  else
    path.length = value.length || Strings.hasSuffix value (ascii "/") ||
      path[value.length]? = some (byte '/')

def matchPath (route : Route) (path : Text) : Option Captures :=
  match route.type with
  | .exact => if path = route.value then some ∅ else none
  | .pathPrefix => if matchPrefix route.value path then some ∅ else none
  | .template => matchTemplate route.segments path
  | .other _ _ => none

/-- The first matching route in authored order, with its view of the path and
its captures. -/
def matchRoutes (path method : Text) : List Route → Option (Route × Text × Captures)
  | [] => none
  | route :: rest =>
    if route.methods ≠ ∅ ∧ method ∉ route.methods then matchRoutes path method rest
    else
      match matchPath route path with
      | none => matchRoutes path method rest
      | some captures =>
        if route.type = .template then some (route, route.value, captures)
        else some (route, path, captures)

/-- A block without routes matches everything, with no route to report. -/
def matchTarget (block : Block) (path method : Text) : Option (Option Route × Text × Captures) :=
  if block.routes = [] then some (none, path, ∅)
  else (matchRoutes path method block.routes).map fun m => (some m.1, m.2)

/-- The cost the matched route reads from the query. -/
def hitCost (route : Option Route) (query : Text) : ℤ :=
  match route with
  | none => 0
  | some r =>
    match r.cost with
    | none => 0
    | some cost => queryCost cost query

def hitOf (path query method : Text) (block : Block) : Option Hit :=
  (matchTarget block path method).map fun m =>
    { block, pathAxis := m.2.1, captures := m.2.2, cost := hitCost m.1 query }

/-- `Match`: the target phase over the path and the method alone. -/
def candidates (snap : Snapshot) (path method : Text) : Candidates :=
  let (path, query) := Strings.cut path (byte '?')
  { method, hits := snap.blocks.filterMap (hitOf path query method) }

def Candidates.empty (c : Candidates) : Bool := c.hits.isEmpty

structure BlockCtx where
  method : Text
  keys : Keys
  pathAxis : Text
  captures : Captures
  cost : ℤ

def BlockCtx.valueOf (ctx : BlockCtx) (k : Text) : List Text :=
  if k = Model.keyPath then [ctx.pathAxis]
  else if k = Model.keyMethod then [ctx.method]
  else
    match ctx.captures.lookup k with
    | some v => [v]
    | none => (ctx.keys.lookup k).getD []

def predicateHolds (ctx : BlockCtx) (p : Predicate) : Bool :=
  let set := ctx.valueOf p.key
  match p.operator with
  | .equals => set = [p.value]
  | .isIn | .inGroup => set.any fun v => v ∈ p.values
  | .contains => p.value ∈ set
  | .exist => 0 < set.length
  | .doesNotExist => set.length = 0
  | .other _ _ => false

/-- Every predicate holds, and every counter axis carries exactly one value. -/
def ruleMatches (ctx : BlockCtx) (rule : Rule) : Bool :=
  rule.predicates.all (predicateHolds ctx) &&
    rule.counters.all fun axis => (ctx.valueOf axis).length = 1

/-- One applied rule with its counter identity. -/
structure MatchedRule where
  block : Text
  rule : Text
  shadow : Bool
  cost : ℤ
  buckets : List Bucket
  deriving DecidableEq

/-- A matching rule has one value on every axis. -/
def axesOf (ctx : BlockCtx) (rule : Rule) : List Text :=
  rule.counters.map fun axis => (ctx.valueOf axis).headD []

def bucketOf (ctx : BlockCtx) (rule : Rule) (rate : Rate) : Bucket :=
  { key := Key.bucket rate.keyPrefix (axesOf ctx rule)
    algorithm := rate.algorithm.id
    window := rate.window
    shadow := rule.behavior = .shadow
    cost := ctx.cost }

def matchedRule (block : Block) (ctx : BlockCtx) (rule : Rule) : MatchedRule :=
  { block := block.name
    rule := rule.name
    shadow := rule.behavior = .shadow
    cost := ctx.cost
    buckets := rule.rates.map (bucketOf ctx rule) }

/-- The cascade: a shadow rule counts without stopping it, a bypass and an
enforcing rule end it. -/
def evalFirstMatch (block : Block) (ctx : BlockCtx) : List Rule → List MatchedRule
  | [] => []
  | rule :: rest =>
    if ruleMatches ctx rule = false then evalFirstMatch block ctx rest
    else if rule.behavior = .bypass then []
    else if rule.behavior ≠ .shadow then [matchedRule block ctx rule]
    else matchedRule block ctx rule :: evalFirstMatch block ctx rest

/-- The first loop of `evalAll`: what applied, and the names that matching rules
replace. -/
def collectAll (block : Block) (ctx : BlockCtx) : List Rule → List MatchedRule × List Text
  | [] => ([], [])
  | rule :: rest =>
    let r := collectAll block ctx rest
    if ruleMatches ctx rule = false then r
    else
      (if rule.behavior ≠ .bypass then matchedRule block ctx rule :: r.1 else r.1,
        if rule.behavior = .shadow then r.2 else rule.replacedRules ++ r.2)

def evalAll (block : Block) (ctx : BlockCtx) : List MatchedRule :=
  let (out, suppressed) := collectAll block ctx block.rules
  if suppressed = [] then out else out.filter fun m => m.rule ∉ suppressed

def evalBlock (block : Block) (ctx : BlockCtx) : List MatchedRule :=
  if block.mode = .firstMatch then evalFirstMatch block ctx block.rules else evalAll block ctx

/-- The view of a hit for the rule phase: a cost of zero leaves the request at
its own. -/
def Hit.ctx (h : Hit) (method : Text) (keys : Keys) (cost : ℤ) : BlockCtx :=
  { method, keys, pathAxis := h.pathAxis, captures := h.captures
    cost := if h.cost = 0 then cost else h.cost }

/-- `Evaluate`: the applied rules in snapshot order. -/
def Candidates.evaluate (c : Candidates) (keys : Keys) (cost : ℤ) : List MatchedRule :=
  c.hits.flatMap fun h => evalBlock h.block (h.ctx c.method keys cost)

/-- `Buckets` of a result: one store call in rule order. -/
def bucketsOf (rules : List MatchedRule) : List Bucket := rules.flatMap MatchedRule.buckets

theorem matchRoutes_some {path method : Text} {routes : List Route} {m : Route × Text × Captures}
    (h : matchRoutes path method routes = some m) :
    m.1 ∈ routes ∧ matchPath m.1 path = some m.2.2 ∧
      m.2.1 = if m.1.type = .template then m.1.value else path := by
  induction routes with
  | nil => cases h
  | cons route rest ih =>
    rw [matchRoutes] at h
    by_cases hmethod : route.methods ≠ ∅ ∧ method ∉ route.methods
    · rw [if_pos hmethod] at h
      exact (ih h).imp_left (List.mem_cons_of_mem _)
    · rw [if_neg hmethod] at h
      cases hpath : matchPath route path with
      | none =>
        rw [hpath] at h
        exact (ih h).imp_left (List.mem_cons_of_mem _)
      | some captures =>
        rw [hpath] at h
        dsimp only at h
        split_ifs at h with htype <;> obtain rfl := Option.some.inj h <;> simp [htype, hpath]

section Values

variable {ctx : BlockCtx} {k : Text}

theorem length_valueOf_builtin (hk : k ∈ [Model.keyPath, Model.keyMethod]) :
    (ctx.valueOf k).length = 1 := by
  unfold BlockCtx.valueOf
  simp only [List.mem_cons, List.not_mem_nil, or_false] at hk
  rcases hk with rfl | rfl
  · simp
  · rw [if_neg (by decide), if_pos rfl, List.length_singleton]

theorem valueOf_eq (hk : k ∉ [Model.keyPath, Model.keyMethod]) :
    ctx.valueOf k = match ctx.captures.lookup k with
      | some v => [v]
      | none => (ctx.keys.lookup k).getD [] := by
  simp only [List.mem_cons, List.not_mem_nil, or_false, not_or] at hk
  rw [BlockCtx.valueOf, if_neg hk.1, if_neg hk.2]
end Values

section Spec

variable (block : Block) (ctx : BlockCtx)

def matching (rules : List Rule) : List Rule := rules.filter (ruleMatches ctx)

/-- The names a matching rule that can change the verdict replaces. -/
def suppressedBy (rules : List Rule) : List Text :=
  ((matching ctx rules).filter fun r => r.behavior ≠ .shadow).flatMap Rule.replacedRules

theorem collectAll_eq (rules : List Rule) :
    collectAll block ctx rules =
      (((matching ctx rules).filter fun r => r.behavior ≠ .bypass).map (matchedRule block ctx),
        suppressedBy ctx rules) := by
  induction rules with
  | nil => rfl
  | cons r rest ih =>
    by_cases hm : ruleMatches ctx r = true
    · by_cases hb : r.behavior = .bypass
      · simp [collectAll, ih, matching, suppressedBy, hm, hb]
      · by_cases hs : r.behavior = .shadow
        · simp [collectAll, ih, matching, suppressedBy, hm, hs]
        · simp [collectAll, ih, matching, suppressedBy, hm, hb, hs]
    · simp [collectAll, ih, matching, suppressedBy, hm]

/-- Under All every matching rule applies that counts and that no matching rule
replaces. -/
theorem evalAll_eq :
    evalAll block ctx =
      ((matching ctx block.rules).filter fun r =>
        r.behavior ≠ .bypass ∧ r.name ∉ suppressedBy ctx block.rules).map
          (matchedRule block ctx) := by
  unfold evalAll
  rw [collectAll_eq]
  dsimp only
  have hname : ∀ r, (matchedRule block ctx r).rule = r.name := fun _ => rfl
  split_ifs with hnone
  · simp [hnone]
  · rw [List.filter_map, List.filter_filter]
    congr 1
    refine List.filter_congr fun r _ => ?_
    simp [hname, Bool.and_comm]

/-- A cascade applies the shadow rules before its first verdict, and the rule
that gives it unless that is a bypass. -/
theorem evalFirstMatch_eq (rules : List Rule) :
    evalFirstMatch block ctx rules =
      ((matching ctx rules).takeWhile (fun r => r.behavior = .shadow) ++
        (((matching ctx rules).dropWhile fun r => r.behavior = .shadow).head?.toList.filter
          fun r => r.behavior ≠ .bypass)).map (matchedRule block ctx) := by
  induction rules with
  | nil => rfl
  | cons r rest ih =>
    by_cases hm : ruleMatches ctx r = true
    · by_cases hb : r.behavior = .bypass
      · simp [evalFirstMatch, matching, hm, hb]
      · by_cases hs : r.behavior = .shadow
        · simp only [matching] at ih
          simp [evalFirstMatch, matching, hm, hs, ih]
        · simp [evalFirstMatch, matching, hm, hb, hs]
    · simp only [matching] at ih
      simp [evalFirstMatch, matching, hm, ih]

/-- The rules of the block that the request counts against. -/
def appliedRules : List Rule :=
  if block.mode = .firstMatch then
    (matching ctx block.rules).takeWhile (fun r => r.behavior = .shadow) ++
      (((matching ctx block.rules).dropWhile fun r => r.behavior = .shadow).head?.toList.filter
        fun r => r.behavior ≠ .bypass)
  else
    (matching ctx block.rules).filter fun r =>
      r.behavior ≠ .bypass ∧ r.name ∉ suppressedBy ctx block.rules

theorem evalBlock_eq :
    evalBlock block ctx = (appliedRules block ctx).map (matchedRule block ctx) := by
  unfold evalBlock appliedRules
  split_ifs
  · exact evalFirstMatch_eq block ctx block.rules
  · exact evalAll_eq block ctx

theorem head?_toList_sublist {α : Type*} (xs : List α) : xs.head?.toList.Sublist xs := by
  cases xs with
  | nil => exact List.Sublist.slnil
  | cons x xs => exact List.singleton_sublist.mpr List.mem_cons_self

theorem appliedRules_sublist_matching :
    (appliedRules block ctx).Sublist (matching ctx block.rules) := by
  unfold appliedRules
  split_ifs
  · conv_rhs => rw [← List.takeWhile_append_dropWhile
      (p := fun r : Rule => decide (r.behavior = .shadow)) (l := matching ctx block.rules)]
    exact List.Sublist.append (List.Sublist.refl _)
      (List.filter_sublist.trans (head?_toList_sublist _))
  · exact List.filter_sublist

theorem appliedRules_sublist : (appliedRules block ctx).Sublist block.rules :=
  (appliedRules_sublist_matching block ctx).trans List.filter_sublist

end Spec

end Ratelimit.Match
