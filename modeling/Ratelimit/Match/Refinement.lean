import Ratelimit.Match.Sets
import Ratelimit.Match.Targets

/-!
# Compilation preserves the authored meaning

The matcher on the snapshot of an accepted policy applies exactly the rules that
the interpreter of the policy applies, with the same costs, windows and counter
keys, in the same order, as long as no list of values hides a rule. The two are
related level by level: values, predicates, rules, blocks.
-/
namespace Ratelimit.Reference

open Algo Store Match Compile Library

open scoped Classical

/-- A list of values and a set answer alike. -/
structure Reads (values : List Text) (set : Finset Text) : Prop where
  only_iff : ∀ t, set = {t} ↔ values = [t]
  mem_iff : ∀ t, t ∈ set ↔ t ∈ values

theorem Reads.empty_iff {values : List Text} {set : Finset Text} (h : Reads values set) :
    set = ∅ ↔ values = [] := by
  rw [Finset.eq_empty_iff_forall_notMem, List.eq_nil_iff_forall_not_mem]
  simp only [h.mem_iff]

theorem reads_one (t : Text) : Reads [t] {t} where
  only_iff u := by simp
  mem_iff u := by simp

theorem reads_dedup (values : List Text) : Reads values.dedup values.toFinset where
  only_iff t := by
    constructor
    · intro h
      have hperm : values.dedup.Perm [t] := by
        refine List.perm_of_nodup_nodup_toFinset_eq (List.nodup_dedup _) (List.nodup_singleton t) ?_
        ext v
        simpa using Finset.ext_iff.mp h v
      exact List.perm_singleton.mp hperm
    · intro h
      ext v
      rw [List.mem_toFinset, ← List.mem_dedup, h]
      simp
  mem_iff t := by simp

/-- The context of the matcher and the view of the interpreter are one. -/
structure ViewOf (ctx : BlockCtx) (view : View) : Prop where
  method_eq : ctx.method = view.method
  keys : ∀ k, Reads ((ctx.keys.lookup k).getD []) (view.keys k)
  pathAxis_eq : ctx.pathAxis = view.pathAxis
  captures : ∀ k, ctx.captures.lookup k = view.captures.lookup k
  cost_eq : ctx.cost = view.cost

theorem rate_algorithm_eq {ident : Key.Ident} {rate : Model.Rate} {out : Rate}
    (h : RateOf ident rate out) : out.algorithm = algorithmOf rate := by
  have hname := h.algorithm_eq
  unfold resolveAlgorithm at hname
  unfold algorithmOf
  by_cases hnil : rate.algorithm = []
  · rw [if_pos hnil] at hname
    rw [if_neg (by rw [hnil]; decide)]
    exact (Option.some.inj hname).symm
  · rw [if_neg hnil] at hname
    unfold byName at hname
    split_ifs at hname ⊢ with hgcra hfixed hfixed
    · exact absurd (hgcra.symm.trans hfixed) (by decide)
    · exact (Option.some.inj hname).symm
    · exact (Option.some.inj hname).symm

theorem rate_window_eq {ident : Key.Ident} {rate : Model.Rate} {out : Rate}
    (h : RateOf ident rate out) : out.window = windowOf rate := by
  rw [h.window_eq, rate_algorithm_eq h]
  unfold resolveWindow windowOf
  cases algorithmOf rate <;> simp

section Rules

variable {ctx : BlockCtx} {view : View} {groups : List Model.Group} {scope : Key.Scope}
  {b : Model.Block} {block : Block} {r : Model.Rule} {out : Rule} {rules : List Model.Rule}
  {outs : List Rule} (h : ViewOf ctx view)
include h

theorem ViewOf.reads (k : Text) : Reads (ctx.valueOf k) (view.values k) := by
  unfold BlockCtx.valueOf View.values
  split_ifs with hpath hmethod
  · exact h.pathAxis_eq ▸ reads_one _
  · exact h.method_eq ▸ reads_one _
  · rw [h.captures k]
    cases view.captures.lookup k with
    | none => exact h.keys k
    | some v => exact reads_one v

theorem predicateHolds_iff {p : Model.Predicate} {out : Predicate}
    (hp : PredicateOf (groupNamed groups) p out) :
    predicateHolds ctx out = true ↔ Holds groups view p := by
  have hr := h.reads p.key
  unfold predicateHolds Holds
  rw [hp.key_eq, hp.operator_eq, hp.value_eq]
  cases hop : p.operator with
  | equals => simp [hr.only_iff]
  | isIn => simp [hp.isIn hop, hr.mem_iff, and_comm]
  | inGroup =>
    obtain ⟨values, hgroup, hvalues⟩ := hp.inGroup hop
    obtain ⟨g, hfind, rfl⟩ := Option.map_eq_some_iff.mp hgroup
    simp [hvalues, hfind, hr.mem_iff, and_comm]
  | contains => simp [hr.mem_iff]
  | exist => simp [hr.empty_iff, List.length_pos_iff]
  | doesNotExist => simp [hr.empty_iff]
  | other t ht => exact absurd hop (hp.known t ht)

theorem length_eq_one_iff_only (k : Text) :
    (ctx.valueOf k).length = 1 ↔ (only (view.values k)).isSome = true := by
  rw [List.length_eq_one_iff, Option.isSome_iff_exists]
  exact exists_congr fun t => (only_eq_some_iff.trans ((h.reads k).only_iff t)).symm

theorem ruleMatches_iff (hr : RuleOf scope (groupNamed groups) b r out) :
    ruleMatches ctx out = true ↔ Applies groups view r := by
  unfold ruleMatches Applies
  rw [Bool.and_eq_true, List.all_eq_true, List.all_eq_true, hr.counters_eq]
  refine and_congr (all_eq_of_forall₂ hr.predicates fun p q hpq => ?_).symm ?_
  · exact (predicateHolds_iff h hpq).symm
  · simp [length_eq_one_iff_only h]

theorem axesOf_eq (hr : RuleOf scope (groupNamed groups) b r out) (happ : Applies groups view r) :
    axesOf ctx out = r.counters.map fun k => (only (view.values k)).getD [] := by
  unfold axesOf
  rw [hr.counters_eq]
  refine List.map_congr_left fun k hk => ?_
  obtain ⟨t, ht⟩ := Option.isSome_iff_exists.mp (happ.2 k hk)
  rw [((h.reads k).only_iff t).mp (only_eq_some_iff.mp ht), ht]
  rfl

theorem matchedRule_eq (hname : block.name = b.name) (hr : RuleOf scope (groupNamed groups) b r out)
    (happ : Applies groups view r) :
    matchedRule block ctx out = applied scope b view r := by
  have hbehavior : out.behavior = behaviorOf r := hr.behavior_eq
  have hbuckets : r.rates.map (bucketFor scope b view r) = out.rates.map (bucketOf ctx out) := by
    refine map_eq_of_forall₂ hr.rates fun rate outRate hrate => ?_
    simp only [bucketFor, bucketOf, axesOf_eq h hr happ, hrate.keyPrefix_eq,
      rate_window_eq hrate, rate_algorithm_eq hrate, hbehavior, h.cost_eq]
  simp only [matchedRule, applied, hname, hr.name_eq, hbehavior, h.cost_eq, hbuckets]

theorem forall₂_matching (hrules : List.Forall₂ (RuleOf scope (groupNamed groups) b) rules outs) :
    List.Forall₂ (fun r out => Applies groups view r ∧ RuleOf scope (groupNamed groups) b r out)
      (applying groups view rules) (matching ctx outs) := by
  refine (List.forall₂_and_left _ _).mpr ⟨fun r hr => ?_, ?_⟩
  · simpa using (List.mem_filter.mp hr).2
  · refine List.rel_filter (fun r out hr => ?_) hrules
    dsimp only
    rw [decide_eq_true_iff]
    exact (ruleMatches_iff h hr).symm

theorem evalFirstMatch_eq_countingFirst (hname : block.name = b.name)
    (hrules : List.Forall₂ (RuleOf scope (groupNamed groups) b) rules outs) :
    evalFirstMatch block ctx outs =
      (countingFirst groups view rules).map (applied scope b view) := by
  have hpairs := forall₂_matching h hrules
  rw [evalFirstMatch_eq]
  refine (map_eq_of_forall₂ (List.rel_append (forall₂_takeWhile ?_ hpairs)
    (List.rel_filter ?_ (forall₂_head (forall₂_dropWhile ?_ hpairs)))) ?_).symm
  · intro r out hr
    rw [hr.2.behavior_eq]
    rfl
  · intro r out hr
    dsimp only
    rw [hr.2.behavior_eq]
    rfl
  · intro r out hr
    rw [hr.2.behavior_eq]
    rfl
  · exact fun r out hr => (matchedRule_eq h hname hr.2 hr.1).symm

/-- A name is suppressed by the compiled rules exactly when an authored rule
that applies replaces it. -/
theorem mem_suppressedBy_iff (hrules : List.Forall₂ (RuleOf scope (groupNamed groups) b) rules outs)
    (name : Text) :
    name ∈ suppressedBy ctx outs ↔
      ∃ s ∈ applying groups view rules, behaviorOf s ≠ .shadow ∧ name ∈ s.replacedRules := by
  have hiff := exists_iff_of_forall₂ (forall₂_matching h hrules)
    (p := fun r => behaviorOf r ≠ .shadow ∧ name ∈ r.replacedRules)
    (q := fun out => out.behavior ≠ .shadow ∧ name ∈ out.replacedRules) fun r out hr => by
      rw [hr.2.behavior_eq, hr.2.replacedRules_eq]
      rfl
  rw [hiff]
  simp [suppressedBy, and_assoc]

theorem evalAll_eq_countingAll (hname : block.name = b.name)
    (hrules : List.Forall₂ (RuleOf scope (groupNamed groups) b) b.rules block.rules) :
    evalAll block ctx = (countingAll groups view b.rules).map (applied scope b view) := by
  have hpairs := forall₂_matching h hrules
  rw [evalAll_eq]
  refine (map_eq_of_forall₂ (List.rel_filter (fun r out hr => ?_) hpairs) ?_).symm
  · dsimp only
    rw [hr.2.behavior_eq, hr.2.name_eq, decide_eq_true_iff, decide_eq_true_iff,
      mem_suppressedBy_iff h hrules]
    rfl
  · exact fun r out hr => (matchedRule_eq h hname hr.2 hr.1).symm

theorem evalBlock_eq_counting (hb : BlockOf scope (groupNamed groups) b block) :
    evalBlock block ctx = (counting groups view b).map (applied scope b view) := by
  have hmode : block.mode = modeOf b := hb.mode_eq
  unfold evalBlock counting
  rcases hb.known with hall | hfirst
  · rw [← hmode, hall, if_neg (by decide)]
    exact evalAll_eq_countingAll h hb.name_eq hb.rules
  · rw [← hmode, hfirst, if_pos rfl]
    exact evalFirstMatch_eq_countingFirst h hb.name_eq hb.rules

end Rules

section Views

variable (path query method : Text) (kmap : Keys) (keys : Text → Finset Text) (cost : ℤ)

def routeCtx (m : Route × Text × Captures) : BlockCtx :=
  { method, keys := kmap, pathAxis := m.2.1, captures := m.2.2
    cost := if hitCost (some m.1) query = 0 then cost else hitCost (some m.1) query }

variable {path query method kmap keys cost}

/-- A route that reads a cost reads at least one, so zero stands for a route
that reads none. -/
theorem routeCost_eq {r : Model.Route} {out : Route} (hr : RouteOf r out) :
    (if hitCost (some out) query = 0 then cost else hitCost (some out) query) =
      match r.cost with
      | none => cost
      | some c => costOf c query := by
  unfold hitCost
  rcases option_rel_cases hr.cost with ⟨hnone, hnone'⟩ | ⟨c, outCost, hsome, hsome', hc⟩
  · simp [hnone, hnone']
  · have hpos := (queryCost_bounds hc.parameter_ne hc.one_le_default hc.default_le query).1
    have hne : queryCost outCost query ≠ 0 := by omega
    simp only [hsome, hsome', if_neg hne]
    exact queryCost_eq_costOf hc query

variable (hkeys : ∀ k, Reads ((kmap.lookup k).getD []) (keys k))
include hkeys

theorem matchRoutes_eq {rs : List Model.Route} {outs : List Route}
    (hroutes : List.Forall₂ RouteOf rs outs) :
    Option.Rel (fun m view => ViewOf (routeCtx query method kmap cost m) view)
      (matchRoutes path method outs) (rs.findSome? (routeView path query method keys cost)) := by
  induction hroutes with
  | nil => exact Option.Rel.none
  | @cons r out rs outs hr _ ih =>
    rw [matchRoutes, List.findSome?_cons]
    have hmethods : (out.methods ≠ ∅ ∧ method ∉ out.methods) ↔
        ¬ (r.methods = [] ∨ method ∈ r.methods) := by
      rw [hr.methods_eq, not_or]
      simp
    by_cases hadmits : r.methods = [] ∨ method ∈ r.methods
    · rw [if_neg (fun h => hmethods.mp h hadmits), routeView, if_pos hadmits]
      rcases option_rel_cases (matchPath_eq hr path) with
        ⟨hpath, hpath'⟩ | ⟨captures, pairs, hpath, hpath', hsame⟩
      · simpa [hpath, hpath'] using ih
      · rw [hpath, hpath', hr.type_eq, hr.value_eq]
        dsimp only [Option.map_some]
        have hview : ∀ axis, ViewOf (routeCtx query method kmap cost (out, axis, captures))
            ({ method, keys, captures := pairs, pathAxis := axis
               cost := match r.cost with
                | none => cost
                | some c => costOf c query } : View) :=
          fun axis => ⟨rfl, hkeys, rfl, hsame, routeCost_eq hr⟩
        split_ifs with htemplate
        · exact Option.Rel.some (hview _)
        · exact Option.Rel.some (hview _)
    · rw [if_pos (hmethods.mpr hadmits), routeView, if_neg hadmits]
      exact ih

theorem hitOf_eq {scope : Key.Scope} {groups : Groups} {b : Model.Block} {block : Block}
    (hb : BlockOf scope groups b block) :
    Option.Rel (fun hit view => hit.block = block ∧ ViewOf (hit.ctx method kmap cost) view)
      (hitOf path query method block) (viewOf b path query method keys cost) := by
  unfold hitOf viewOf matchTarget
  have hlen := hb.routes.length_eq
  by_cases hnil : b.routes = []
  · have hnil' : block.routes = [] := List.eq_nil_of_length_eq_zero (by simp [← hlen, hnil])
    rw [if_pos hnil, if_pos hnil']
    exact Option.Rel.some ⟨rfl, rfl, hkeys, rfl, fun k => rfl, rfl⟩
  · have hnil' : block.routes ≠ [] :=
      fun h => hnil (List.eq_nil_of_length_eq_zero (by simp [hlen, h]))
    rw [if_neg hnil, if_neg hnil']
    rcases option_rel_cases (matchRoutes_eq hkeys hb.routes) with
      ⟨hm, hv⟩ | ⟨m, view, hm, hv, hview⟩
    · rw [hm, hv]
      exact Option.Rel.none
    · rw [hm, hv]
      exact Option.Rel.some ⟨rfl, hview⟩

/-- The matcher on an accepted snapshot is the interpreter, where the lists it reads answer as the
sets do. -/
theorem evaluate_eq_interpret {scope : Key.Scope} {p : Model.Policy} {snap : Snapshot}
    (hsnap : SnapshotOf scope p snap) :
    (candidates snap path method).evaluate kmap cost =
      interpret scope p path method keys cost := by
  unfold candidates Candidates.evaluate interpret
  dsimp only
  have hblocks := hsnap.blocks
  generalize snap.blocks = blocks at hblocks ⊢
  generalize p.blocks = bs at hblocks ⊢
  induction hblocks with
  | nil => rfl
  | @cons b block bs blocks hb _ ih =>
    rw [List.flatMap_cons, ← ih, List.filterMap_cons]
    rcases option_rel_cases (hitOf_eq hkeys hb) with ⟨hh, hv⟩ | ⟨hit, view, hh, hv, hblock, hview⟩
    · rw [hh, hv]
      rfl
    · rw [hh, hv, List.flatMap_cons, hblock, evalBlock_eq_counting hview hb]

end Views

def valuesOf (keys : Keys) (k : Text) : List Text := (keys.lookup k).getD []

theorem evaluate_once_eq_interpret {scope : Key.Scope} {p : Model.Policy} {snap : Snapshot}
    (hsnap : SnapshotOf scope p snap) (path method : Text) (keys : Keys) (cost : ℤ) :
    (candidates snap path method).evaluate (once keys) cost =
      interpret scope p path method (fun k => (valuesOf keys k).toFinset) cost := by
  refine evaluate_eq_interpret (fun k => ?_) hsnap
  rw [lookup_once]
  exact reads_dedup _

/-- No rule that matches on the sets of values counts by a key, or compares one, whose list
repeats its one value. -/
def Unhidden (snap : Snapshot) (path method : Text) (keys : Keys) (cost : ℤ) : Prop :=
  ∀ hit ∈ (candidates snap path method).hits, ∀ rule ∈ hit.block.rules,
    ruleMatches (hit.ctx method keys cost).once rule = true →
      ∀ k ∈ sizedKeys rule, ¬RepeatsOne ((hit.ctx method keys cost).valueOf k)

/-- Compilation preserves the authored meaning: an accepted policy applies to every request from
which no rule is hidden what its interpreter gives, in the same order, and a policy with a blocking
problem applies nothing. -/
theorem compile_preserves_meaning (namespaceName domain : Text) (p : Model.Policy) :
    (blocking (compile namespaceName domain (some p)).2 = true →
      (compile namespaceName domain (some p)).1.blocks = []) ∧
    (blocking (compile namespaceName domain (some p)).2 = false →
      ∃ scope : Key.Scope, scope.namespaceName = namespaceName ∧ scope.domain = domain ∧
        ∀ (path method : Text) (keys : Keys) (cost : ℤ),
          Unhidden (compile namespaceName domain (some p)).1 path method keys cost →
            (candidates (compile namespaceName domain (some p)).1 path method).evaluate keys cost =
              interpret scope p path method (fun k => (valuesOf keys k).toFinset) cost) := by
  refine ⟨compile_blocks_of_blocking, fun hfree => ?_⟩
  obtain ⟨scope, hnamespace, hdomain, hsnap⟩ := compile_accepted hfree
  refine ⟨scope, hnamespace, hdomain, fun path method keys cost hunhidden => ?_⟩
  rw [← evaluate_once_eq_interpret hsnap]
  exact List.flatMap_congr fun hit hhit => evalBlock_once (hunhidden hit hhit)

theorem compile_preserves_meaning_shop :
    (compile [] (ascii "shop") (some shopPolicy)).1.blocks = [] ∧
    ∃ scope : Key.Scope, scope.namespaceName = ascii "prod" ∧
      (candidates (compileShop shopPolicy).1 (ascii "/orders/7?units=3") (ascii "GET")).evaluate
            (Finmap.singleton (ascii "tenant") [ascii "globex"]) 1 =
        interpret scope shopPolicy (ascii "/orders/7?units=3") (ascii "GET")
          (fun k => (valuesOf (Finmap.singleton (ascii "tenant") [ascii "globex"]) k).toFinset)
          1 := by
  refine ⟨(compile_preserves_meaning [] (ascii "shop") shopPolicy).1 (by decide +kernel), ?_⟩
  obtain ⟨scope, hnamespace, -, hmeaning⟩ :=
    (compile_preserves_meaning (ascii "prod") (ascii "shop") shopPolicy).2 blocking_shopPolicy
  refine ⟨scope, hnamespace, hmeaning _ _ _ _ ?_⟩
  have hsized : ∀ hit ∈ (candidates (compileShop shopPolicy).1
      (ascii "/orders/7?units=3") (ascii "GET")).hits, ∀ rule ∈ hit.block.rules,
        ∀ k ∈ sizedKeys rule, ((hit.ctx (ascii "GET")
          (Finmap.singleton (ascii "tenant") [ascii "globex"]) 1).valueOf k).length < 2 := by
    decide +kernel
  intro hit hhit rule hrule _ k hk hrepeats
  exact absurd hrepeats.1 (not_le.mpr (hsized hit hhit rule hrule k hk))

/-- The role that a request names twice is one role to the interpreter, and none to the matcher. -/
theorem repeated_role_misread :
    blocking (compileShop rolesPolicy).2 = false ∧
    (candidates (compileShop rolesPolicy).1 (ascii "/desk")
      (ascii "GET")).evaluate (Finmap.singleton (ascii "role") [ascii "a", ascii "a"]) 1 = [] ∧
    ∃ scope : Key.Scope, scope.namespaceName = ascii "prod" ∧ scope.domain = ascii "shop" ∧
      (interpret scope rolesPolicy (ascii "/desk") (ascii "GET") (fun k =>
        (valuesOf (Finmap.singleton (ascii "role") [ascii "a", ascii "a"]) k).toFinset) 1).map
          MatchedRule.rule = [ascii "per-role"] := by
  have hfree : blocking (compileShop rolesPolicy).2 = false := by
    decide +kernel
  obtain ⟨scope, hnamespace, hdomain, hsnap⟩ := compile_accepted hfree
  refine ⟨hfree, by decide +kernel, scope, hnamespace, hdomain, ?_⟩
  rw [← evaluate_once_eq_interpret hsnap]
  decide +kernel

end Ratelimit.Reference
