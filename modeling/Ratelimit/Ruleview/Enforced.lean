import Ratelimit.Compile.References
import Ratelimit.Engine.Decision
import Ratelimit.Library.Runs
import Ratelimit.Management.Handlers
import Ratelimit.Ruleview.View

/-!
# What a rendering fixes

What the view of a snapshot drops follows from what it keeps, so two snapshots of one domain
that render alike match and count alike. The way from a token to the identity values is not in
the view, and does not follow from it.
-/
namespace Ratelimit.Ruleview

open Compile Match Engine Identity Store Library

section Compiled

/-- What the compiler derives from the fields that a view shows. -/
structure Derived (scope : Key.Scope) (snap : Snapshot) : Prop where
  sound : snap.Sound scope
  segments : ∀ b ∈ snap.blocks, ∀ r ∈ b.routes, r.type = .template →
    List.Forall₂ SegmentOf (templateSegments r.value) r.segments

theorem derived_compile {namespaceName domain : Text} {p : Option Model.Policy}
    (hfree : blocking (compile namespaceName domain p).2 = false) :
    ∃ (hn : namespaceName ≠ []) (hd : domain ≠ []),
      Derived ⟨namespaceName, domain, hn, hd⟩ (compile namespaceName domain p).1 := by
  cases p with
  | none =>
    unfold compile at hfree ⊢
    split_ifs at hfree ⊢ with hn hd
    · exact absurd hfree (by simp [blocking])
    · exact absurd hfree (by simp [blocking])
    · refine ⟨hn, domainName_ne_nil (Bool.not_eq_false _ ▸ (not_or.mp hd).2), ?_⟩
      exact ⟨sound_of_blocks_eq_nil rfl, by simp [bareSnapshot]⟩
  | some p =>
    obtain ⟨⟨n, d, hn, hd⟩, rfl, rfl, hsnap⟩ := compile_accepted hfree
    refine ⟨hn, hd, snapshot_sound hsnap, ?_⟩
    intro b hb r hr htype
    obtain ⟨authored, -, hblock⟩ := exists_of_mem_right hsnap.blocks hb
    obtain ⟨authoredRoute, -, hroute⟩ := exists_of_mem_right hblock.routes hr
    rw [hroute.value_eq]
    exact (hroute.segments (hroute.type_eq ▸ htype)).1

theorem segmentOf_unique : Relator.RightUnique SegmentOf := by
  intro s x y hx hy
  cases hs : isPlaceholder s with
  | false => rw [hx.literal hs, hy.literal hs]
  | true => rw [(hx.capture hs).1, (hy.capture hs).1]

end Compiled

section Targets

structure SameRoute (r r' : Route) : Prop where
  type_eq : r.type = r'.type
  value_eq : r.value = r'.value
  methods_eq : r.methods = r'.methods
  cost_eq : r.cost = r'.cost
  matchPath_eq : ∀ path, matchPath r path = matchPath r' path

variable {r r' : Route} {rs rs' : List Route}

/-- A template is split anew from its value. -/
theorem sameRoute_of_route_eq
    (hr : r.type = .template → List.Forall₂ SegmentOf (templateSegments r.value) r.segments)
    (hr' : r'.type = .template → List.Forall₂ SegmentOf (templateSegments r'.value) r'.segments)
    (h : route r = route r') : SameRoute r r' := by
  have htype : r.type = r'.type := congrArg RouteView.type h
  have hvalue : r.value = r'.value := congrArg RouteView.value h
  refine ⟨htype, hvalue, methods_eq_of_route_eq h, cost_eq_of_route_eq h, fun path => ?_⟩
  unfold matchPath
  cases htemplate : r.type with
  | template =>
    rw [htype] at htemplate
    have hsegments : r.segments = r'.segments :=
      List.right_unique_forall₂' segmentOf_unique (hr (htype ▸ htemplate))
        (hvalue ▸ hr' htemplate)
    simp only [htemplate, hsegments]
  | _ => simp only [← htype, htemplate, hvalue]

theorem matchRoutes_congr (h : List.Forall₂ SameRoute rs rs') (path method : Text) :
    (matchRoutes path method rs).map (fun m => (m.1.cost, m.2)) =
      (matchRoutes path method rs').map fun m => (m.1.cost, m.2) := by
  induction h with
  | nil => rfl
  | @cons r r' rs rs' hr _ ih =>
    simp only [matchRoutes, hr.methods_eq, hr.matchPath_eq, hr.type_eq, hr.value_eq]
    split_ifs
    · exact ih
    · cases matchPath r' path with
      | none => exact ih
      | some captures => simp [hr.cost_eq]
    · cases matchPath r' path with
      | none => exact ih
      | some captures => simp [hr.cost_eq]

end Targets

section Rules

/-- What the view of a predicate says of a request. -/
def PredicateView.holds (ctx : BlockCtx) (v : PredicateView) : Bool :=
  match v.operator with
  | .equals => ctx.valueOf v.key = [v.value]
  | .isIn => (ctx.valueOf v.key).any fun t => t ∈ v.values
  | .contains => v.value ∈ ctx.valueOf v.key
  | .exist => 0 < (ctx.valueOf v.key).length
  | .doesNotExist => (ctx.valueOf v.key).length = 0
  | .inGroup | .other _ _ => false

theorem predicate_holds (ctx : BlockCtx) (p : Predicate) :
    (predicate p).holds ctx = predicateHolds ctx p := by
  have hmem : ∀ t : Text, t ∈ sortedKeys p.values ↔ t ∈ p.values := fun t => mem_sortedBy
  unfold PredicateView.holds predicateHolds
  cases hop : p.operator <;> simp [predicate, hop, hmem]

structure SameRule (r r' : Rule) : Prop where
  name_eq : r.name = r'.name
  shadow_iff : r.behavior = .shadow ↔ r'.behavior = .shadow
  bypass_iff : r.behavior = .bypass ↔ r'.behavior = .bypass
  matches_eq : ∀ ctx, ruleMatches ctx r = ruleMatches ctx r'
  counters_eq : r.counters = r'.counters
  rates_eq : r.rates = r'.rates
  replacedRules_eq : r.replacedRules = r'.replacedRules

variable {scope : Key.Scope} {blockName : Text} {r r' : Rule} {b b' : Block} {ctx : BlockCtx}

theorem rate_eq_of_rate_eq {ident : Key.Ident} {x y : Rate} (hx : x.Sound ident)
    (hy : y.Sound ident) (h : rate x = rate y) : x = y := by
  have halgorithm : x.algorithm = y.algorithm :=
    algorithm_injective (congrArg RateView.algorithm h)
  have hwindow : x.window = y.window := window_eq_of_rate_eq h
  have hprefix : x.keyPrefix = y.keyPrefix := by
    rw [hx.keyPrefix_eq, hy.keyPrefix_eq, halgorithm, hwindow]
  cases x
  cases y
  simp_all

theorem sameRule_of_rule_eq (hr : r.Sound scope blockName) (hr' : r'.Sound scope blockName)
    (h : rule blockName r = rule blockName r') : SameRule r r' := by
  have hname : r.name = r'.name := congrArg RuleView.rule h
  have hmode : mode r.behavior = mode r'.behavior := congrArg RuleView.mode h
  have hcounters : r.counters = r'.counters := congrArg RuleView.axes h
  have hpredicates : r.predicates.map predicate = r'.predicates.map predicate :=
    congrArg RuleView.predicates h
  have hrates : List.Forall₂ Eq r.rates r'.rates := by
    refine forall₂_of_map_eq (congrArg RuleView.rates h) fun x hx y hy heq => ?_
    exact rate_eq_of_rate_eq (hr.rates x hx) (hname ▸ hr'.rates y hy) heq
  refine ⟨hname, ?_, ?_, fun ctx => ?_, hcounters, ?_, congrArg RuleView.replacedRules h⟩
  · rw [← mode_eq_shadow_iff, hmode, mode_eq_shadow_iff]
  · rw [← mode_eq_bypass_iff, hmode, mode_eq_bypass_iff]
  · have hall : ∀ r : Rule, r.predicates.all (predicateHolds ctx) =
        (r.predicates.map predicate).all (PredicateView.holds ctx) := by
      intro r
      rw [List.all_map]
      congr 1
      funext p
      exact (predicate_holds ctx p).symm
    rw [ruleMatches, ruleMatches, hall, hall, hpredicates, hcounters]
  · rwa [List.forall₂_eq_eq_eq] at hrates

theorem matchedRule_congr (h : SameRule r r') (hname : b.name = b'.name) :
    matchedRule b ctx r = matchedRule b' ctx r' := by
  have hbucket : bucketOf ctx r = bucketOf ctx r' := by
    funext rate
    simp only [bucketOf, axesOf, h.counters_eq, h.shadow_iff]
  simp only [matchedRule, hname, h.name_eq, h.rates_eq, h.shadow_iff, hbucket]

theorem evalFirstMatch_congr {rules rules' : List Rule} (h : List.Forall₂ SameRule rules rules')
    (hname : b.name = b'.name) : evalFirstMatch b ctx rules = evalFirstMatch b' ctx rules' := by
  induction h with
  | nil => rfl
  | cons hr _ ih =>
    simp only [evalFirstMatch, hr.matches_eq, hr.bypass_iff, hr.shadow_iff, ne_eq,
      matchedRule_congr hr hname, ih]

theorem collectAll_congr {rules rules' : List Rule} (h : List.Forall₂ SameRule rules rules')
    (hname : b.name = b'.name) : collectAll b ctx rules = collectAll b' ctx rules' := by
  induction h with
  | nil => rfl
  | cons hr _ ih =>
    simp only [collectAll, hr.matches_eq, hr.bypass_iff, hr.shadow_iff, ne_eq,
      matchedRule_congr hr hname, hr.replacedRules_eq, ih]

end Rules

section Blocks

structure SameBlock (b b' : Block) : Prop where
  name_eq : b.name = b'.name
  mode_iff : b.mode = .firstMatch ↔ b'.mode = .firstMatch
  routes : List.Forall₂ SameRoute b.routes b'.routes
  rules : List.Forall₂ SameRule b.rules b'.rules

variable {scope : Key.Scope} {snap snap' : Snapshot} {b b' : Block}

theorem sameBlocks_of_render_eq (hsnap : Derived scope snap) (hsnap' : Derived scope snap')
    (h : render snap = render snap') : List.Forall₂ SameBlock snap.blocks snap'.blocks := by
  refine forall₂_of_map_eq (congrArg RuleSetView.blocks h) fun b hb b' hb' heq => ?_
  have hname : b.name = b'.name := congrArg BlockView.block heq
  refine ⟨hname, ?_, ?_, ?_⟩
  · rw [← mode_eq_firstMatch_iff, heq, mode_eq_firstMatch_iff]
  · refine forall₂_of_map_eq (congrArg BlockView.routes heq) fun r hr r' hr' hroute => ?_
    exact sameRoute_of_route_eq (hsnap.segments b hb r hr) (hsnap'.segments b' hb' r' hr') hroute
  · have hrules : b.rules.map (rule b.name) = b'.rules.map (rule b'.name) :=
      congrArg BlockView.rules heq
    rw [← hname] at hrules
    refine forall₂_of_map_eq hrules fun r hr r' hr' hrule => ?_
    exact sameRule_of_rule_eq ((hsnap.sound.blocks b hb).rules r hr)
      (hname ▸ (hsnap'.sound.blocks b' hb').rules r' hr') hrule

theorem evalBlock_congr (h : SameBlock b b') (ctx : BlockCtx) :
    evalBlock b ctx = evalBlock b' ctx := by
  simp only [evalBlock, h.mode_iff, evalAll, collectAll_congr h.rules h.name_eq,
    evalFirstMatch_congr h.rules h.name_eq]

structure SameHit (x y : Hit) : Prop where
  block : SameBlock x.block y.block
  pathAxis_eq : x.pathAxis = y.pathAxis
  captures_eq : x.captures = y.captures
  cost_eq : x.cost = y.cost

theorem hitOf_congr (h : SameBlock b b') (path query method : Text) :
    Option.Rel SameHit (hitOf path query method b) (hitOf path query method b') := by
  have hmatch := matchRoutes_congr h.routes path method
  have hnone : b.routes = [] ↔ b'.routes = [] := by
    rw [← List.length_eq_zero_iff, ← List.length_eq_zero_iff, h.routes.length_eq]
  unfold hitOf matchTarget
  by_cases hroutes : b'.routes = []
  · rw [if_pos hroutes, if_pos (hnone.mpr hroutes)]
    exact Option.Rel.some ⟨h, rfl, rfl, rfl⟩
  · rw [if_neg hroutes, if_neg (mt hnone.mp hroutes)]
    cases hm : matchRoutes path method b.routes with
    | none =>
      rw [hm, Option.map_none, eq_comm, Option.map_eq_none_iff] at hmatch
      rw [hmatch]
      exact Option.Rel.none
    | some m =>
      rw [hm, Option.map_some, eq_comm, Option.map_eq_some_iff] at hmatch
      obtain ⟨m', hm', heq⟩ := hmatch
      obtain ⟨hcost, hview⟩ := Prod.mk.inj heq
      rw [hm']
      refine Option.Rel.some ⟨h, ?_, ?_, ?_⟩
      · exact congrArg Prod.fst hview.symm
      · exact congrArg Prod.snd hview.symm
      · simp only [hitCost, hcost]

theorem hits_congr (h : List.Forall₂ SameBlock snap.blocks snap'.blocks) (path method : Text) :
    List.Forall₂ SameHit (candidates snap path method).hits
      (candidates snap' path method).hits := by
  unfold candidates
  refine List.rel_filterMap ?_ h
  intro b b' hb
  exact hitOf_congr hb _ _ _

theorem evaluate_hits_congr (h : List.Forall₂ SameBlock snap.blocks snap'.blocks)
    (path method : Text) (keys : Keys) (cost : ℤ) :
    (candidates snap path method).evaluate keys cost =
      (candidates snap' path method).evaluate keys cost := by
  unfold Candidates.evaluate
  rw [List.flatMap_def, List.flatMap_def]
  congr 1
  refine map_eq_of_forall₂ (hits_congr h path method) fun x y hxy => ?_
  have hctx : x.ctx method keys cost = y.ctx method keys cost := by
    simp only [Hit.ctx, hxy.pathAxis_eq, hxy.captures_eq, hxy.cost_eq]
  have hmethod : ∀ snap : Snapshot, (candidates snap path method).method = method := fun _ => rfl
  rw [hmethod, hmethod, hctx, evalBlock_congr hxy.block]

end Blocks

section Decisions

variable {S : Type} {scope : Key.Scope} {snap snap' : Snapshot} {codec : Codec}

def ExtractsAlike (codec : Codec) (snap snap' : Snapshot) (req : Request) : Prop :=
  extractKeys codec snap.extraction req.token req.keys =
    extractKeys codec snap'.extraction req.token req.keys

theorem evaluate_congr (hsnap : Derived scope snap) (hsnap' : Derived scope snap')
    (h : render snap = render snap') {req : Request} (hreq : ExtractsAlike codec snap snap' req)
    (judge : S → List Bucket → S × Answer) (s : S) :
    evaluate codec snap judge s req = evaluate codec snap' judge s req := by
  have hblocks := sameBlocks_of_render_eq hsnap hsnap' h
  have hkeys : snap.effectiveKeys = snap'.effectiveKeys := congrArg RuleSetView.effectiveKeys h
  have hempty : (candidates snap req.path req.method).empty =
      (candidates snap' req.path req.method).empty := by
    have hlength := (hits_congr hblocks req.path req.method).length_eq
    rw [Candidates.empty, Candidates.empty, Bool.eq_iff_iff, List.isEmpty_iff, List.isEmpty_iff,
      ← List.length_eq_zero_iff, hlength, List.length_eq_zero_iff]
  unfold ExtractsAlike at hreq
  unfold evaluate
  simp only [hempty, hreq, evaluate_hits_congr hblocks, decisionOf, keyNames, hkeys]

/-- `Decide` of a snapshot bound to a store, at a reading of the clock. -/
def decideOn (codec : Codec) (judge : ℕ → S → List Bucket → S × Answer) (snap : Snapshot) (s : S)
    (call : ℕ × Request) : S × Except Failure Decision :=
  evaluate codec snap (judge call.1) s call.2

/-- The rule set version fixes what is enforced on an identity: two snapshots of one domain that render
alike give the same decisions and leave the same counters, along every sequence of requests whose
identity they extract alike. -/
theorem decisions_eq_of_render_eq (codec : Codec) (judge : ℕ → S → List Bucket → S × Answer)
    (namespaceName domain : Text) (p p' : Option Model.Policy)
    (hfree : blocking (compile namespaceName domain p).2 = false)
    (hfree' : blocking (compile namespaceName domain p').2 = false)
    (hrender : render (compile namespaceName domain p).1 =
      render (compile namespaceName domain p').1)
    (calls : List (ℕ × Request))
    (hcalls : ∀ call ∈ calls, ExtractsAlike codec (compile namespaceName domain p).1
      (compile namespaceName domain p').1 call.2) (s : S) :
    runs (decideOn codec judge (compile namespaceName domain p).1) s calls =
      runs (decideOn codec judge (compile namespaceName domain p').1) s calls := by
  obtain ⟨_, _, hsnap⟩ := derived_compile hfree
  obtain ⟨_, _, hsnap'⟩ := derived_compile hfree'
  refine runs_congr (fun call hcall s => ?_) s
  exact evaluate_congr hsnap hsnap' hrender (hcalls call hcall) _ s

end Decisions

section Sample

open Management

def lowering : Codec := { Codec.inert with toLower := Strings.toLowerAscii }

def tenantRequest (tenant : Text) : Request :=
  { path := ascii "/orders", method := ascii "GET", token := []
    keys := Finmap.singleton (ascii "tenant") [tenant], cost := 0 }

def tenantSnapshot (normalization : Model.Normalize) : Snapshot :=
  (compileShop (tenantPolicy normalization [ascii "tenant"])).1

theorem blocking_tenantPolicy : ∀ normalization ∈ [Model.Normalize.none, .lowercase],
    blocking (compileShop (tenantPolicy normalization [ascii "tenant"])).2 = false := by
  decide +kernel

theorem render_tenantSnapshot :
    render (tenantSnapshot .none) = render (tenantSnapshot .lowercase) := by
  have hkeys : (tenantSnapshot .none).effectiveKeys = (tenantSnapshot .lowercase).effectiveKeys := by
    rw [tenantSnapshot, tenantSnapshot, compile_effectiveKeys (blocking_tenantPolicy _ (by simp)),
      compile_effectiveKeys (blocking_tenantPolicy _ (by simp))]
    exact congrArg (fun keys => (Finmap.keys keys).sort (· ≤ ·)) (by decide +kernel)
  have hlists : listValuedKeys (tenantSnapshot .none) =
      listValuedKeys (tenantSnapshot .lowercase) := by
    decide +kernel
  have hblocks : (tenantSnapshot .none).blocks = (tenantSnapshot .lowercase).blocks := by
    decide +kernel
  have hdomain : (tenantSnapshot .none).domain = (tenantSnapshot .lowercase).domain := by
    decide +kernel
  simp only [render, hkeys, hlists, hblocks, hdomain]

theorem decisions_eq_of_render_eq_acme :
    runs (decideOn lowering Memory.storeDecide (tenantSnapshot .none)) ∅
        [(0, tenantRequest (ascii "acme")), (1, tenantRequest (ascii "acme"))] =
      runs (decideOn lowering Memory.storeDecide (tenantSnapshot .lowercase)) ∅
        [(0, tenantRequest (ascii "acme")), (1, tenantRequest (ascii "acme"))] := by
  refine decisions_eq_of_render_eq lowering Memory.storeDecide (ascii "prod") (ascii "shop") _ _
    (blocking_tenantPolicy .none (by simp)) (blocking_tenantPolicy .lowercase (by simp))
    render_tenantSnapshot _ ?_ ∅
  have halike : ExtractsAlike lowering (tenantSnapshot .none) (tenantSnapshot .lowercase)
      (tenantRequest (ascii "acme")) := by
    unfold ExtractsAlike
    decide +kernel
  simp only [List.forall_mem_cons]
  exact ⟨halike, halike, by simp⟩

/-- Two snapshots that render alike count a tenant in mixed case under different
keys. -/
theorem decisions_ne_of_normalization :
    (∀ normalization ∈ [Model.Normalize.none, .lowercase],
      blocking (compileShop (tenantPolicy normalization [ascii "tenant"])).2 = false) ∧
    render (tenantSnapshot .none) = render (tenantSnapshot .lowercase) ∧
      (decideOn lowering Memory.storeDecide (tenantSnapshot .none) ∅
          (0, tenantRequest (ascii "Acme"))).1 ≠
        (decideOn lowering Memory.storeDecide (tenantSnapshot .lowercase) ∅
          (0, tenantRequest (ascii "Acme"))).1 := by
  refine ⟨blocking_tenantPolicy, render_tenantSnapshot, ?_⟩
  decide +kernel

end Sample

end Ratelimit.Ruleview
