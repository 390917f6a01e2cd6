import Ratelimit.Compile.Accepted
import Ratelimit.Engine.Decision
import Ratelimit.Store.MemorySpec

/-!
# The buckets of one decision

Every bucket counts against one window of one rule of the snapshot, and its key
names that window. So the keys of a decision are distinct, its costs are
positive, and the static worst case of the compiler bounds how many buckets a
request can collect.
-/
namespace Ratelimit.Engine

open Algo Store Match Compile Identity

section Origin

/-- The window of the snapshot that a bucket counts against. -/
structure CountedBy (scope : Key.Scope) (snap : Snapshot) (x : Bucket) (block : Block)
    (rule : Rule) (rate : Rate) (axes : List Text) : Prop where
  block_mem : block ∈ snap.blocks
  rule_mem : rule ∈ block.rules
  rate_mem : rate ∈ rule.rates
  checked : check rate.algorithm rate.window = .ok ()
  key_eq : x.key = Key.bucket
    (Key.ratePrefix ⟨scope, block.name, rule.name⟩ rate.algorithm rate.window) axes
  algorithm_eq : x.algorithm = rate.algorithm.id
  window_eq : x.window = rate.window
  shadow_eq : x.shadow = true ↔ rule.behavior = .shadow

variable {scope : Key.Scope} {snap snap' : Snapshot} {x y : Bucket} {b b' : Block} {r r' : Rule}
  {rate rate' : Rate} {axes axes' : List Text}

theorem CountedBy.checked_window (h : CountedBy scope snap x b r rate axes) :
    check rate.algorithm x.window = .ok () := by
  rw [h.window_eq]
  exact h.checked

theorem CountedBy.id_cases (h : CountedBy scope snap x b r rate axes) :
    x.algorithm = .gcraID ∨ x.algorithm = .fixedWindowID := by
  rw [h.algorithm_eq]
  cases rate.algorithm with
  | gcra => exact Or.inl rfl
  | fixedWindow => exact Or.inr rfl

theorem CountedBy.key_inj {scope' : Key.Scope} (h : CountedBy scope snap x b r rate axes)
    (h' : CountedBy scope' snap' y b' r' rate' axes') (hkey : x.key = y.key) :
    b.name = b'.name ∧ r.name = r'.name ∧ rate.algorithm = rate'.algorithm ∧
      rate.window.period = rate'.window.period ∧ axes = axes' := by
  rw [h.key_eq, h'.key_eq] at hkey
  obtain ⟨hident, halgorithm, hperiod, haxes⟩ := Key.bucket_injective
    (second_dvd_period h.checked) (second_dvd_period h'.checked) hkey
  exact ⟨congrArg Key.Ident.block hident, congrArg Key.Ident.rule hident, halgorithm, hperiod,
    haxes⟩

theorem CountedBy.rule_eq (hsnap : snap.Sound scope) (h : CountedBy scope snap x b r rate axes)
    (h' : CountedBy scope snap y b' r' rate' axes') (hkey : x.key = y.key) : b = b' ∧ r = r' := by
  obtain ⟨hblock, hrule, -⟩ := h.key_inj h' hkey
  obtain rfl : b = b' := List.inj_on_of_nodup_map hsnap.names_nodup h.block_mem h'.block_mem hblock
  exact ⟨rfl, List.inj_on_of_nodup_map (hsnap.blocks b h.block_mem).names_nodup h.rule_mem
    h'.rule_mem hrule⟩

end Origin

section Hits

variable {scope : Key.Scope} {snap : Snapshot} {path query method : Text} {keys : Keys} {cost : ℤ}

theorem hitOf_block {block : Block} {h : Hit} (hh : hitOf path query method block = some h) :
    h.block = block := by
  obtain ⟨m, -, rfl⟩ := Option.map_eq_some_iff.mp hh
  rfl

theorem hits_sublist (path query method : Text) (blocks : List Block) :
    ((blocks.filterMap (hitOf path query method)).map Hit.block).Sublist blocks := by
  induction blocks with
  | nil => exact List.Sublist.slnil
  | cons block blocks ih =>
    rw [List.filterMap_cons]
    cases hh : hitOf path query method block with
    | none => exact List.Sublist.cons _ ih
    | some h =>
      rw [List.map_cons, hitOf_block hh]
      exact List.Sublist.cons_cons _ ih

theorem bucketsOf_evaluate (c : Candidates) :
    bucketsOf (c.evaluate keys cost) =
      c.hits.flatMap fun h =>
        (appliedRules h.block (h.ctx c.method keys cost)).flatMap fun r =>
          r.rates.map (bucketOf (h.ctx c.method keys cost) r) := by
  unfold bucketsOf Candidates.evaluate
  rw [List.flatMap_assoc]
  congr 1
  funext h
  rw [evalBlock_eq, List.flatMap_map]
  rfl

theorem countedBy_bucketOf (hsnap : snap.Sound scope) {block : Block} (hblock : block ∈ snap.blocks)
    {ctx : BlockCtx} {rule : Rule} (hrule : rule ∈ block.rules) {rate : Rate}
    (hrate : rate ∈ rule.rates) :
    CountedBy scope snap (bucketOf ctx rule rate) block rule rate (axesOf ctx rule) where
  block_mem := hblock
  rule_mem := hrule
  rate_mem := hrate
  checked := (((hsnap.blocks block hblock).rules rule hrule).rates rate hrate).checked
  key_eq := by
    rw [← (((hsnap.blocks block hblock).rules rule hrule).rates rate hrate).keyPrefix_eq]
    rfl
  algorithm_eq := rfl
  window_eq := rfl
  shadow_eq := by simp [bucketOf]

theorem hit_block_mem {h : Hit} (hh : h ∈ (candidates snap path method).hits) :
    h.block ∈ snap.blocks := by
  apply (hits_sublist _ _ _ snap.blocks).subset
  exact List.mem_map_of_mem hh

theorem exists_countedBy (hsnap : snap.Sound scope) {x : Bucket}
    (hx : x ∈ bucketsOf ((candidates snap path method).evaluate keys cost)) :
    ∃ block rule rate axes, CountedBy scope snap x block rule rate axes := by
  rw [bucketsOf_evaluate] at hx
  obtain ⟨h, hh, hx⟩ := List.mem_flatMap.mp hx
  obtain ⟨rule, hrule, hx⟩ := List.mem_flatMap.mp hx
  obtain ⟨rate, hrate, rfl⟩ := List.mem_map.mp hx
  exact ⟨h.block, rule, rate, _, countedBy_bucketOf hsnap (hit_block_mem hh)
    ((appliedRules_sublist _ _).subset hrule) hrate⟩

/-- Keys differ between blocks, rules and windows. -/
theorem buckets_nodup (hsnap : snap.Sound scope) :
    ((bucketsOf ((candidates snap path method).evaluate keys cost)).map Bucket.key).Nodup := by
  rw [bucketsOf_evaluate, List.Nodup, List.pairwise_map, List.pairwise_flatMap]
  constructor
  · intro h hh
    have hblock := hit_block_mem hh
    rw [List.pairwise_flatMap]
    constructor
    · intro rule hrule
      have hmem := (appliedRules_sublist _ _).subset hrule
      have hperiods := ((hsnap.blocks _ hblock).rules rule hmem).periods_nodup
      rw [List.Nodup, List.pairwise_map] at hperiods
      rw [List.pairwise_map]
      apply hperiods.imp_of_mem
      intro rate rate' hrate hrate' hne hkey
      exact hne ((countedBy_bucketOf hsnap hblock hmem hrate).key_inj
        (countedBy_bucketOf hsnap hblock hmem hrate') hkey).2.2.2.1
    · have hnames := (hsnap.blocks _ hblock).names_nodup
      have happlied := (appliedRules_sublist h.block
        (h.ctx (candidates snap path method).method keys cost))
      have hnodup := hnames.sublist (happlied.map Rule.name)
      rw [List.Nodup, List.pairwise_map] at hnodup
      apply hnodup.imp_of_mem
      intro rule rule' hrule hrule' hne x hx y hy hkey
      obtain ⟨rate, hrate, rfl⟩ := List.mem_map.mp hx
      obtain ⟨rate', hrate', rfl⟩ := List.mem_map.mp hy
      exact hne ((countedBy_bucketOf hsnap hblock (happlied.subset hrule) hrate).key_inj
        (countedBy_bucketOf hsnap hblock (happlied.subset hrule') hrate') hkey).2.1
  · have hhits := hsnap.names_nodup.sublist
      ((hits_sublist (Strings.cut path (byte '?')).1 (Strings.cut path (byte '?')).2 method
        snap.blocks).map Block.name)
    rw [List.Nodup, List.map_map, List.pairwise_map] at hhits
    apply hhits.imp_of_mem
    intro h h' hh hh' hne x hx y hy hkey
    obtain ⟨rule, hrule, hx⟩ := List.mem_flatMap.mp hx
    obtain ⟨rate, hrate, rfl⟩ := List.mem_map.mp hx
    obtain ⟨rule', hrule', hy⟩ := List.mem_flatMap.mp hy
    obtain ⟨rate', hrate', rfl⟩ := List.mem_map.mp hy
    exact hne ((countedBy_bucketOf hsnap (hit_block_mem hh)
      ((appliedRules_sublist _ _).subset hrule) hrate).key_inj
      (countedBy_bucketOf hsnap (hit_block_mem hh')
        ((appliedRules_sublist _ _).subset hrule') hrate') hkey).1

end Hits

section Costs

variable {scope : Key.Scope} {snap : Snapshot} {path query method : Text} {keys : Keys} {cost : ℤ}

theorem hitCost_cases {route : Route} (hcost : ∀ c ∈ route.cost, c.Sound) (query : Text) :
    hitCost (some route) query = 0 ∨
      1 ≤ hitCost (some route) query ∧ hitCost (some route) query ≤ Model.maxCost := by
  cases hread : route.cost with
  | none =>
    left
    simp [hitCost, hread]
  | some c =>
    right
    have hc := hcost c hread
    simpa [hitCost, hread] using
      queryCost_bounds hc.parameter_ne hc.one_le_default hc.default_le query

theorem hit_cost_cases (hsnap : snap.Sound scope) {h : Hit}
    (hh : h ∈ (candidates snap path method).hits) :
    h.cost = 0 ∨ 1 ≤ h.cost ∧ h.cost ≤ Model.maxCost := by
  obtain ⟨block, hblock, hhit⟩ := List.mem_filterMap.mp hh
  obtain ⟨m, hm, rfl⟩ := Option.map_eq_some_iff.mp hhit
  unfold matchTarget at hm
  split_ifs at hm with hroutes
  · obtain rfl := Option.some.inj hm
    exact Or.inl rfl
  · obtain ⟨matched, hmatched, rfl⟩ := Option.map_eq_some_iff.mp hm
    exact hitCost_cases
      ((hsnap.blocks block hblock).costs matched.1 (matchRoutes_some hmatched).1) _

theorem one_le_bucket_cost (hsnap : snap.Sound scope) (hcost : 1 ≤ cost) {x : Bucket}
    (hx : x ∈ bucketsOf ((candidates snap path method).evaluate keys cost)) :
    1 ≤ x.cost := by
  rw [bucketsOf_evaluate] at hx
  obtain ⟨h, hh, hx⟩ := List.mem_flatMap.mp hx
  obtain ⟨rule, -, hx⟩ := List.mem_flatMap.mp hx
  obtain ⟨rate, -, rfl⟩ := List.mem_map.mp hx
  change 1 ≤ if h.cost = 0 then cost else h.cost
  split_ifs with hzero
  · exact hcost
  · exact ((hit_cost_cases hsnap hh).resolve_left hzero).1

theorem guardBuckets_evaluate (hsnap : snap.Sound scope) (hcost : 1 ≤ cost) :
    guardBuckets (bucketsOf ((candidates snap path method).evaluate keys cost)) = .ok () := by
  rw [guardBuckets_ok_iff]
  refine ⟨?_, buckets_nodup hsnap⟩
  intro x hx
  obtain ⟨block, rule, rate, axes, hx'⟩ := exists_countedBy hsnap hx
  exact guarded_of_check (one_le_bucket_cost hsnap hcost hx) hx'.checked_window

theorem registered_evaluate (hsnap : snap.Sound scope) :
    Memory.Registered (bucketsOf ((candidates snap path method).evaluate keys cost)) := by
  intro x hx
  obtain ⟨block, rule, rate, axes, hx'⟩ := exists_countedBy hsnap hx
  exact ⟨rate.algorithm, hx'.algorithm_eq⟩

/-- Counter keys are injective, so the buckets of one decision have distinct
keys and positive costs, and the guard of the store never refuses them. -/
theorem counterKeys_injective :
    (∀ (id id' : Key.Ident) (a a' : Algorithm) (w w' : Window) (axes axes' : List Text),
      second ∣ w.period → second ∣ w'.period →
      Key.bucket (Key.ratePrefix id a w) axes = Key.bucket (Key.ratePrefix id' a' w') axes' →
        id.scope.namespaceName = id'.scope.namespaceName ∧ id.scope.domain = id'.scope.domain ∧
          id.block = id'.block ∧ id.rule = id'.rule ∧ a = a' ∧ w.period = w'.period ∧
          axes = axes') ∧
    ∀ (namespaceName domain : Text) (p : Option Model.Policy) (path method : Text) (keys : Keys)
      (cost : ℤ), 1 ≤ cost →
      let buckets := bucketsOf
        ((candidates (compile namespaceName domain p).1 path method).evaluate keys cost)
      (buckets.map Bucket.key).Nodup ∧ (∀ x ∈ buckets, 1 ≤ x.cost) ∧
        guardBuckets buckets = .ok () := by
  constructor
  · intro id id' a a' w w' axes axes' hw hw' hkey
    obtain ⟨rfl, ha, hperiod, haxes⟩ := Key.bucket_injective hw hw' hkey
    exact ⟨rfl, rfl, rfl, rfl, ha, hperiod, haxes⟩
  · intro namespaceName domain p path method keys cost hcost
    obtain ⟨scope, hsnap⟩ := compile_sound namespaceName domain p
    exact ⟨buckets_nodup hsnap, fun x hx => one_le_bucket_cost hsnap hcost hx,
      guardBuckets_evaluate hsnap hcost⟩

def shopIdent : Key.Ident :=
  ⟨⟨ascii "prod", ascii "shop", by decide, by decide⟩, ascii "orders", ascii "a:b"⟩

theorem counterKeys_injective_shop :
    (Key.bucket (Key.ratePrefix shopIdent .gcra ⟨10, 60 * second, 10⟩) [ascii "x:y"] =
        Key.bucket (Key.ratePrefix shopIdent .gcra ⟨20, 60 * second, 5⟩) [ascii "x:y"] ∧
      (⟨10, 60 * second, 10⟩ : Window).period = (⟨20, 60 * second, 5⟩ : Window).period) ∧
    (bucketsOf ((candidates (compileShop shopPolicy).1
      (ascii "/orders/7?units=3") (ascii "GET")).evaluate
        (Finmap.singleton (ascii "tenant") [ascii "globex"]) 1)).length = 4 ∧
    guardBuckets (bucketsOf
      ((candidates (compileShop shopPolicy).1 (ascii "/orders/7?units=3") (ascii "GET")).evaluate
          (Finmap.singleton (ascii "tenant") [ascii "globex"]) 1)) = .ok () := by
  -- a tuned limit keeps its key, so the windows may differ where the keys agree
  have hkey : Key.bucket (Key.ratePrefix shopIdent .gcra ⟨10, 60 * second, 10⟩) [ascii "x:y"] =
      Key.bucket (Key.ratePrefix shopIdent .gcra ⟨20, 60 * second, 5⟩) [ascii "x:y"] := rfl
  obtain ⟨-, -, -, -, -, hperiod, -⟩ :=
    counterKeys_injective.1 _ _ _ _ _ _ _ _ (by decide) (by decide) hkey
  exact ⟨⟨hkey, hperiod⟩, by decide +kernel, (counterKeys_injective.2 _ _ _ _ _ _ _ le_rfl).2.2⟩

end Costs

section Budget

def width (rules : List Rule) : ℕ := (rules.map fun r => r.rates.length).sum

theorem width_sublist {rules rules' : List Rule} (h : rules.Sublist rules') :
    width rules ≤ width rules' := (h.map _).sum_le_sum (by simp)

theorem countRule_le (mode : Model.Mode) (counts : ℕ × ℕ) (rules : List Rule) :
    counts.1 ≤ (rules.foldl (countRule mode) counts).1 ∧
      counts.2 ≤ (rules.foldl (countRule mode) counts).2 := by
  induction rules generalizing counts with
  | nil => exact ⟨le_rfl, le_rfl⟩
  | cons r rules ih =>
    obtain ⟨h₁, h₂⟩ := ih (countRule mode counts r)
    rw [List.foldl_cons]
    unfold countRule at h₁ h₂ ⊢
    split_ifs at h₁ h₂ ⊢ with h
    · exact ⟨by omega, h₂⟩
    · exact ⟨h₁, by omega⟩

theorem countRule_all {mode : Model.Mode} (hmode : mode ≠ .firstMatch) (counts : ℕ × ℕ)
    (rules : List Rule) :
    rules.foldl (countRule mode) counts = (counts.1 + width rules, counts.2) := by
  induction rules generalizing counts with
  | nil => simp [width]
  | cons r rules ih =>
    rw [List.foldl_cons, countRule, if_pos (Or.inl hmode), ih]
    simp [width, Nat.add_assoc]

theorem length_bucketsOf_map (block : Block) (ctx : BlockCtx) (rules : List Rule) :
    (bucketsOf (rules.map (matchedRule block ctx))).length = width rules := by
  unfold bucketsOf width
  rw [List.flatMap_map, List.length_flatMap]
  simp [matchedRule]

theorem length_evalFirstMatch_le (block : Block) (ctx : BlockCtx) (rules : List Rule)
    (counts : ℕ × ℕ) :
    (bucketsOf (evalFirstMatch block ctx rules)).length + counts.1 ≤
      (rules.foldl (countRule .firstMatch) counts).1 +
        (rules.foldl (countRule .firstMatch) counts).2 := by
  induction rules generalizing counts with
  | nil =>
    simp [evalFirstMatch, bucketsOf]
  | cons r rest ih =>
    obtain ⟨hfirst, hsecond⟩ := countRule_le .firstMatch (countRule .firstMatch counts r) rest
    have hih := ih (countRule .firstMatch counts r)
    rw [List.foldl_cons, evalFirstMatch]
    by_cases hshadow : r.behavior = .shadow
    · have hcount : countRule .firstMatch counts r = (counts.1 + r.rates.length, counts.2) := by
        simp [countRule, hshadow]
      rw [hcount] at hih hfirst ⊢
      split_ifs with hmatch hbypass hend
      · omega
      · simp only [bucketsOf, List.flatMap_nil, List.length_nil]
        omega
      · exact absurd hshadow hend
      · have hcons : (bucketsOf (matchedRule block ctx r :: evalFirstMatch block ctx rest)).length =
            r.rates.length + (bucketsOf (evalFirstMatch block ctx rest)).length := by
          simp [bucketsOf, matchedRule]
        omega
    · have hcount : countRule .firstMatch counts r = (counts.1, max counts.2 r.rates.length) := by
        simp [countRule, hshadow]
      rw [hcount] at hih hfirst hsecond ⊢
      split_ifs with hmatch hbypass
      · omega
      · simp only [bucketsOf, List.flatMap_nil, List.length_nil]
        omega
      · have hone : (bucketsOf [matchedRule block ctx r]).length = r.rates.length := by
          simp [bucketsOf, matchedRule]
        omega

theorem length_evalBlock_le (block : Block) (ctx : BlockCtx) :
    (bucketsOf (evalBlock block ctx)).length ≤ blockDecisionBuckets block := by
  unfold blockDecisionBuckets
  by_cases hmode : block.mode = .firstMatch
  · have hcascade := length_evalFirstMatch_le block ctx block.rules (0, 0)
    rw [evalBlock, if_pos hmode, hmode]
    exact hcascade
  · rw [evalBlock_eq, length_bucketsOf_map, countRule_all hmode]
    have hwidth := width_sublist (appliedRules_sublist block ctx)
    simpa using hwidth

theorem length_buckets_le (snap : Snapshot) (path method : Text) (keys : Keys) (cost : ℤ) :
    (bucketsOf ((candidates snap path method).evaluate keys cost)).length ≤
      decisionBuckets snap.blocks := by
  have hhits : ∀ hits : List Hit,
      (bucketsOf ((Candidates.mk method hits).evaluate keys cost)).length ≤
        decisionBuckets (hits.map Hit.block) := by
    intro hits
    induction hits with
    | nil => exact Nat.zero_le _
    | cons h hits ih =>
      have hblock := length_evalBlock_le h.block (h.ctx method keys cost)
      simp only [Candidates.evaluate, bucketsOf, decisionBuckets, List.flatMap_cons,
        List.flatMap_append, List.length_append, List.map_cons, List.sum_cons] at ih hblock ⊢
      omega
  have hsublist := hits_sublist (Strings.cut path (byte '?')).1 (Strings.cut path (byte '?')).2
    method snap.blocks
  exact (hhits _).trans ((hsublist.map _).sum_le_sum (by simp))

variable {S : Type} {codec : Codec} {snap : Snapshot} {judge : S → List Bucket → S × Answer} {s : S}
  {req : Request}

/-- The values the rules of a request read, and the anomalies on the way to them. -/
abbrev Request.extracted (codec : Codec) (snap : Snapshot) (req : Request) : Keys × List Skip :=
  extractKeys codec snap.extraction req.token req.keys

def requestRules (codec : Codec) (snap : Snapshot) (req : Request) : List MatchedRule :=
  (candidates snap req.path req.method).evaluate
    (extractKeys codec snap.extraction req.token req.keys).1 req.ownCost

def requestBuckets (codec : Codec) (snap : Snapshot) (req : Request) : List Bucket :=
  bucketsOf (requestRules codec snap req)

theorem requestBuckets_of_empty (h : (candidates snap req.path req.method).empty = true) :
    requestBuckets codec snap req = [] := by
  have hhits : (candidates snap req.path req.method).hits = [] := List.isEmpty_iff.mp h
  simp [requestBuckets, requestRules, Candidates.evaluate, hhits, bucketsOf]

theorem evaluate_of_unmatched (hempty : ¬(candidates snap req.path req.method).empty = true)
    (h : requestBuckets codec snap req = []) :
    evaluate codec snap judge s req =
      (s, .ok (untouched true (req.extracted codec snap).2
        (keyNames snap (req.extracted codec snap).1))) := by
  unfold evaluate
  rw [if_neg hempty]
  exact if_pos h

theorem evaluate_of_nil (h : requestBuckets codec snap req = []) :
    ∃ targeted skips names, ∀ (judge : S → List Bucket → S × Answer) (s : S),
      evaluate codec snap judge s req = (s, .ok (untouched targeted skips names)) := by
  by_cases hempty : (candidates snap req.path req.method).empty = true
  · refine ⟨false, [], [], fun judge s => ?_⟩
    unfold evaluate
    rw [if_pos hempty]
  · exact ⟨true, _, _, fun judge s => evaluate_of_unmatched hempty h⟩

theorem evaluate_of_ne_nil (h : requestBuckets codec snap req ≠ []) :
    evaluate codec snap judge s req =
      if maxDecisionBuckets < (requestBuckets codec snap req).length then
        (s, .error (.tooManyBuckets (requestBuckets codec snap req).length))
      else
        match judge s (requestBuckets codec snap req) with
        | (s, .error e) => (s, .error (.store e))
        | (s, .ok verdicts) =>
          (s, .ok (decisionOf snap (requestRules codec snap req) verdicts
            (req.extracted codec snap).1 (req.extracted codec snap).2)) := by
  have hempty : ¬(candidates snap req.path req.method).empty = true :=
    fun hempty => h (requestBuckets_of_empty hempty)
  unfold evaluate
  rw [if_neg hempty]
  exact if_neg h

theorem evaluate_fst (codec : Codec) (snap : Snapshot) (judge : S → List Bucket → S × Answer)
    (s : S) (req : Request) :
    (evaluate codec snap judge s req).1 = s ∨
      (evaluate codec snap judge s req).1 = (judge s (requestBuckets codec snap req)).1 := by
  by_cases hnil : requestBuckets codec snap req = []
  · obtain ⟨targeted, skips, names, heq⟩ := @evaluate_of_nil S _ _ _ hnil
    exact Or.inl (by rw [heq])
  · rw [evaluate_of_ne_nil hnil]
    split_ifs
    · exact Or.inl rfl
    · right
      cases judge s (requestBuckets codec snap req) with
      | mk s' answer => cases answer <;> rfl

theorem evaluate_ne_tooManyBuckets {n : ℕ}
    (hlen : (requestBuckets codec snap req).length ≤ maxDecisionBuckets) :
    (evaluate codec snap judge s req).2 ≠ .error (.tooManyBuckets n) := by
  by_cases hnil : requestBuckets codec snap req = []
  · obtain ⟨targeted, skips, names, heq⟩ := @evaluate_of_nil S _ _ _ hnil
    simp [heq]
  · rw [evaluate_of_ne_nil hnil, if_neg (not_lt.mpr hlen)]
    cases hjudge : judge s (requestBuckets codec snap req) with
    | mk s' answer => cases answer <;> simp

theorem length_requestBuckets_le (namespaceName domain : Text) (p : Option Model.Policy)
    (codec : Codec) (req : Request) :
    (requestBuckets codec (compile namespaceName domain p).1 req).length ≤ maxDecisionBuckets := by
  obtain ⟨hrecorded, hbudget⟩ := compile_decisionBuckets namespaceName domain p
  rw [hrecorded] at hbudget
  exact (length_buckets_le _ _ _ _ _).trans hbudget

/-- The static budget is sound: no request on a compiled snapshot collects more buckets than recorded,
so whatever judges the buckets, `Decide` or `Peek` of any store, no request is refused for its
width. -/
theorem decisionBuckets_sound (namespaceName domain : Text) (p : Option Model.Policy) :
    (∀ (path method : Text) (keys : Keys) (cost : ℤ),
      (bucketsOf ((candidates (compile namespaceName domain p).1 path method).evaluate keys
        cost)).length ≤ (compile namespaceName domain p).1.decisionBuckets) ∧
    (compile namespaceName domain p).1.decisionBuckets ≤ Model.maxDomainDecisionBuckets ∧
    ∀ (S : Type) (codec : Codec) (judge : S → List Bucket → S × Answer) (s : S) (req : Request) (n : ℕ),
      (evaluate codec (compile namespaceName domain p).1 judge s req).2 ≠
        .error (.tooManyBuckets n) := by
  obtain ⟨hrecorded, hbudget⟩ := compile_decisionBuckets namespaceName domain p
  refine ⟨?_, hbudget, ?_⟩
  · intro path method keys cost
    rw [hrecorded]
    exact length_buckets_le _ _ _ _ _
  · intro S codec judge s req n
    exact evaluate_ne_tooManyBuckets (length_requestBuckets_le namespaceName domain p codec req)

end Budget

def globexRequest : Request :=
  { path := ascii "/orders/7?units=3", method := ascii "GET", token := []
    keys := Finmap.singleton (ascii "tenant") [ascii "globex"], cost := 0 }

/-- The counters after one request of the tenant. -/
def globexStore : Memory.Entries :=
  (decideRequest .inert (compileShop shopPolicy).1 0 ∅
    globexRequest).1

end Ratelimit.Engine
