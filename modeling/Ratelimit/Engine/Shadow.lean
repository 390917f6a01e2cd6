import Ratelimit.Engine.Aggregate

/-!
# Shadow rules do not interfere

Removing every shadow rule removes exactly the shadow rules from what a request counts
against. The store and the headers do not look at shadow buckets. So two runs that differ in
the shadow rules alone agree on all that a caller sees and on every other counter.
-/
namespace Ratelimit.Engine

open Algo Store Match Compile Identity Library Memory

def dropShadow (block : Block) : Block :=
  { block with rules := block.rules.filter fun r => r.behavior ≠ .shadow }

def withoutShadow (snap : Snapshot) : Snapshot :=
  { snap with blocks := snap.blocks.map dropShadow }

section Matching

variable {snap : Snapshot} {block : Block} {ctx : BlockCtx} {path query method : Text}
  {keys : Keys} {cost : ℤ}

theorem evalFirstMatch_dropShadow (rules : List Rule) :
    evalFirstMatch (dropShadow block) ctx (rules.filter fun r => r.behavior ≠ .shadow) =
      (evalFirstMatch block ctx rules).filter fun m => !m.shadow := by
  induction rules with
  | nil => rfl
  | cons r rules ih =>
    have hname : matchedRule (dropShadow block) ctx r = matchedRule block ctx r := rfl
    by_cases hshadow : r.behavior = .shadow
    · rw [List.filter_cons_of_neg (by simp [hshadow]), ih]
      by_cases hmatch : ruleMatches ctx r = false
      · simp [evalFirstMatch, hmatch]
      · simp [evalFirstMatch, hmatch, hshadow, matchedRule]
    · rw [List.filter_cons_of_pos (by simp [hshadow])]
      by_cases hmatch : ruleMatches ctx r = false
      · simp only [evalFirstMatch, hmatch, if_true, ih]
      · by_cases hbypass : r.behavior = .bypass
        · simp [evalFirstMatch, hmatch, hbypass]
        · simp [evalFirstMatch, hmatch, hbypass, hshadow, matchedRule, dropShadow]

theorem matching_filter (p : Rule → Bool) (rules : List Rule) :
    matching ctx (rules.filter p) = (matching ctx rules).filter p := by
  unfold matching
  rw [List.filter_filter, List.filter_filter]
  exact List.filter_congr fun r _ => Bool.and_comm _ _

theorem suppressedBy_dropShadow (rules : List Rule) :
    suppressedBy ctx (rules.filter fun r => r.behavior ≠ .shadow) = suppressedBy ctx rules := by
  unfold suppressedBy
  rw [matching_filter, List.filter_filter]
  congr 1
  exact List.filter_congr fun r _ => Bool.and_self _

theorem evalAll_dropShadow :
    Match.evalAll (dropShadow block) ctx =
      (Match.evalAll block ctx).filter fun m => !m.shadow := by
  have hrules : (dropShadow block).rules = block.rules.filter fun r => r.behavior ≠ .shadow := rfl
  have hname : matchedRule (dropShadow block) ctx = matchedRule block ctx := rfl
  rw [evalAll_eq, evalAll_eq, hrules, hname, suppressedBy_dropShadow, matching_filter,
    List.filter_map, List.filter_filter, List.filter_filter]
  congr 1
  apply List.filter_congr
  intro r _
  simp only [Function.comp_apply, matchedRule, Bool.and_comm, ne_eq, decide_not]

theorem evalBlock_dropShadow :
    evalBlock (dropShadow block) ctx = (evalBlock block ctx).filter fun m => !m.shadow := by
  unfold evalBlock
  have hmode : (dropShadow block).mode = block.mode := rfl
  rw [hmode]
  split_ifs
  · exact evalFirstMatch_dropShadow block.rules
  · exact evalAll_dropShadow

theorem hitOf_dropShadow :
    hitOf path query method (dropShadow block) =
      (hitOf path query method block).map fun h => { h with block := dropShadow h.block } := by
  unfold hitOf
  rw [Option.map_map]
  rfl

theorem evaluate_withoutShadow :
    (candidates (withoutShadow snap) path method).evaluate keys cost =
      ((candidates snap path method).evaluate keys cost).filter fun m => !m.shadow := by
  unfold candidates Candidates.evaluate withoutShadow
  dsimp only
  rw [List.filter_flatMap]
  induction snap.blocks with
  | nil => rfl
  | cons block blocks ih =>
    rw [List.map_cons, List.filterMap_cons, List.filterMap_cons, hitOf_dropShadow]
    cases hitOf (Strings.cut path (byte '?')).1 (Strings.cut path (byte '?')).2 method block with
    | none => exact ih
    | some h =>
      rw [Option.map_some, List.flatMap_cons, List.flatMap_cons, ih]
      exact congrArg (· ++ _) evalBlock_dropShadow

theorem requestRules_withoutShadow (codec : Codec) (req : Request) :
    requestRules codec (withoutShadow snap) req =
      (requestRules codec snap req).filter fun m => !m.shadow := evaluate_withoutShadow

theorem bucket_shadow_eq {codec : Codec} {req : Request} {r : MatchedRule}
    (hr : r ∈ requestRules codec snap req) {b : Bucket} (hb : b ∈ r.buckets) :
    b.shadow = r.shadow := by
  obtain ⟨h, -, hr⟩ := List.mem_flatMap.mp hr
  rw [evalBlock_eq] at hr
  obtain ⟨rule, -, rfl⟩ := List.mem_map.mp hr
  obtain ⟨rate, -, rfl⟩ := List.mem_map.mp hb
  rfl

end Matching

section Responses

variable {rules : List MatchedRule} {now : ℕ} {m m' : Entries} {verdict verdict' : Bucket → Verdict}

theorem admits_filter (bs : List Bucket)
    (hsame : ∀ b ∈ bs, b.shadow = false → m.lookup b.key = m'.lookup b.key) :
    admits now m' (bs.filter fun b => !b.shadow) = admits now m bs := by
  unfold admits
  rw [List.all_filter, Bool.eq_iff_iff, List.all_eq_true, List.all_eq_true]
  refine forall₂_congr fun b hb => ?_
  cases hshadow : b.shadow with
  | true => simp
  | false => simp [outcome_congr (hsame b hb hshadow)]

variable (hshadow : ∀ r ∈ rules, ∀ b ∈ r.buckets, b.shadow = r.shadow)
include hshadow

theorem owned_filter :
    owned (rules.filter fun r => !r.shadow) = (owned rules).filter fun p => !p.2.shadow := by
  induction rules with
  | nil => rfl
  | cons r rules ih =>
    obtain ⟨hr, hrules⟩ := List.forall_mem_cons.mp hshadow
    rw [owned_cons, List.filter_append, ← ih hrules]
    by_cases h : r.shadow = true
    · have hnone : (r.buckets.map fun b => (r, b)).filter (fun p => !p.2.shadow) = [] := by
        rw [List.filter_map, List.filter_eq_nil_iff.mpr, List.map_nil]
        intro b hb
        simp [hr b hb, h]
      rw [hnone, List.filter_cons_of_neg (by simp [h]), List.nil_append]
    · have hall : (r.buckets.map fun b => (r, b)).filter (fun p => !p.2.shadow) =
          r.buckets.map fun b => (r, b) := by
        apply List.filter_eq_self.mpr
        intro p hp
        obtain ⟨b, hb, rfl⟩ := List.mem_map.mp hp
        simp [hr b hb, h]
      rw [hall, List.filter_cons_of_pos (by simp [h]), owned_cons]

theorem bucketsOf_filter :
    bucketsOf (rules.filter fun r => !r.shadow) = (bucketsOf rules).filter fun b => !b.shadow := by
  rw [← map_snd_owned, ← map_snd_owned, owned_filter hshadow, List.filter_map]
  rfl

theorem contenders_filter (allowed : Bool)
    (hsame : ∀ b ∈ bucketsOf rules, b.shadow = false → verdict' b = verdict b) :
    contenders (rules.filter fun r => !r.shadow) verdict' allowed =
      contenders rules verdict allowed := by
  unfold contenders
  rw [owned_filter hshadow, List.filter_map, List.filter_map, List.filter_filter]
  have hmem : ∀ p ∈ owned rules, p.2.shadow = false → verdict' p.2 = verdict p.2 := by
    intro p hp
    apply hsame
    rw [← map_snd_owned]
    exact List.mem_map_of_mem hp
  -- what the loop passes over includes every shadow bucket
  have hkept : (owned rules).filter (fun p =>
      ((fun x : MatchedRule × Judged => !passesOver allowed true x.2) ∘
        fun p => (p.1, p.2, verdict' p.2)) p && !p.2.shadow) =
      (owned rules).filter ((fun x : MatchedRule × Judged => !passesOver allowed true x.2) ∘
        fun p => (p.1, p.2, verdict p.2)) := by
    apply List.filter_congr
    intro p hp
    cases hps : p.2.shadow with
    | true => simp [passesOver, hps]
    | false => simp [passesOver, hps, hmem p hp hps]
  rw [hkept]
  apply List.map_congr_left
  intro p hp
  obtain ⟨hp, hpass⟩ := List.mem_filter.mp hp
  cases hps : p.2.shadow with
  | true => simp [passesOver, hps] at hpass
  | false => rw [hmem p hp hps]

theorem incurable_filter (allowed : Bool)
    (hsame : ∀ b ∈ bucketsOf rules, b.shadow = false → verdict' b = verdict b) :
    incurable (rules.filter fun r => !r.shadow) verdict' allowed =
      incurable rules verdict allowed := by
  unfold incurable
  rw [bucketsOf_filter hshadow, List.any_filter]
  congr 1
  rw [Bool.eq_iff_iff, List.any_eq_true, List.any_eq_true]
  refine exists_congr fun b => and_congr_right fun hb => ?_
  cases hbs : b.shadow with
  | true => simp
  | false => simp [hsame b hb hbs]

theorem respond_filter
    (hsame : ∀ b ∈ bucketsOf rules, b.shadow = false → m.lookup b.key = m'.lookup b.key) :
    respond now m' (rules.filter fun r => !r.shadow) = respond now m rules := by
  have hadmits : admits now m' (bucketsOf (rules.filter fun r => !r.shadow)) =
      admits now m (bucketsOf rules) := by
    rw [bucketsOf_filter hshadow]
    exact admits_filter _ hsame
  have hverdict : ∀ b ∈ bucketsOf rules, b.shadow = false →
      verdictOf now m' (bucketsOf (rules.filter fun r => !r.shadow)) b =
        verdictOf now m (bucketsOf rules) b := by
    intro b hb hbs
    rw [verdictOf, verdictOf, hadmits, outcome_congr (hsame b hb hbs)]
  unfold respond
  dsimp only
  rw [aggregate_eq, aggregate_eq, hadmits, contenders_filter hshadow _ hverdict,
    incurable_filter hshadow _ hverdict]

end Responses

section Run

variable {snap : Snapshot} {scope : Key.Scope} {codec : Codec} {now : ℕ} {m m' : Entries}
  {req : Request}

def CounterOf (rule : Rule) (k : Text) : Prop :=
  ∃ rate ∈ rule.rates, ∃ axes, k = Key.bucket rate.keyPrefix axes

def ShadowCounter (snap : Snapshot) (k : Text) : Prop :=
  ∃ block ∈ snap.blocks, ∃ rule ∈ block.rules, rule.behavior = .shadow ∧ CounterOf rule k

theorem CountedBy.counterOf {x : Bucket} {block : Block} {rule : Rule} {rate : Rate}
    {axes : List Text} (hsnap : snap.Sound scope)
    (h : CountedBy scope snap x block rule rate axes) : CounterOf rule x.key := by
  have hrate := ((hsnap.blocks block h.block_mem).rules rule h.rule_mem).rates rate h.rate_mem
  refine ⟨rate, h.rate_mem, axes, ?_⟩
  rw [hrate.keyPrefix_eq]
  exact h.key_eq

theorem CounterOf.countedBy (hsnap : snap.Sound scope) {block : Block} {rule : Rule} {k : Text}
    (hblock : block ∈ snap.blocks) (hrule : rule ∈ block.rules) (h : CounterOf rule k) :
    ∃ x rate axes, CountedBy scope snap x block rule rate axes ∧ x.key = k := by
  obtain ⟨rate, hrate, axes, rfl⟩ := h
  have hsound := ((hsnap.blocks block hblock).rules rule hrule).rates rate hrate
  refine ⟨⟨Key.bucket rate.keyPrefix axes, rate.algorithm.id, rate.window,
    rule.behavior = .shadow, 1⟩, rate, axes, ?_, rfl⟩
  refine ⟨hblock, hrule, hrate, hsound.checked, ?_, rfl, rfl, by simp⟩
  rw [hsound.keyPrefix_eq]

/-- The counters of the other rules are no counters of a shadow rule. -/
theorem not_shadowCounter (hsnap : snap.Sound scope) {block : Block} {rule : Rule} {k : Text}
    (hblock : block ∈ snap.blocks) (hrule : rule ∈ block.rules) (hne : rule.behavior ≠ .shadow)
    (hk : CounterOf rule k) : ¬ShadowCounter snap k := by
  rintro ⟨block', hblock', rule', hrule', hshadow, hk'⟩
  obtain ⟨x, rate, axes, hx, hxk⟩ := hk.countedBy hsnap hblock hrule
  obtain ⟨y, rate', axes', hy, hyk⟩ := hk'.countedBy hsnap hblock' hrule'
  obtain ⟨-, rfl⟩ := hx.rule_eq hsnap hy (hxk.trans hyk.symm)
  exact hne hshadow

theorem shadowCounter_iff (hsnap : snap.Sound scope) {b : Bucket}
    (hb : b ∈ requestBuckets codec snap req) : ShadowCounter snap b.key ↔ b.shadow = true := by
  obtain ⟨block, rule, rate, axes, hcounted⟩ := exists_countedBy hsnap hb
  constructor
  · intro hk
    by_contra hshadow
    refine not_shadowCounter hsnap hcounted.block_mem hcounted.rule_mem ?_
      (hcounted.counterOf hsnap) hk
    exact fun h => hshadow (hcounted.shadow_eq.mpr h)
  · intro hshadow
    exact ⟨block, hcounted.block_mem, rule, hcounted.rule_mem, hcounted.shadow_eq.mp hshadow,
      hcounted.counterOf hsnap⟩

theorem requestBuckets_withoutShadow :
    requestBuckets codec (withoutShadow snap) req =
      (requestBuckets codec snap req).filter fun b => !b.shadow := by
  unfold requestBuckets
  rw [requestRules_withoutShadow]
  exact bucketsOf_filter fun r hr b hb => bucket_shadow_eq hr hb

theorem Answerable.withoutShadow (h : Answerable codec snap req) :
    Answerable codec (withoutShadow snap) req := by
  have hbuckets : requestBuckets codec (Engine.withoutShadow snap) req =
      (requestBuckets codec snap req).filter fun b => !b.shadow := requestBuckets_withoutShadow
  obtain ⟨hguarded, hnodup⟩ := guardBuckets_ok_iff.mp h.guard
  constructor
  · rw [hbuckets]
    exact (List.length_filter_le _ _).trans h.length_le
  · rw [hbuckets, guardBuckets_ok_iff]
    exact ⟨fun b hb => hguarded b (List.mem_filter.mp hb).1,
      hnodup.sublist (List.filter_sublist.map _)⟩
  · rw [hbuckets]
    exact fun b hb => h.registered b (List.mem_filter.mp hb).1

/-- Two answers that decide, and that a caller cannot tell apart. -/
def SameResponse (a a' : Except Failure Decision) : Prop :=
  ∃ response, a.map Decision.response = .ok response ∧ a'.map Decision.response = .ok response

def SameCounters (snap : Snapshot) (m m' : Entries) : Prop :=
  ∀ k, ¬ShadowCounter snap k → m.lookup k = m'.lookup k

theorem decideStep_withoutShadow (hsnap : snap.Sound scope) (h : Answerable codec snap req)
    (hsame : SameCounters snap m m') :
    SameResponse (decideStep codec snap m (now, req)).2
        (decideStep codec (withoutShadow snap) m' (now, req)).2 ∧
      SameCounters snap (decideStep codec snap m (now, req)).1
        (decideStep codec (withoutShadow snap) m' (now, req)).1 := by
  have hbuckets : ∀ b ∈ requestBuckets codec snap req, b.shadow = false →
      m.lookup b.key = m'.lookup b.key := by
    intro b hb hshadow
    apply hsame
    rw [shadowCounter_iff hsnap hb, hshadow]
    exact Bool.false_ne_true
  obtain ⟨d, hd, hresponse⟩ := decideRequest_eq now m h
  obtain ⟨d', hd', hresponse'⟩ := decideRequest_eq now m' h.withoutShadow
  unfold decideStep
  rw [hd, hd']
  constructor
  · refine ⟨respond now m (requestRules codec snap req), congrArg Except.ok hresponse, ?_⟩
    apply congrArg Except.ok
    rw [hresponse', requestRules_withoutShadow]
    exact respond_filter (fun r hr b hb => bucket_shadow_eq hr hb) hbuckets
  · intro k hk
    dsimp only
    rw [requestBuckets_withoutShadow]
    by_cases hmem : k ∈ (requestBuckets codec snap req).map Bucket.key
    · obtain ⟨b, hb, rfl⟩ := List.mem_map.mp hmem
      have hshadow : b.shadow = false := by
        rw [shadowCounter_iff hsnap hb, Bool.not_eq_true] at hk
        exact hk
      have hb' : b ∈ (requestBuckets codec snap req).filter fun b => !b.shadow :=
        List.mem_filter.mpr ⟨hb, by simp [hshadow]⟩
      have hguard := h.withoutShadow.guard
      have hregistered := h.withoutShadow.registered
      rw [requestBuckets_withoutShadow] at hguard hregistered
      rw [lookup_storeDecide_of_mem h.guard h.registered hb,
        lookup_storeDecide_of_mem hguard hregistered hb', admits_filter _ hbuckets,
        outcome_congr (hbuckets b hb hshadow)]
      simp only [held, live, hbuckets b hb hshadow]
    · have hmem' : k ∉ ((requestBuckets codec snap req).filter fun b => !b.shadow).map Bucket.key :=
        fun hk' => hmem ((List.filter_sublist.map _).subset hk')
      rw [lookup_storeDecide_of_not_mem hmem, lookup_storeDecide_of_not_mem hmem']
      exact hsame k hk

theorem exists_answers {as as' : List (Except Failure Decision)}
    (h : List.Forall₂ SameResponse as as') :
    ∃ answers : List Response, as.map (Except.map Decision.response) = answers.map Except.ok ∧
      as'.map (Except.map Decision.response) = answers.map Except.ok := by
  induction h with
  | nil => exact ⟨[], rfl, rfl⟩
  | cons hhead _ ih =>
    obtain ⟨response, hleft, hright⟩ := hhead
    obtain ⟨answers, hlefts, hrights⟩ := ih
    exact ⟨response :: answers, by rw [List.map_cons, List.map_cons, hleft, hlefts],
      by rw [List.map_cons, List.map_cons, hright, hrights]⟩

/-- Shadow rules do not interfere: with every shadow rule removed, each run of
requests gets the same responses, and the counters of all other rules end with
the same entries. -/
theorem responses_withoutShadow (namespaceName domain : Text) (p : Option Model.Policy)
    (codec : Codec) (m : Entries) (calls : List (ℕ × Request))
    (hcost : ∀ call ∈ calls, 0 ≤ call.2.cost) :
    let snap := (compile namespaceName domain p).1
    (∃ answers : List Response, responses codec snap m calls = answers.map Except.ok ∧
      responses codec (withoutShadow snap) m calls = answers.map Except.ok) ∧
    ∀ block ∈ snap.blocks, ∀ rule ∈ block.rules, rule.behavior ≠ .shadow →
      ∀ k, CounterOf rule k →
        (runs (decideStep codec snap) m calls).1.lookup k =
          (runs (decideStep codec (withoutShadow snap)) m calls).1.lookup k := by
  intro snap
  obtain ⟨scope, hsnap⟩ := compile_sound namespaceName domain p
  have hstep : ∀ s s' (call : ℕ × Request), 0 ≤ call.2.cost → SameCounters snap s s' →
      SameResponse (decideStep codec snap s call).2
          (decideStep codec (withoutShadow snap) s' call).2 ∧
        SameCounters snap (decideStep codec snap s call).1
          (decideStep codec (withoutShadow snap) s' call).1 :=
    fun s s' call hcall hsame => decideStep_withoutShadow hsnap
      (answerable_compile namespaceName domain p codec hcall) hsame
  -- the clock may read anything, so the run is taken as one without a clock
  obtain ⟨hanswers, hcounters⟩ := simulation_runs (R := fun _ => SameCounters snap)
    (fun _ _ _ _ _ h => h) hstep calls 0 m m (monotoneFrom_const 0 calls) hcost (fun _ _ => rfl)
  refine ⟨exists_answers hanswers, ?_⟩
  intro block hblock rule hrule hne k hk
  exact hcounters k (not_shadowCounter hsnap hblock hrule hne hk)

theorem responses_withoutShadow_shop :
    let snap := (compileShop shopPolicy).1
    ∃ answers : List Response,
      responses .inert snap ∅ [(1, globexRequest), (0, globexRequest)] = answers.map Except.ok ∧
        responses .inert (withoutShadow snap) ∅ [(1, globexRequest), (0, globexRequest)] =
          answers.map Except.ok :=
  (responses_withoutShadow (ascii "prod") (ascii "shop") (some shopPolicy) .inert ∅
    [(1, globexRequest), (0, globexRequest)] (by decide)).1

def watchPolicy : Model.Policy :=
  { domain := ascii "shop"
    blocks := [
      { name := ascii "edge"
        rules := [
          { name := ascii "watch", counters := [ascii "path"], behavior := .shadow
            rates := [⟨5, 60 * second, 0, []⟩] }] }] }

def refundRequest : Request :=
  { path := ascii "/", method := ascii "GET", token := [], keys := ∅, cost := -1 }

/-- The guard on costs covers shadow buckets, so below zero a shadow rule alone
turns an admission into an error. -/
theorem responses_withoutShadow_refund :
    let snap := (compileShop watchPolicy).1
    blocking (compileShop watchPolicy).2 = false ∧
    (responses .inert snap ∅ [(0, refundRequest)]).map Except.toOption = [none] ∧
      (responses .inert (withoutShadow snap) ∅ [(0, refundRequest)]).map Except.toOption =
        [some ⟨true, false, none⟩] := by
  decide +kernel

end Run

end Ratelimit.Engine
