import Ratelimit.Engine.Reachable
import Ratelimit.Engine.Strictest

/-!
# Order matters only where documented

The blocks of a snapshot and the rules of an All block may stand in any order:
what a request counts against is the same up to order, the store commits each key
on its own, and the headers come from the one bucket of least rank. Only a
cascade reads its rules in sequence.
-/
namespace Ratelimit.Engine

open Algo Store Match Compile Identity Library Memory

/-- The same block, its rules in another order unless it is a cascade. -/
structure SameBlock (b b' : Block) : Prop where
  name_eq : b'.name = b.name
  mode_eq : b'.mode = b.mode
  routes_eq : b'.routes = b.routes
  captures_eq : b'.captures = b.captures
  rules_perm : b.rules.Perm b'.rules
  cascade : b.mode = .firstMatch → b'.rules = b.rules

/-- The same snapshot, its blocks and the rules of its All blocks in another order. -/
structure Reordered (snap snap' : Snapshot) : Prop where
  blocks : ∃ blocks, snap.blocks.Perm blocks ∧ List.Forall₂ SameBlock blocks snap'.blocks
  rest : snap' = { snap with blocks := snap'.blocks }

section Matching

variable {b b' : Block} {ctx : BlockCtx} {snap snap' : Snapshot} {path query method : Text}
  {keys : Keys} {cost : ℤ}

theorem SameBlock.matchedRule_eq (h : SameBlock b b') :
    matchedRule b' ctx = matchedRule b ctx := by
  funext r
  unfold matchedRule
  rw [h.name_eq]

theorem mem_suppressedBy_perm {rules rules' : List Rule} (h : rules.Perm rules') (name : Text) :
    name ∈ suppressedBy ctx rules ↔ name ∈ suppressedBy ctx rules' :=
  (((h.filter _).filter _).flatMap_right _).mem_iff

theorem SameBlock.appliedRules_perm (h : SameBlock b b') :
    (appliedRules b ctx).Perm (appliedRules b' ctx) := by
  unfold appliedRules
  rw [h.mode_eq]
  split_ifs with hmode
  · rw [h.cascade hmode]
  · have hpred : (fun r : Rule =>
        decide (r.behavior ≠ .bypass ∧ r.name ∉ suppressedBy ctx b'.rules)) =
          fun r => decide (r.behavior ≠ .bypass ∧ r.name ∉ suppressedBy ctx b.rules) := by
      funext r
      simp only [mem_suppressedBy_perm h.rules_perm]
    rw [hpred]
    exact (h.rules_perm.filter _).filter _

theorem SameBlock.evalBlock_perm (h : SameBlock b b') :
    (evalBlock b ctx).Perm (evalBlock b' ctx) := by
  rw [evalBlock_eq, evalBlock_eq, h.matchedRule_eq]
  exact h.appliedRules_perm.map _

theorem SameBlock.hitOf_eq (h : SameBlock b b') :
    hitOf path query method b' =
      (hitOf path query method b).map fun hit => { hit with block := b' } := by
  unfold hitOf matchTarget
  rw [h.routes_eq, Option.map_map]
  rfl

theorem evaluate_perm_of_sameBlocks {blocks blocks' : List Block}
    (h : List.Forall₂ SameBlock blocks blocks') :
    ((Candidates.mk method (blocks.filterMap (hitOf path query method))).evaluate keys cost).Perm
      ((Candidates.mk method (blocks'.filterMap (hitOf path query method))).evaluate keys
        cost) := by
  induction h with
  | nil => exact List.Perm.refl _
  | @cons b b' blocks blocks' hb _ ih =>
    rw [List.filterMap_cons, List.filterMap_cons, hb.hitOf_eq]
    cases hhit : hitOf path query method b with
    | none => exact ih
    | some hit =>
      have hblock := hitOf_block hhit
      subst hblock
      exact hb.evalBlock_perm.append ih

theorem Reordered.evaluate_perm (h : Reordered snap snap') :
    ((candidates snap path method).evaluate keys cost).Perm
      ((candidates snap' path method).evaluate keys cost) := by
  obtain ⟨blocks, hperm, hsame⟩ := h.blocks
  exact ((hperm.filterMap _).flatMap_right _).trans (evaluate_perm_of_sameBlocks hsame)

theorem Reordered.requestRules_perm (h : Reordered snap snap') (codec : Codec) (req : Request) :
    (requestRules codec snap req).Perm (requestRules codec snap' req) := by
  have hextraction : snap'.extraction = snap.extraction := by
    have hrest := congrArg Snapshot.extraction h.rest
    exact hrest
  unfold requestRules
  rw [hextraction]
  exact h.evaluate_perm

theorem bucketsOf_perm {rules rules' : List MatchedRule} (h : rules.Perm rules') :
    (bucketsOf rules).Perm (bucketsOf rules') := h.flatMap_right _

theorem Reordered.requestBuckets_perm (h : Reordered snap snap') (codec : Codec) (req : Request) :
    (requestBuckets codec snap req).Perm (requestBuckets codec snap' req) :=
  bucketsOf_perm (h.requestRules_perm codec req)

end Matching

section Store

variable {bs bs' : List Bucket} {now : ℕ} {m : Entries}

theorem admits_perm (h : bs.Perm bs') : admits now m bs = admits now m bs' := by
  unfold admits
  exact h.all_eq

theorem guardBuckets_perm (h : bs.Perm bs') (hg : guardBuckets bs = .ok ()) :
    guardBuckets bs' = .ok () := by
  rw [guardBuckets_ok_iff] at hg ⊢
  exact ⟨fun b hb => hg.1 b (h.mem_iff.mpr hb), (h.map _).nodup_iff.mp hg.2⟩

theorem storeDecide_perm (h : bs.Perm bs') (hg : guardBuckets bs = .ok ()) (hreg : Registered bs) :
    (storeDecide now m bs).1 = (storeDecide now m bs').1 := by
  have hg' := guardBuckets_perm h hg
  have hreg' : Registered bs' := fun b hb => hreg b (h.mem_iff.mpr hb)
  apply Finmap.ext_lookup
  intro k
  by_cases hk : k ∈ bs.map Bucket.key
  · obtain ⟨b, hb, rfl⟩ := List.mem_map.mp hk
    rw [lookup_storeDecide_of_mem hg hreg hb,
      lookup_storeDecide_of_mem hg' hreg' (h.mem_iff.mp hb), admits_perm h]
  · rw [lookup_storeDecide_of_not_mem hk,
      lookup_storeDecide_of_not_mem fun hk' => hk ((h.map _).mem_iff.mpr hk')]

end Store

section Headers

variable {rules rules' : List MatchedRule} {now : ℕ} {m : Entries}

theorem contenders_perm (h : rules.Perm rules') (verdict : Bucket → Verdict) (allowed : Bool) :
    (contenders rules verdict allowed).Perm (contenders rules' verdict allowed) :=
  ((h.flatMap_right _).map _).filter _

theorem incurable_perm (h : rules.Perm rules') (verdict : Bucket → Verdict) (allowed : Bool) :
    incurable rules verdict allowed = incurable rules' verdict allowed := by
  unfold incurable
  rw [(bucketsOf_perm h).any_eq]

/-- Where the comparison orders the contenders, their order does not matter. -/
theorem respond_perm (h : rules.Perm rules')
    (hord : OrdersStrictly (fun x y => stricter (admits now m (bucketsOf rules)) x.2 y.2)
      (contenders rules (verdictOf now m (bucketsOf rules)) (admits now m (bucketsOf rules)))) :
    respond now m rules = respond now m rules' := by
  have hadmits : admits now m (bucketsOf rules) = admits now m (bucketsOf rules') :=
    admits_perm (bucketsOf_perm h)
  have hverdict : verdictOf now m (bucketsOf rules) = verdictOf now m (bucketsOf rules') := by
    funext b
    rw [verdictOf, verdictOf, hadmits]
  have hleast := least_perm hord (contenders_perm h _ _)
  have hleft := respond_eq now m rules
  have hright := respond_eq now m rules'
  dsimp only at hleft hright
  rw [hleft, hright, hleast, incurable_perm h, hadmits, hverdict]

end Headers

section Bounds

variable {now : ℕ} {m : Entries} {b : Bucket}

theorem gcra_remaining {w : Window} {e : Option Entry} {cost : ℤ} (hcost : 1 ≤ cost)
    (hemission : 1 ≤ emissionMicros w) (hallowed : (evalGCRA e now w cost).allowed = true) :
    0 ≤ (evalGCRA e now w cost).remainCharged ∧
      (evalGCRA e now w cost).remainCharged + cost ≤ w.burst ∧
      (evalGCRA e now w cost).remainCurrent = (evalGCRA e now w cost).remainCharged + cost := by
  obtain ⟨hburst, hfits⟩ := evalGCRA_allowed_iff.mp hallowed
  have harrival := le_arrival e now
  generalize hdiff : (now : ℤ) - (arrival e now + emissionMicros w * cost - tauMicros w) = diff
    at hfits
  have hwhole : tauMicros w - (arrival e now - now) = diff + emissionMicros w * cost := by
    rw [← hdiff]
    ring
  have hle : diff ≤ (w.burst - cost) * emissionMicros w := by
    rw [← hdiff, tauMicros]
    linarith
  have hlow : 0 ≤ diff / emissionMicros w := Int.ediv_nonneg (by omega) (by omega)
  have hhigh := Int.ediv_le_of_le_mul (by omega) hle
  have hdiv : (diff + emissionMicros w * cost) / emissionMicros w =
      diff / emissionMicros w + cost := Int.add_mul_ediv_left _ _ (by omega)
  simp only [evalGCRA, if_neg (not_lt.mpr hburst), hdiff, hwhole,
    nonNegative_tdiv (show 0 < emissionMicros w by omega), hdiv, if_neg (not_lt.mpr hlow)]
  rw [if_neg (by omega)]
  omega

/-- What a bucket that admitted its cost has left is within its capacity, before the charge
and after it. -/
theorem remaining_of_allowed (hcounts : CountsNonneg m) {a : Algorithm} (ha : b.algorithm = a.id)
    (hcheck : check a b.window = .ok ()) (hcost : 1 ≤ b.cost)
    (hrequests : b.window.requests < 2 ^ 31) (hburst : b.window.burst < 2 ^ 31)
    (hallowed : (outcome now m b).allowed = true) :
    0 ≤ (outcome now m b).remainCharged ∧ (outcome now m b).remainCharged + b.cost < 2 ^ 31 ∧
      (outcome now m b).remainCurrent = (outcome now m b).remainCharged + b.cost := by
  cases a with
  | gcra =>
    have hemission := one_le_emissionMicros (one_le_requests hcheck) (one_le_periodMicros hcheck)
    rw [outcome_of_gcra ha] at hallowed ⊢
    obtain ⟨hlow, hhigh, hcurrent⟩ := gcra_remaining hcost hemission hallowed
    exact ⟨hlow, by omega, hcurrent⟩
  | fixedWindow =>
    have hcount := hcounts.counted_nonneg b now (windowStart now (periodMicros b.window))
    rw [outcome_of_fixedWindow ha] at hallowed ⊢
    rw [evalFixed_allowed_iff] at hallowed
    simp only [evalFixed]
    omega

end Bounds

section Decisions

variable {codec : Codec} {snap snap' : Snapshot} {scope : Key.Scope} {req : Request} {now : ℕ}
  {m : Entries}

/-- Every window is within the range of the API's 32-bit fields. -/
def Narrow (snap : Snapshot) : Prop :=
  ∀ block ∈ snap.blocks, ∀ rule ∈ block.rules, ∀ rate ∈ rule.rates,
    rate.window.requests < 2 ^ 31 ∧ rate.window.burst < 2 ^ 31

section Admitted

variable (hsnap : snap.Sound scope) (hnarrow : Narrow snap) (hcounts : CountsNonneg m)
  (ha : Answerable codec snap req)

include hsnap hnarrow hcounts ha

theorem contender_charged (hadmits : admits now m (requestBuckets codec snap req) = true)
    {x : MatchedRule × Judged} (hx : x ∈ contenders (requestRules codec snap req)
      (verdictOf now m (requestBuckets codec snap req)) true) :
    let o := outcome now m x.2.1
    x.2.2 = chargedVerdict o ∧ 1 ≤ x.2.1.cost ∧ 0 ≤ o.remainCharged ∧
      o.remainCharged + x.2.1.cost < 2 ^ 31 ∧ o.remainCurrent = o.remainCharged + x.2.1.cost := by
  obtain ⟨hr, hbr, hv, hshadow, -⟩ := mem_contenders.mp hx
  have hb : x.2.1 ∈ requestBuckets codec snap req := List.mem_flatMap.mpr ⟨x.1, hr, hbr⟩
  have hallowed : (outcome now m x.2.1).allowed = true := by
    have hside := (List.all_eq_true.mp hadmits) x.2.1 hb
    rwa [hshadow, Bool.false_or] at hside
  have hcost := ((guardBuckets_ok_iff.mp ha.guard).1 x.2.1 hb).1
  obtain ⟨block, rule, rate, axes, hcounted⟩ := exists_countedBy hsnap hb
  obtain ⟨hrequests, hburst⟩ :=
    hnarrow block hcounted.block_mem rule hcounted.rule_mem rate hcounted.rate_mem
  rw [← hcounted.window_eq] at hrequests hburst
  refine ⟨?_, hcost, remaining_of_allowed hcounts hcounted.algorithm_eq hcounted.checked_window
    hcost hrequests hburst hallowed⟩
  rw [hv, verdictOf, answered, hadmits, hallowed]
  rfl

theorem fits_contenders (hadmits : admits now m (requestBuckets codec snap req) = true) :
    ∀ x ∈ contenders (requestRules codec snap req)
      (verdictOf now m (requestBuckets codec snap req)) true, Fits x.2 := by
  intro x hx
  obtain ⟨hcharged, hcost, hlow, hhigh, -⟩ := contender_charged hsnap hnarrow hcounts ha hadmits hx
  refine ⟨hcost, by omega, ?_, ?_⟩
  all_goals
    rw [hcharged]
    simp only [chargedVerdict]
    omega

theorem contenders_ordered : OrdersStrictly
    (fun x y => stricter (admits now m (requestBuckets codec snap req)) x.2 y.2)
    (contenders (requestRules codec snap req) (verdictOf now m (requestBuckets codec snap req))
      (admits now m (requestBuckets codec snap req))) := by
  refine contenders_ordersStrictly (guardBuckets_ok_iff.mp ha.guard).2 fun hadmits => ?_
  rw [hadmits]
  exact fits_contenders hsnap hnarrow hcounts ha hadmits

end Admitted

theorem Reordered.registered (h : Reordered snap snap')
    (hreg : Registered (requestBuckets codec snap req)) :
    Registered (requestBuckets codec snap' req) :=
  fun b hb => hreg b ((h.requestBuckets_perm codec req).mem_iff.mpr hb)

theorem Reordered.answerable_iff (h : Reordered snap snap') (hsnap : snap.Sound scope) :
    Answerable codec snap req ↔ Answerable codec snap' req := by
  have hperm := h.requestBuckets_perm codec req
  constructor
  · intro ha
    exact ⟨hperm.length_eq ▸ ha.length_le, guardBuckets_perm hperm ha.guard,
      h.registered ha.registered⟩
  · intro ha
    exact ⟨hperm.length_eq ▸ ha.length_le, guardBuckets_perm hperm.symm ha.guard,
      registered_evaluate hsnap⟩

theorem decideStep_reordered (h : Reordered snap snap') (hsnap : snap.Sound scope)
    (hnarrow : Narrow snap) (hcounts : CountsNonneg m) :
    ((decideStep codec snap m (now, req)).2.map Decision.response).toOption =
        ((decideStep codec snap' m (now, req)).2.map Decision.response).toOption ∧
      (decideStep codec snap m (now, req)).1 = (decideStep codec snap' m (now, req)).1 ∧
      CountsNonneg (decideStep codec snap m (now, req)).1 := by
  unfold decideStep
  by_cases ha : Answerable codec snap req
  · have hperm := h.requestBuckets_perm codec req
    obtain ⟨d, hd, hresponse⟩ := decideRequest_eq now m ha
    obtain ⟨d', hd', hresponse'⟩ := decideRequest_eq now m ((h.answerable_iff hsnap).mp ha)
    have hrespond : respond now m (requestRules codec snap req) =
        respond now m (requestRules codec snap' req) :=
      respond_perm (h.requestRules_perm codec req) (contenders_ordered hsnap hnarrow hcounts ha)
    rw [hd, hd']
    refine ⟨?_, storeDecide_perm hperm ha.guard ha.registered, hcounts.storeDecide _⟩
    exact congrArg some (hresponse.trans (hrespond.trans hresponse'.symm))
  · have hreg : Registered (requestBuckets codec snap req) := registered_evaluate hsnap
    obtain ⟨e, he⟩ := decideRequest_error now m hreg ha
    obtain ⟨e', he'⟩ := decideRequest_error now m (h.registered hreg)
      fun ha' => ha ((h.answerable_iff hsnap).mpr ha')
    rw [he, he']
    exact ⟨rfl, rfl, hcounts⟩

/-- The bucket that headers describe: applied, enforcing, refusing where the
request is refused, and of the least rank among those. -/
structure Describes (rules : List MatchedRule) (judged : List Judged) (d : Decision) (h : Headers)
    (owner : MatchedRule) (x : Judged) : Prop where
  owner_mem : owner ∈ rules
  bucket_mem : x.1 ∈ owner.buckets
  judged_mem : x ∈ judged
  enforcing : x.1.shadow = false
  refusing : d.allowed = false → x.2.allowed = false
  headers_eq : h = headersOf owner x d.costExceedsCapacity
  least_admitted : d.allowed = true → ∀ y ∈ judged, y.1.shadow = false → y ≠ x →
    admissionRank x < admissionRank y
  least_refused : d.allowed = false → ∀ y ∈ judged, y.1.shadow = false → y.2.allowed = false →
    y ≠ x → refusalRank x < refusalRank y

/-- Headers are there exactly when an enforcing bucket applied, and describe the
one of least rank. -/
def HeadersDescribe (codec : Codec) (snap : Snapshot) (now : ℕ) (m : Entries) (req : Request)
    (d : Decision) : Prop :=
  ∃ verdicts, (storeDecide now m (requestBuckets codec snap req)).2 = .ok verdicts ∧
    (d.headers = none ↔ ∀ b ∈ requestBuckets codec snap req, b.shadow = true) ∧
    ∀ h, d.headers = some h → ∃ owner x, Describes (requestRules codec snap req)
      ((requestBuckets codec snap req).zip verdicts) d h owner x

theorem headers_describe (hsnap : snap.Sound scope) (hnarrow : Narrow snap)
    (hcounts : CountsNonneg m) {d : Decision}
    (hd : (decideRequest codec snap now m req).2 = .ok d) :
    HeadersDescribe codec snap now m req d := by
  have ha := Answerable.of_ok hsnap hd
  obtain ⟨d', hd', hresponse⟩ := decideRequest_eq now m ha
  obtain rfl : d' = d := Except.ok.inj ((congrArg Prod.snd hd').symm.trans hd)
  refine ⟨_, storeDecide_snd ha.guard ha.registered, ?_⟩
  have hallowed : d'.allowed = admits now m (requestBuckets codec snap req) :=
    congrArg Response.allowed hresponse
  have hheaders := congrArg Response.headers hresponse
  have hexceeds := congrArg Response.costExceedsCapacity hresponse
  have hnodup := (guardBuckets_ok_iff.mp ha.guard).2
  have hcontends : ∀ y ∈ (requestBuckets codec snap req).zip
      ((requestBuckets codec snap req).map
        fun b => answered (admits now m (requestBuckets codec snap req)) (outcome now m b)),
      y.1.shadow = false → (d'.allowed = true ∨ y.2.allowed = false) →
        ∃ r, (r, y) ∈ contenders (requestRules codec snap req)
          (verdictOf now m (requestBuckets codec snap req)) d'.allowed := by
    intro y hy hshadow hside
    rw [zip_outcomes] at hy
    obtain ⟨b, hb, rfl⟩ := List.mem_map.mp hy
    rw [hallowed, answered_allowed] at hside
    rw [hallowed]
    exact exists_contender hb hshadow hside
  rcases respond_cases now m (requestRules codec snap req) with
    ⟨hshadow, hrespond⟩ | ⟨owner, x, hleast, hrespond⟩
  · rw [hrespond] at hheaders
    refine ⟨⟨fun _ => hshadow, fun _ => hheaders⟩, ?_⟩
    intro h hh
    cases hh.symm.trans hheaders
  · rw [hrespond] at hheaders hexceeds
    rw [← requestBuckets, ← hallowed] at hleast
    obtain ⟨howner, hbucket, hverdict, henforcing, hside⟩ := mem_contenders.mp (least_mem hleast)
    have hx : x.1 ∈ requestBuckets codec snap req := mem_bucketsOf.mpr ⟨owner, howner, hbucket⟩
    constructor
    · constructor
      · intro hnone
        cases hnone.symm.trans hheaders
      · intro hshadow
        rw [hshadow x.1 hx] at henforcing
        cases henforcing
    · intro h hh
      refine ⟨owner, x, howner, hbucket, ?_, henforcing, ?_, ?_, ?_, ?_⟩
      · rw [zip_outcomes]
        exact List.mem_map.mpr ⟨x.1, hx, Prod.ext rfl hverdict.symm⟩
      · intro hno
        exact hside.resolve_left (by simp [hno])
      · rw [Option.some.inj (hh.symm.trans hheaders)]
        exact congrArg (headersOf owner x) hexceeds.symm
      · intro hyes y hy hshadow hne
        obtain ⟨r, hr⟩ := hcontends y hy hshadow (Or.inl hyes)
        rw [hyes] at hleast hr
        exact admissionRank_least hnodup (fits_contenders hsnap hnarrow hcounts ha
          (hallowed.symm.trans hyes)) hleast (r, y) hr fun heq => hne (congrArg Prod.snd heq)
      · intro hno y hy hshadow hyno hne
        obtain ⟨r, hr⟩ := hcontends y hy hshadow (Or.inr hyno)
        rw [hno] at hleast hr
        exact refusalRank_least hnodup hleast (r, y) hr fun heq => hne (congrArg Prod.snd heq)

/-- Two answers that a caller cannot tell apart, errors counted as no answer. -/
def SameAnswer (a a' : Except Failure Decision) : Prop :=
  (a.map Decision.response).toOption = (a'.map Decision.response).toOption

theorem responses_reordered (h : Reordered snap snap') (hsnap : snap.Sound scope)
    (hnarrow : Narrow snap) (hcounts : CountsNonneg m) (calls : List (ℕ × Request)) :
    (responses codec snap m calls).map Except.toOption =
        (responses codec snap' m calls).map Except.toOption ∧
      (runs (decideStep codec snap) m calls).1 = (runs (decideStep codec snap') m calls).1 := by
  have hstep : ∀ (s s' : Entries) (call : ℕ × Request), True → s = s' ∧ CountsNonneg s →
      SameAnswer (decideStep codec snap s call).2 (decideStep codec snap' s' call).2 ∧
        (decideStep codec snap s call).1 = (decideStep codec snap' s' call).1 ∧
          CountsNonneg (decideStep codec snap s call).1 := by
    rintro s s' ⟨now, req⟩ - ⟨rfl, hs⟩
    exact decideStep_reordered h hsnap hnarrow hs
  obtain ⟨hanswers, hstate⟩ := simulation_runs (R := fun _ s s' => s = s' ∧ CountsNonneg s)
    (fun _ _ _ _ _ hs => hs) hstep calls 0 m m (monotoneFrom_const 0 calls)
    (fun _ _ => trivial) ⟨rfl, hcounts⟩
  refine ⟨?_, hstate.1⟩
  unfold responses
  rw [List.map_map, List.map_map]
  exact map_eq_of_forall₂ hanswers fun a a' ha => ha

/-- Order matters only where documented: permuting the blocks of a compiled snapshot, or the rules
inside its All blocks, changes no response and no counter. And headers always describe the least
applied enforcing bucket. -/
theorem order_irrelevant (namespaceName domain : Text) (p : Option Model.Policy) (codec : Codec)
    (hnarrow : Narrow (compile namespaceName domain p).1) {t : ℕ} {m : Entries}
    (hreach : Reachable t m) :
    let snap := (compile namespaceName domain p).1
    (∀ snap', Reordered snap snap' → ∀ calls : List (ℕ × Request),
      (responses codec snap m calls).map Except.toOption =
          (responses codec snap' m calls).map Except.toOption ∧
        (runs (decideStep codec snap) m calls).1 = (runs (decideStep codec snap') m calls).1) ∧
    ∀ (now : ℕ) (req : Request) (d : Decision), (decideRequest codec snap now m req).2 = .ok d →
      HeadersDescribe codec snap now m req d := by
  intro snap
  obtain ⟨scope, hsnap⟩ := compile_sound namespaceName domain p
  have hcounts := hreach.kept.countsNonneg
  constructor
  · intro snap' h calls
    exact responses_reordered h hsnap hnarrow hcounts calls
  · intro now req d hd
    exact headers_describe hsnap hnarrow hcounts hd

theorem order_irrelevant_reversed :
    let snap := (compileShop shopPolicy).1
    let calls := [(0, globexRequest), (5, globexRequest)]
    snap.blocks.length = 2 ∧ globexStore.keys.card = 4 ∧
      (responses .inert snap globexStore calls).map Except.toOption =
        (responses .inert { snap with blocks := snap.blocks.reverse } globexStore calls).map
          Except.toOption := by
  intro snap calls
  have hnarrow : Narrow snap := by
    unfold Narrow
    decide +kernel
  have hreordered : Reordered snap { snap with blocks := snap.blocks.reverse } := by
    refine ⟨⟨snap.blocks.reverse, (List.reverse_perm _).symm, ?_⟩, rfl⟩
    exact List.forall₂_same.mpr fun b _ => ⟨rfl, rfl, rfl, rfl, List.Perm.refl _, fun _ => rfl⟩
  refine ⟨by decide +kernel, by decide +kernel, ?_⟩
  exact ((order_irrelevant (ascii "prod") (ascii "shop") (some shopPolicy) .inert hnarrow
    ((Reachable.empty 0).decide _ _ _ _ globexRequest)).1 _ hreordered calls).1

/-- A wide window beside a route that charges four units. -/
def widePolicy (bits : ℕ) : Model.Policy :=
  { domain := ascii "shop"
    blocks := [
      { name := ascii "edge"
        rules := [
          { name := ascii "wide"
            rates := [⟨2 ^ bits, 60 * second, 0, ascii "FixedWindow"⟩] }] },
      { name := ascii "orders"
        routes := [
          { path := ⟨.pathPrefix, ascii "/"⟩
            cost := some ⟨.queryParameter, ascii "units", 4⟩ }]
        rules := [
          { name := ascii "units"
            rates := [⟨10, 60 * second, 0, ascii "FixedWindow"⟩] }] }] }

/-- Beyond the range of the API a product wraps around, and the headers describe the wide
window although the other one has the smaller fraction left. -/
theorem order_irrelevant_wide :
    let snap := (compileShop (widePolicy 62)).1
    let decided :=
      (decideRequest .inert snap 0 ∅ ⟨ascii "/", ascii "GET", [], ∅, 0⟩).2.toOption
    blocking (compileShop (widePolicy 62)).2 = false ∧
    decided.map Decision.allowed = some true ∧
    decided.map (fun d => (d.headers.map fun h => (h.rule, h.remaining, h.cost),
        d.rules.map fun r => (r.rule, r.remaining, r.cost))) =
      some (some (ascii "wide", 2 ^ 62 - 1, 1),
        [(ascii "wide", 2 ^ 62 - 1, 1), (ascii "units", 6, 4)]) ∧
    (6 : ℚ) / 4 < (2 ^ 62 - 1) / 1 := by
  refine ⟨?_, ?_, ?_, by norm_num⟩
  · decide +kernel
  · decide +kernel
  · decide +kernel

end Decisions

end Ratelimit.Engine
