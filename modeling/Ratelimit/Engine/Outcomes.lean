import Ratelimit.Engine.Shadow
import Ratelimit.Engine.Strictest

/-!
# The outcomes of the rules and the decision

The buckets of the matched rules are judged as one list, and two loops find their way back
from an index to a rule. The outcome of a rule is read off its own buckets alone, and the
rule that the headers name has the bucket of the headers as its own strictest.
-/
namespace Ratelimit.Engine

open Algo Store Match Compile Identity Library

section Own

variable {judged own : List Judged} {verdict : Bucket → Verdict} {rules : List MatchedRule}

theorem strictestIndex_map_fst (judged : List Judged) (start stop : ℕ) (allowed skipShadow : Bool) :
    (strictestIndex judged start stop allowed skipShadow).map Prod.fst =
      least (stricter allowed) (((judged.drop start).take (stop - start)).filter
        fun x => !passesOver allowed skipShadow x) := by
  have hrange : (judged.drop start).take (stop - start) =
      ((judged.zipIdx.drop start).take (stop - start)).map Prod.fst := by
    rw [List.map_take, List.map_drop, List.zipIdx_map_fst]
  rw [strictestIndex, strictestFrom_eq, hrange, List.filter_map]
  exact (least_map fun _ _ _ _ => rfl).symm

/-- The outcome of a rule from its own judged buckets. -/
def ownOutcome (verdict : Bucket → Verdict) (m : MatchedRule) : RuleOutcome :=
  ruleOutcome m (m.buckets.map fun b => (b, verdict b)) 0

theorem own_range (m : MatchedRule) :
    ((m.buckets.map fun b => (b, verdict b)).drop 0).take m.buckets.length =
      m.buckets.map fun b => (b, verdict b) := by simp

theorem ruleOutcome_eq_own {m : MatchedRule} {start : ℕ}
    (h : (judged.drop start).take m.buckets.length = m.buckets.map fun b => (b, verdict b)) :
    ruleOutcome m judged start = ownOutcome verdict m := by
  unfold ownOutcome ruleOutcome
  simp only [h, own_range]
  generalize (m.buckets.map fun b => (b, verdict b)).all (fun x => x.2.allowed) = allowed
  have hbest : (strictestIndex judged start (start + m.buckets.length) allowed false).map Prod.fst =
      (strictestIndex (m.buckets.map fun b => (b, verdict b)) 0 (0 + m.buckets.length) allowed
        false).map Prod.fst := by
    simp only [strictestIndex_map_fst, Nat.add_sub_cancel_left, h, own_range]
  generalize strictestIndex judged start _ _ _ = best at hbest ⊢
  generalize strictestIndex _ 0 _ _ _ = best' at hbest ⊢
  cases best with
  | none => simp [Option.map_eq_none_iff.mp hbest.symm]
  | some x =>
    obtain ⟨y, rfl, hy⟩ := Option.map_eq_some_iff.mp hbest.symm
    simp [hy]

/-- The loop over the rules gives each its own stretch of the judged buckets. -/
theorem ruleOutcomes_eq_map (pre : List Judged) (rules : List MatchedRule) :
    ruleOutcomes (pre ++ (bucketsOf rules).map fun b => (b, verdict b)) pre.length rules =
      rules.map (ownOutcome verdict) := by
  induction rules generalizing pre with
  | nil => rfl
  | cons m rules ih =>
    have hrest := ih (pre ++ m.buckets.map fun b => (b, verdict b))
    simp only [bucketsOf, List.flatMap_cons, List.map_append, List.length_append, List.length_map,
      List.append_assoc] at hrest ⊢
    rw [ruleOutcomes, hrest, List.map_cons]
    exact congrArg (· :: _) (ruleOutcome_eq_own (by simp))

theorem ownOutcome_of_least {m : MatchedRule} {x : Judged} {allowed : Bool}
    (hallowed : (m.buckets.all fun b => (verdict b).allowed) = allowed)
    (hleast : least (stricter allowed) ((m.buckets.map fun b => (b, verdict b)).filter
      fun x => !passesOver allowed false x) = some x) :
    let o := ownOutcome verdict m
    o.allowed = allowed ∧ o.limit = x.1.window.requests ∧ o.remaining = x.2.remaining ∧
      o.algorithm = algorithmName x.1.algorithm ∧
      o.periodSeconds = x.1.window.period.tdiv second := by
  have hall : ((m.buckets.map fun b => (b, verdict b)).all fun x => x.2.allowed) = allowed := by
    simpa [Function.comp_def] using hallowed
  have hbest := strictestIndex_map_fst (m.buckets.map fun b => (b, verdict b)) 0
    (0 + m.buckets.length) allowed false
  rw [Nat.add_sub_cancel_left, own_range, hleast] at hbest
  obtain ⟨⟨y, i⟩, hindex, rfl⟩ := Option.map_eq_some_iff.mp hbest
  simp only [ownOutcome, ruleOutcome, own_range, hall, hindex, and_self]

theorem ownOutcome_fields (m : MatchedRule) :
    (ownOutcome verdict m).shadow = m.shadow ∧ (ownOutcome verdict m).cost = m.cost ∧
      (ownOutcome verdict m).allowed = m.buckets.all fun b => (verdict b).allowed := by
  unfold ownOutcome ruleOutcome
  simp only [own_range]
  split <;> simp [Function.comp_def]

end Own

/-- What the rules of a decision report, the admission and the headers say of each other. -/
structure Agrees (rules : List MatchedRule) (verdict : Bucket → Verdict) (d : Decision) : Prop where
  rules_eq : d.rules = rules.map (ownOutcome verdict)
  allowed_iff : d.allowed = true ↔ ∀ o ∈ d.rules, o.shadow = false → o.allowed = true
  headers_eq_none_iff : d.headers = none ↔ ∀ r ∈ rules, r.shadow = true
  binding : ∀ h, d.headers = some h → ∃ r ∈ rules, r.shadow = false ∧ h.block = r.block ∧
    h.rule = r.rule ∧ (ownOutcome verdict r).limit = h.limit ∧
    (ownOutcome verdict r).remaining = h.remaining ∧ (ownOutcome verdict r).cost = h.cost ∧
    (ownOutcome verdict r).algorithm = h.algorithm ∧
    (ownOutcome verdict r).periodSeconds = h.periodSeconds ∧
    (d.allowed = false → (ownOutcome verdict r).allowed = false)

section Judged

variable {rules : List MatchedRule} {verdict : Bucket → Verdict}
  (hshadow : ∀ r ∈ rules, ∀ b ∈ r.buckets, b.shadow = r.shadow)

def admitting (rules : List MatchedRule) (verdict : Bucket → Verdict) : Bool :=
  (bucketsOf rules).all fun b => b.shadow || (verdict b).allowed

include hshadow

theorem admitting_iff : admitting rules verdict = true ↔
    ∀ r ∈ rules, r.shadow = false → (ownOutcome verdict r).allowed = true := by
  simp only [admitting, List.all_eq_true, (ownOutcome_fields _).2.2, mem_bucketsOf]
  constructor
  · intro h r hr hr' b hb
    simpa [hshadow r hr b hb, hr'] using h b ⟨r, hr, hb⟩
  · rintro h b ⟨r, hr, hb⟩
    cases hr' : r.shadow with
    | true => simp [hshadow r hr b hb, hr']
    | false => simp [h r hr hr' b hb]

theorem contenders_eq_nil_iff (hne : ∀ r ∈ rules, r.buckets ≠ []) :
    contenders rules verdict (admitting rules verdict) = [] ↔ ∀ r ∈ rules, r.shadow = true := by
  constructor
  · intro hnil r hr
    by_contra hr'
    rw [Bool.not_eq_true] at hr'
    have hnone : ∀ r ∈ rules, ∀ b ∈ r.buckets, b.shadow = false →
        ¬(admitting rules verdict = true ∨ (verdict b).allowed = false) := by
      intro r hr b hb hb' hside
      have hmem : (r, b, verdict b) ∈ contenders rules verdict (admitting rules verdict) :=
        mem_contenders.mpr ⟨hr, hb, rfl, hb', hside⟩
      simp [hnil] at hmem
    obtain ⟨b, hb⟩ := List.exists_mem_of_ne_nil _ (hne r hr)
    -- without an admission some enforcing bucket refuses, and it would contend
    cases hadmitting : admitting rules verdict with
    | true => exact hnone r hr b hb (hshadow r hr b hb ▸ hr') (Or.inl hadmitting)
    | false =>
      obtain ⟨b, hb, hno⟩ := List.all_eq_false.mp hadmitting
      obtain ⟨r, hr, hb⟩ := mem_bucketsOf.mp hb
      simp only [Bool.or_eq_true, not_or, Bool.not_eq_true] at hno
      exact hnone r hr b hb hno.1 (Or.inr hno.2)
  · intro hall
    refine List.eq_nil_iff_forall_not_mem.mpr fun x hx => ?_
    obtain ⟨hr, hb, -, hb', -⟩ := mem_contenders.mp hx
    rw [hshadow _ hr _ hb, hall _ hr] at hb'
    cases hb'

theorem least_own {owner : MatchedRule} {x : Judged}
    (hord : OrdersStrictly (fun x y => stricter (admitting rules verdict) x.2 y.2)
      (contenders rules verdict (admitting rules verdict)))
    (h : least (fun x y => stricter (admitting rules verdict) x.2 y.2)
      (contenders rules verdict (admitting rules verdict)) = some (owner, x)) :
    (owner.buckets.all fun b => (verdict b).allowed) = admitting rules verdict ∧
      least (stricter (admitting rules verdict)) ((owner.buckets.map fun b => (b, verdict b)).filter
        fun x => !passesOver (admitting rules verdict) false x) = some x := by
  obtain ⟨howner, hx, hverdict, henforcing, hside⟩ := mem_contenders.mp (least_mem h)
  have howned : owner.shadow = false := hshadow owner howner x.1 hx ▸ henforcing
  constructor
  · cases hadmitting : admitting rules verdict with
    | true =>
      rw [← (ownOutcome_fields owner).2.2]
      exact (admitting_iff hshadow).mp hadmitting owner howner howned
    | false =>
      rw [hadmitting] at hside
      refine List.all_eq_false.mpr ⟨x.1, hx, ?_⟩
      simpa [← hverdict] using hside
  · have hown : ∀ y, y ∈ ((owner.buckets.map fun b => (b, verdict b)).filter
        fun x => !passesOver (admitting rules verdict) false x) ↔
        (owner, y) ∈ contenders rules verdict (admitting rules verdict) := by
      intro y
      rw [mem_contenders, List.mem_filter, List.mem_map]
      constructor
      · rintro ⟨⟨b, hb, rfl⟩, hpass⟩
        refine ⟨howner, hb, rfl, (hshadow owner howner b hb).trans howned, ?_⟩
        simpa [passesOver, or_iff_not_imp_left] using hpass
      · rintro ⟨-, hb, hy, -, hside⟩
        refine ⟨⟨y.1, hb, Prod.ext rfl hy.symm⟩, ?_⟩
        simpa [passesOver, or_iff_not_imp_left] using hside
    have hleast := least_of_subset hord (List.forall_mem_map.mpr fun y hy => (hown y).mp hy)
      (List.mem_map_of_mem ((hown x).mpr (least_mem h))) h
    have hmap : (least (stricter (admitting rules verdict)) _).map (fun y => (owner, y)) = _ :=
      (least_map fun _ _ _ _ => rfl).symm.trans hleast
    obtain ⟨y, hy, heq⟩ := Option.map_eq_some_iff.mp hmap
    rw [hy, (Prod.mk.inj heq).2]

theorem decisionOf_agrees (hkeys : ((bucketsOf rules).map Bucket.key).Nodup)
    (hne : ∀ r ∈ rules, r.buckets ≠ []) (hcost : ∀ r ∈ rules, ∀ b ∈ r.buckets, b.cost = r.cost)
    (hfits : ∀ b ∈ bucketsOf rules, Fits (b, verdict b)) (snap : Snapshot) (keys : Keys)
    (skips : List Skip) :
    Agrees rules verdict (decisionOf snap rules ((bucketsOf rules).map verdict) keys skips) := by
  have hord := @contenders_ordersStrictly rules verdict (admitting rules verdict) hkeys
    fun _ x hx => by
      obtain ⟨hr, hb, hv, -⟩ := mem_contenders.mp hx
      have hx : x.2 = (x.2.1, verdict x.2.1) := Prod.ext rfl hv
      rw [hx]
      exact hfits x.2.1 (mem_bucketsOf.mpr ⟨x.1, hr, hb⟩)
  have houtcomes := @ruleOutcomes_eq_map verdict [] rules
  have hallowed : admitted (bucketsOf rules) ((bucketsOf rules).map verdict) =
      admitting rules verdict := by
    simp [admitted, admitting, Memory.zip_outcomes, Function.comp_def]
  have houtcome : admitting rules verdict = true ↔
      ∀ o ∈ rules.map (ownOutcome verdict), o.shadow = false → o.allowed = true := by
    simpa [(ownOutcome_fields _).1] using admitting_iff hshadow
  have hheaders := aggregate_eq rules verdict (admitting rules verdict)
  rw [List.nil_append, List.length_nil] at houtcomes
  simp only [decisionOf, Memory.zip_outcomes, hallowed, houtcomes, hheaders]
  cases hleast : least (fun x y => stricter (admitting rules verdict) x.2 y.2)
      (contenders rules verdict (admitting rules verdict)) with
  | none =>
    have hall := (contenders_eq_nil_iff hshadow hne).mp (least_eq_none_iff.mp hleast)
    exact ⟨rfl, houtcome, by simpa using hall, by simp⟩
  | some best =>
    obtain ⟨owner, x⟩ := best
    obtain ⟨howner, hx, -, henforcing, -⟩ := mem_contenders.mp (least_mem hleast)
    have howned : owner.shadow = false := hshadow owner howner x.1 hx ▸ henforcing
    obtain ⟨hown, hbest⟩ := least_own hshadow hord hleast
    obtain ⟨hsame, hlimit, hremaining, halgorithm, hperiod⟩ := ownOutcome_of_least hown hbest
    refine ⟨rfl, houtcome, iff_of_false (Option.some_ne_none _) fun hall => ?_, ?_⟩
    · simp [hall owner howner] at howned
    · rintro h ⟨⟩
      exact ⟨owner, howner, howned, rfl, rfl, hlimit, hremaining,
        (ownOutcome_fields owner).2.1.trans (hcost owner howner x.1 hx).symm, halgorithm, hperiod,
        fun hno => hsame.trans hno⟩

end Judged

theorem appliedRules_counting {block : Block} {ctx : BlockCtx} {r : Rule}
    (h : r ∈ appliedRules block ctx) : r.behavior ≠ .bypass := by
  unfold appliedRules at h
  split_ifs at h
  · rcases List.mem_append.mp h with h | h
    · simp [of_decide_eq_true (List.all_eq_true.mp List.all_takeWhile r h)]
    · exact of_decide_eq_true (List.mem_filter.mp h).2
  · exact (of_decide_eq_true (List.mem_filter.mp h).2).1

theorem requestRules_buckets {scope : Key.Scope} {snap : Snapshot} {codec : Codec} {req : Request}
    (hsnap : snap.Sound scope)
    (hrates : ∀ b ∈ snap.blocks, ∀ r ∈ b.rules, r.behavior ≠ .bypass → r.rates ≠ [])
    (hcost : 1 ≤ req.cost ∧ req.cost ≤ 10 ^ 9) {r : MatchedRule}
    (hr : r ∈ requestRules codec snap req) : r.buckets ≠ [] ∧
      ∀ b ∈ r.buckets, b.cost = r.cost ∧ 1 ≤ b.cost ∧ b.cost ≤ 10 ^ 9 := by
  obtain ⟨h, hh, hr⟩ := List.mem_flatMap.mp hr
  rw [evalBlock_eq] at hr
  obtain ⟨rule, hrule, rfl⟩ := List.mem_map.mp hr
  constructor
  · have hne := hrates _ (hit_block_mem hh) rule ((appliedRules_sublist _ _).subset hrule)
      (appliedRules_counting hrule)
    simpa [matchedRule] using hne
  · intro b hb
    obtain ⟨rate, -, rfl⟩ := List.mem_map.mp hb
    refine ⟨rfl, ?_⟩
    change 1 ≤ (if h.cost = 0 then req.ownCost else h.cost) ∧
      (if h.cost = 0 then req.ownCost else h.cost) ≤ 10 ^ 9
    have hown : req.ownCost = req.cost := if_neg (by omega)
    rcases hit_cost_cases hsnap hh with hzero | hread
    · simpa [hzero, hown] using hcost
    · rw [if_neg (by omega)]
      exact hread

theorem exists_map_eq {bs : List Bucket} (hnodup : bs.Nodup) {verdicts : List Verdict}
    (hlen : verdicts.length = bs.length) : ∃ verdict : Bucket → Verdict, bs.map verdict = verdicts := by
  induction bs generalizing verdicts with
  | nil => exact ⟨fun _ => ⟨true, 0, false, 0, 0⟩, (List.length_eq_zero_iff.mp hlen).symm⟩
  | cons b bs ih =>
    obtain ⟨v, verdicts, rfl⟩ := List.exists_cons_of_length_eq_add_one hlen
    rw [List.nodup_cons] at hnodup
    obtain ⟨verdict, rfl⟩ := ih hnodup.2 (by simpa using hlen)
    refine ⟨Function.update verdict b v, ?_⟩
    rw [List.map_cons, Function.update_self, List.map_congr_left fun x hx => ?_]
    exact Function.update_of_ne (ne_of_mem_of_not_mem hx hnodup.1) _ _

/-- The list of outcomes, the admission and the headers of one decision agree. -/
theorem outcomes_agree (namespaceName domain : Text) (p : Option Model.Policy) (codec : Codec)
    (req : Request) (hcost : 1 ≤ req.cost ∧ req.cost ≤ 10 ^ 9) {S : Type}
    (judge : S → List Bucket → S × Answer) (s : S) {d : Decision}
    (hjudge : ∀ verdicts, (judge s (requestBuckets codec (compile namespaceName domain p).1 req)).2 =
      .ok verdicts →
        verdicts.length = (requestBuckets codec (compile namespaceName domain p).1 req).length ∧
        ∀ v ∈ verdicts, 0 ≤ v.remaining ∧ v.remaining < 2 ^ 31)
    (hd : (evaluate codec (compile namespaceName domain p).1 judge s req).2 = .ok d) :
    let rules := requestRules codec (compile namespaceName domain p).1 req
    ∃ verdict : Bucket → Verdict,
      (rules ≠ [] → (judge s (bucketsOf rules)).2 = .ok ((bucketsOf rules).map verdict)) ∧
        Agrees rules verdict d := by
  obtain ⟨scope, hsnap⟩ := compile_sound namespaceName domain p
  have hrates := compile_rates_ne namespaceName domain p
  generalize (compile namespaceName domain p).1 = snap at *
  intro rules
  have hrules : ∀ r ∈ rules, _ := fun r hr => requestRules_buckets hsnap hrates hcost hr
  have hshadow : ∀ r ∈ rules, ∀ b ∈ r.buckets, b.shadow = r.shadow :=
    fun r hr b hb => bucket_shadow_eq hr hb
  have hkeys : ((bucketsOf rules).map Bucket.key).Nodup := buckets_nodup hsnap
  by_cases hnil : requestBuckets codec snap req = []
  · -- no bucket, so no rule
    have hnone : rules = [] := by
      refine List.eq_nil_iff_forall_not_mem.mpr fun r hr => (hrules r hr).1 ?_
      exact List.flatMap_eq_nil_iff.mp hnil r hr
    obtain ⟨targeted, skips, names, heq⟩ := @evaluate_of_nil S _ _ _ hnil
    rw [heq] at hd
    obtain rfl := Except.ok.inj hd
    exact ⟨fun _ => ⟨true, 0, false, 0, 0⟩, by simp [hnone], by simp [hnone, untouched],
      by simp [untouched], by simp [hnone, untouched], by simp [untouched]⟩
  · rw [evaluate_of_ne_nil hnil] at hd
    split_ifs at hd
    rcases hanswer : judge s (requestBuckets codec snap req) with ⟨s', e | verdicts⟩
    · simp [hanswer] at hd
    · simp only [hanswer] at hd
      obtain rfl := Except.ok.inj hd
      obtain ⟨hlen, hbounds⟩ := hjudge verdicts (by rw [hanswer])
      obtain ⟨verdict, rfl⟩ := exists_map_eq (List.Nodup.of_map _ hkeys) hlen
      refine ⟨verdict, fun _ => congrArg Prod.snd hanswer, ?_⟩
      refine decisionOf_agrees hshadow hkeys (fun r hr => (hrules r hr).1)
        (fun r hr b hb => ((hrules r hr).2 b hb).1) (fun b hb => ?_) _ _ _
      obtain ⟨r, hr, hbr⟩ := mem_bucketsOf.mp hb
      obtain ⟨-, hone, hle⟩ := (hrules r hr).2 b hbr
      obtain ⟨hlow, hhigh⟩ := hbounds (verdict b) (List.mem_map_of_mem hb)
      exact ⟨hone, by dsimp only; omega, hlow, hhigh⟩

theorem outcomes_agree_edge :
    let snap := (compileShop shopPolicy).1
    let req := { globexRequest with cost := 1 }
    let judge (s : Unit) (bs : List Bucket) : Unit × Answer :=
      (s, .ok (bs.map fun b => ⟨b.shadow, 4, false, second, second⟩))
    ∃ d verdict, (evaluate Codec.inert snap judge () req).2 = .ok d ∧ d.rules.length = 3 ∧
      Agrees (requestRules Codec.inert snap req) verdict d := by
  intro snap req judge
  have hok : (evaluate Codec.inert snap judge () req).2.map (fun d => d.rules.length) =
      .ok 3 := by
    decide +kernel
  cases hd : (evaluate Codec.inert snap judge () req).2 with
  | error e => simp [hd, Except.map] at hok
  | ok d =>
    obtain ⟨verdict, -, hagrees⟩ := outcomes_agree (ascii "prod") (ascii "shop") (some shopPolicy)
      Codec.inert req (by decide) judge () (fun verdicts h => by
        obtain rfl := Except.ok.inj h
        simp) hd
    rw [hd] at hok
    exact ⟨d, verdict, rfl, Except.ok.inj hok, hagrees⟩

end Ratelimit.Engine
