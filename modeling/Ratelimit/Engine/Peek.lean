import Ratelimit.Engine.Order
import Ratelimit.Engine.Process

/-!
# Simulation predicts the decision

`Peek` judges the buckets of `Decide` and charges nothing. On admission the two differ by the
cost in what is left of each bucket, so the fractions that the headers are chosen by differ by
one for every bucket, and both name the same one.
-/
namespace Ratelimit.Engine

open Algo Store Match Compile Identity Library Memory

section Headers

variable {codec : Codec} {snap : Snapshot} {scope : Key.Scope} {req : Request} {now : ℕ}
  {m : Entries}

theorem contenders_map (rules : List MatchedRule) (verdict verdict' : Bucket → Verdict) :
    contenders rules verdict' true =
      (contenders rules verdict true).map fun x => (x.1, x.2.1, verdict' x.2.1) := by
  unfold contenders
  rw [List.filter_map, List.filter_map, List.map_map]
  simp only [passesOver, Function.comp_def, Bool.not_true, Bool.false_and]

theorem admissionRank_current {x y : Judged} (hkey : y.1 = x.1) (hcost : 1 ≤ x.1.cost)
    (hremaining : y.2.remaining = x.2.remaining + x.1.cost) :
    admissionRank y = toLex ((x.2.remaining : ℚ) / x.1.cost + 1, x.1.key) := by
  have hpos : (x.1.cost : ℚ) ≠ 0 := by
    have : (0 : ℚ) < x.1.cost := by exact_mod_cast hcost
    exact this.ne'
  unfold admissionRank
  rw [hkey, hremaining, Int.cast_add, add_div, div_self hpos]

theorem least_current (hsnap : snap.Sound scope) (hnarrow : Narrow snap)
    (hcounts : CountsNonneg m) (ha : Answerable codec snap req)
    (hadmits : admits now m (requestBuckets codec snap req) = true) :
    least (fun x y => stricter true x.2 y.2)
        (contenders (requestRules codec snap req)
          (fun b => currentVerdict (outcome now m b)) true) =
      (least (fun x y => stricter true x.2 y.2)
        (contenders (requestRules codec snap req)
          (verdictOf now m (requestBuckets codec snap req)) true)).map
            fun x => (x.1, x.2.1, currentVerdict (outcome now m x.2.1)) := by
  rw [contenders_map _ (verdictOf now m (requestBuckets codec snap req))]
  apply least_map
  have hfacts : ∀ x ∈ contenders (requestRules codec snap req)
      (verdictOf now m (requestBuckets codec snap req)) true,
      Fits (x.2.1, currentVerdict (outcome now m x.2.1)) ∧
        admissionRank (x.2.1, currentVerdict (outcome now m x.2.1)) =
          toLex ((x.2.2.remaining : ℚ) / x.2.1.cost + 1, x.2.1.key) := by
    intro x hx
    obtain ⟨hcharged, hcost, hlow, hhigh, hcurrent⟩ :=
      contender_charged hsnap hnarrow hcounts ha hadmits hx
    have hremaining : (currentVerdict (outcome now m x.2.1)).remaining =
        x.2.2.remaining + x.2.1.cost := by
      rw [hcharged]
      exact hcurrent
    refine ⟨⟨hcost, ?_, ?_, ?_⟩, admissionRank_current rfl hcost hremaining⟩
    all_goals
      simp only [currentVerdict]
      omega
  intro x hx y hy
  have hfits := fits_contenders hsnap hnarrow hcounts ha hadmits
  rw [stricter_true (hfacts x hx).1 (hfacts y hy).1, stricter_true (hfits x hx) (hfits y hy),
    (hfacts x hx).2, (hfacts y hy).2]
  congr 1
  unfold admissionRank
  rw [Prod.Lex.toLex_lt_toLex, Prod.Lex.toLex_lt_toLex, add_lt_add_iff_right, add_left_inj]

end Headers

section Prediction

variable {codec : Codec} {snap : Snapshot} {scope : Key.Scope} {req : Request} {now : ℕ}
  {m : Entries}

/-- The fields of the headers that name the binding window. -/
def Headers.binding (h : Headers) : Text × Text × ℤ × ℤ × Text × ℤ :=
  (h.block, h.rule, h.limit, h.cost, h.algorithm, h.periodSeconds)

/-- What a rule's outcome says about the request. -/
def RuleOutcome.judgement (o : RuleOutcome) : Text × Text × Bool × Bool :=
  (o.block, o.rule, o.allowed, o.costExceedsCapacity)

/-- A simulated decision that tells what the charging one would answer. -/
structure Predicts (snap : Snapshot) (peeked decided : Decision) : Prop where
  allowed : peeked.allowed = decided.allowed
  costExceedsCapacity : peeked.costExceedsCapacity = decided.costExceedsCapacity
  rules : peeked.rules.map RuleOutcome.judgement = decided.rules.map RuleOutcome.judgement
  refused : decided.allowed = false → peeked.headers = decided.headers
  binding : Narrow snap →
    peeked.headers.map Headers.binding = decided.headers.map Headers.binding
  admitted : Narrow snap → decided.allowed = true → ∀ h ∈ peeked.headers, ∀ h' ∈ decided.headers,
    h.remaining = h'.remaining + h'.cost

theorem predicts_untouched (targeted : Bool) (skips : List Skip) (names : List Text) :
    Predicts snap (untouched targeted skips names) (untouched targeted skips names) :=
  ⟨rfl, rfl, rfl, fun _ => rfl, fun _ => rfl, fun _ _ _ h => by cases h⟩

/-- The decision of an answered request, by whether its verdicts are charged. -/
def answeredDecision (codec : Codec) (snap : Snapshot) (now : ℤ) (m : Entries) (req : Request)
    (admitting : Bool) : Decision :=
  decisionOf snap (requestRules codec snap req)
    ((requestBuckets codec snap req).map fun b => answered admitting (outcome now m b))
    (extractKeys codec snap.extraction req.token req.keys).1
    (extractKeys codec snap.extraction req.token req.keys).2

theorem evaluate_answered {S : Type} {judge : S → List Bucket → S × Answer} {s : S}
    {admitting : Bool} (ha : Answerable codec snap req) (hnil : requestBuckets codec snap req ≠ [])
    (hjudge : (judge s (requestBuckets codec snap req)).2 =
      .ok ((requestBuckets codec snap req).map fun b => answered admitting (outcome now m b))) :
    (evaluate codec snap judge s req).2 =
      .ok (answeredDecision codec snap now m req admitting) := by
  rw [evaluate_of_ne_nil hnil, if_neg (not_lt.mpr ha.length_le)]
  cases hstore : judge s (requestBuckets codec snap req) with
  | mk s' answer =>
    rw [hstore] at hjudge
    dsimp only at hjudge
    subst hjudge
    rfl

theorem ruleOutcome_judgement (r : MatchedRule) (judged : List Judged) (start : ℕ) :
    (ruleOutcome r judged start).judgement =
      (r.block, r.rule, ((judged.drop start).take r.buckets.length).all fun x => x.2.allowed,
        ((judged.drop start).take r.buckets.length).any
          fun x => !x.2.allowed && x.2.costExceedsCapacity) := by
  unfold ruleOutcome
  dsimp only
  split <;> rfl

theorem answered_refused (admitting : Bool) (o : Outcome) :
    (!o.allowed && (answered admitting o).costExceedsCapacity) =
      (!o.allowed && o.costExceeds) := by
  unfold answered
  cases o.allowed with
  | true => rfl
  | false => simp [currentVerdict]

/-- The judgement of a rule does not depend on whether the verdicts are charged. -/
theorem judgements_answered (bs : List Bucket) (rules : List MatchedRule)
    (admitting admitting' : Bool) (start : ℕ) :
    (ruleOutcomes (bs.map fun b => (b, answered admitting (outcome now m b))) start rules).map
        RuleOutcome.judgement =
      (ruleOutcomes (bs.map fun b => (b, answered admitting' (outcome now m b))) start rules).map
        RuleOutcome.judgement := by
  induction rules generalizing start with
  | nil => rfl
  | cons r rules ih =>
    simp only [ruleOutcomes, List.map_cons, ih, ruleOutcome_judgement, ← List.map_drop,
      ← List.map_take, List.all_map, List.any_map, Function.comp_def, answered_allowed,
      answered_refused]

theorem answeredDecision_eq (admitting : Bool) :
    let bs := requestBuckets codec snap req
    let rules := requestRules codec snap req
    let verdict := fun b => answered admitting (outcome now m b)
    let d := answeredDecision codec snap now m req admitting
    d.allowed = admits now m bs ∧
      (d.headers, d.costExceedsCapacity) =
        (match least (fun x y => stricter (admits now m bs) x.2 y.2)
            (contenders rules verdict (admits now m bs)) with
          | none => (none, false)
          | some (owner, x) => (some (headersOf owner x (incurable rules verdict (admits now m bs))),
            incurable rules verdict (admits now m bs))) ∧
      d.rules = ruleOutcomes (bs.map fun b => (b, verdict b)) 0 rules := by
  unfold answeredDecision decisionOf
  dsimp only
  rw [← requestBuckets, zip_outcomes, admitted_answered]
  exact ⟨rfl, aggregate_eq _ _ _, rfl⟩

theorem headers_admitted (hsnap : snap.Sound scope) (hnarrow : Narrow snap)
    (hcounts : CountsNonneg m) (ha : Answerable codec snap req)
    (hadmits : admits now m (requestBuckets codec snap req) = true) :
    let peeked := (answeredDecision codec snap now m req false).headers
    let decided := (answeredDecision codec snap now m req true).headers
    (peeked = none ∧ decided = none) ∨
      ∃ h h', peeked = some h ∧ decided = some h' ∧ h.binding = h'.binding ∧
        h.remaining = h'.remaining + h'.cost := by
  intro peeked decided
  have hpeeked : peeked = _ :=
    congrArg Prod.fst (@answeredDecision_eq codec snap req now m false).2.1
  have hdecided : decided = _ :=
    congrArg Prod.fst (@answeredDecision_eq codec snap req now m true).2.1
  have hverdict : verdictOf now m (requestBuckets codec snap req) =
      fun b => answered true (outcome now m b) := by
    funext b
    rw [verdictOf, hadmits]
  have hleast : least _ (contenders _ (fun b => answered false (outcome now m b)) true) = _ :=
    least_current hsnap hnarrow hcounts ha hadmits
  rw [hverdict] at hleast
  rw [hadmits, hleast] at hpeeked
  rw [hadmits] at hdecided
  cases hfound : least (fun x y => stricter true x.2 y.2)
      (contenders (requestRules codec snap req) (fun b => answered true (outcome now m b)) true) with
  | none =>
    rw [hfound] at hpeeked hdecided
    exact Or.inl ⟨hpeeked, hdecided⟩
  | some x =>
    rw [hfound] at hpeeked hdecided
    have hx := least_mem hfound
    rw [← hverdict] at hx
    obtain ⟨hcharged, -, -, -, hcurrent⟩ :=
      contender_charged hsnap hnarrow hcounts ha hadmits hx
    refine Or.inr ⟨_, _, hpeeked, hdecided, rfl, ?_⟩
    change (outcome now m x.2.1).remainCurrent = x.2.2.remaining + x.2.1.cost
    rw [hcharged]
    exact hcurrent

theorem costExceeds_admitted (admitting : Bool)
    (hadmits : admits now m (requestBuckets codec snap req) = true) :
    (answeredDecision codec snap now m req admitting).costExceedsCapacity = false := by
  have hexceeds : (answeredDecision codec snap now m req admitting).costExceedsCapacity = _ :=
    congrArg Prod.snd (answeredDecision_eq admitting).2.1
  rw [hadmits] at hexceeds
  rw [hexceeds]
  split <;> rfl

theorem predicts_answered (hsnap : snap.Sound scope) (hcounts : CountsNonneg m)
    (ha : Answerable codec snap req) :
    Predicts snap (answeredDecision codec snap now m req false)
      (answeredDecision codec snap now m req
        (admits now m (requestBuckets codec snap req))) := by
  cases hadmits : admits now m (requestBuckets codec snap req) with
  | false =>
    refine ⟨rfl, rfl, rfl, fun _ => rfl, fun _ => rfl, fun _ hyes => ?_⟩
    rw [(answeredDecision_eq false).1, hadmits] at hyes
    cases hyes
  | true =>
    have hallowed : ∀ admitting,
        (answeredDecision codec snap now m req admitting).allowed = true := by
      intro admitting
      rw [(answeredDecision_eq admitting).1, hadmits]
    refine ⟨?_, ?_, ?_, ?_, ?_, ?_⟩
    · rw [hallowed, hallowed]
    · rw [costExceeds_admitted _ hadmits, costExceeds_admitted _ hadmits]
    · rw [(answeredDecision_eq false).2.2, (answeredDecision_eq true).2.2]
      exact judgements_answered _ _ _ _ _
    · intro hno
      rw [hallowed] at hno
      cases hno
    · intro hnarrow
      rcases headers_admitted hsnap hnarrow hcounts ha hadmits with
        ⟨hpeek, hdecide⟩ | ⟨h, h', hpeek, hdecide, hbinding, -⟩
      · rw [hpeek, hdecide]
      · rw [hpeek, hdecide, Option.map_some, Option.map_some, hbinding]
    · intro hnarrow _ h hh h' hh'
      rcases headers_admitted hsnap hnarrow hcounts ha hadmits with
        ⟨hpeek, -⟩ | ⟨g, g', hpeek, hdecide, -, hremaining⟩
      · cases hpeek.symm.trans hh
      · obtain rfl := Option.some.inj (hpeek.symm.trans hh)
        obtain rfl := Option.some.inj (hdecide.symm.trans hh')
        exact hremaining

/-- The two calls fail alike, or one decision predicts the other. -/
def Forecasts (snap : Snapshot) (peeked decided : Except Failure Decision) : Prop :=
  match peeked, decided with
  | .error e, .error e' => e = e'
  | .ok d, .ok d' => Predicts snap d d'
  | _, _ => False

theorem forecasts_request (hsnap : snap.Sound scope) (hcounts : CountsNonneg m) :
    Forecasts snap (peekRequest codec snap now m req).2 (decideRequest codec snap now m req).2 := by
  have hreg : Registered (requestBuckets codec snap req) := registered_evaluate hsnap
  unfold peekRequest decideRequest
  by_cases hnil : requestBuckets codec snap req = []
  · obtain ⟨targeted, skips, names, heq⟩ := @evaluate_of_nil Entries _ _ _ hnil
    rw [heq, heq]
    exact predicts_untouched _ _ _
  · by_cases ha : Answerable codec snap req
    · rw [@evaluate_answered _ _ _ now m _ _ _ false ha hnil (storePeek_snd ha.guard hreg),
        evaluate_answered ha hnil (storeDecide_snd ha.guard hreg)]
      exact predicts_answered hsnap hcounts ha
    · rw [evaluate_of_ne_nil hnil, evaluate_of_ne_nil hnil]
      split_ifs with hlen
      · rfl
      · cases hg : guardBuckets (requestBuckets codec snap req) with
        | ok u => exact absurd ⟨not_lt.mp hlen, hg, hreg⟩ ha
        | error msg =>
          rw [storePeek, storeDecide, hg]
          rfl

end Prediction

section Simulation

/-- Simulation predicts the decision and moves nothing: peeking and deciding at one instant fail alike
or one decision predicts the other, and peeks left out of a run change no answer of the rest. -/
theorem peek_predicts (namespaceName domain : Text) (p : Option Model.Policy) (codec : Codec)
    {t : ℕ} {m : Entries} (hreach : Reachable t m) :
    (∀ req, Forecasts (compile namespaceName domain p).1
      (peekRequest codec (compile namespaceName domain p).1 t m req).2
      (decideRequest codec (compile namespaceName domain p).1 t m req).2) ∧
    ∀ marked : List (Bool × Event), MonotoneFrom (fun x => x.2.now) t marked →
      (∀ x ∈ marked, x.1 = true → x.2.IsPeek) →
      answersUnmarked marked (runs perform m (marked.map Prod.snd)).2 =
        (runs perform m ((marked.filter fun x => !x.1).map Prod.snd)).2 := by
  obtain ⟨scope, hsnap⟩ := compile_sound namespaceName domain p
  constructor
  · intro req
    exact forecasts_request hsnap hreach.kept.countsNonneg
  · intro marked hclock hpeeks
    exact answers_without_peeks hreach marked hclock hpeeks

theorem peek_predicts_shop :
    let snap := (compileShop shopPolicy).1
    let peek : Event :=
      ⟨5, .peek .inert (ascii "prod") (ascii "shop") (some shopPolicy) globexRequest⟩
    let decide : Event :=
      ⟨7, .decide .inert (ascii "prod") (ascii "shop") (some shopPolicy) globexRequest⟩
    Narrow snap ∧
      Forecasts snap (peekRequest .inert snap 0 globexStore globexRequest).2
        (decideRequest .inert snap 0 globexStore globexRequest).2 ∧
      answersUnmarked [(true, peek), (false, decide)] (runs perform globexStore [peek, decide]).2 =
        (runs perform globexStore [decide]).2 := by
  intro snap peek decide
  obtain ⟨hforecast, herase⟩ := peek_predicts (ascii "prod") (ascii "shop") (some shopPolicy) .inert
    ((Reachable.empty 0).decide _ _ _ _ globexRequest)
  refine ⟨?_, hforecast globexRequest, herase [(true, peek), (false, decide)] ?_ ?_⟩
  · unfold Narrow
    decide +kernel
  · exact ⟨Nat.zero_le 5, show 5 ≤ 7 by omega, trivial⟩
  · intro x hx hmark
    rcases List.mem_cons.mp hx with rfl | hx
    · exact ⟨_, _, _, _, _, rfl⟩
    · obtain rfl := List.mem_singleton.mp hx
      cases hmark

/-- Where the product with the cost of the other window comes to wrap around, the charge
decides whether it does, and the two calls name different windows. -/
theorem peek_predicts_brink :
    let snap := (compileShop (widePolicy 61)).1
    let req : Request := ⟨ascii "/", ascii "GET", [], ∅, 0⟩
    let named (a : Except Failure Decision) : Option (Bool × Option (Text × ℤ × ℤ)) :=
      a.toOption.map fun d => (d.allowed, d.headers.map fun h => (h.rule, h.remaining, h.cost))
    blocking (compileShop (widePolicy 61)).2 = false ∧
      named (peekRequest .inert snap 0 ∅ req).2 = some (true, some (ascii "wide", 2 ^ 61, 1)) ∧
      named (decideRequest .inert snap 0 ∅ req).2 = some (true, some (ascii "units", 6, 4)) := by
  refine ⟨?_, ?_, ?_⟩
  · decide +kernel
  · decide +kernel
  · decide +kernel

end Simulation

end Ratelimit.Engine
