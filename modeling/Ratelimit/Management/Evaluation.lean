import Ratelimit.Compile.References
import Ratelimit.Management.Applicability

/-!
# What the annotations of a block say

The three-valued evaluation of a rule decides one of two plain properties, or neither. The
rules that can keep a rule from applying are exactly those that matter to the engine. So where
the scope is right about the keys of a block, its notes are right about its rules.
-/
namespace Ratelimit.Management

open Library Compile Match Ruleview

section Rule

variable {block : Block} {sc : Scope} {rule : Rule}

/-- The supplied identity refutes the rule: it fails a condition, or leaves an axis
without a single value. -/
def Refuted (block : Block) (sc : Scope) (rule : Rule) : Prop :=
  (∃ p ∈ rule.predicates, conditionState block p sc = .failed) ∨
    ∃ axis ∈ rule.counters, (sc.lookup block axis).known = true ∧
      (sc.lookup block axis).values.length ≠ 1

def AxisSure (block : Block) (sc : Scope) (axis : Text) : Prop :=
  if (sc.lookup block axis).known = true then (sc.lookup block axis).values.length = 1
  else (sc.lookup block axis).nonEmpty = true

/-- The supplied identity assures the rule: it meets every condition, and every
axis is sure. -/
def Assured (block : Block) (sc : Scope) (rule : Rule) : Prop :=
  (∀ p ∈ rule.predicates, conditionState block p sc = .satisfied) ∧
    ∀ axis ∈ rule.counters, AxisSure block sc axis

theorem conditionGates_eq_none_iff {ps : List Predicate} {undecided : List Text} :
    conditionGates block sc ps undecided = none ↔
      ∃ p ∈ ps, conditionState block p sc = .failed := by
  induction ps generalizing undecided with
  | nil => simp [conditionGates]
  | cons p ps ih =>
    rw [conditionGates]
    cases hstate : conditionState block p sc with
    | failed => simp [hstate]
    | satisfied => simp [hstate, ih]
    | undecided =>
      dsimp only
      split_ifs <;> simp [hstate, ih]

theorem conditionGates_eq_nil_iff {ps : List Predicate} :
    conditionGates block sc ps [] = some [] ↔
      ∀ p ∈ ps, conditionState block p sc = .satisfied := by
  induction ps with
  | nil => simp [conditionGates]
  | cons p ps ih =>
    rw [conditionGates]
    cases hstate : conditionState block p sc <;> simp [hstate, ih]

theorem axisGates_eq_none_iff {undecided axes : List Text} :
    axisGates block sc undecided axes = none ↔
      ∃ axis ∈ axes, (sc.lookup block axis).known = true ∧
        (sc.lookup block axis).values.length ≠ 1 := by
  induction axes with
  | nil => simp [axisGates]
  | cons axis axes ih =>
    rw [axisGates]
    split_ifs with hknown hone hsure
    · simp [ih, hknown, hone]
    · simp [hknown, hone]
    · simp [ih, hknown]
    · simp [ih, hknown]

theorem axisGates_eq_nil_iff {axes : List Text} :
    axisGates block sc [] axes = some [] ↔ ∀ axis ∈ axes, AxisSure block sc axis := by
  induction axes with
  | nil => simp [axisGates]
  | cons axis axes ih =>
    rw [axisGates]
    split_ifs with hknown hone hsure
    · simp [ih, AxisSure, hknown, hone]
    · simp [AxisSure, hknown, hone]
    · simp only [List.not_mem_nil, or_false] at hsure
      simp [ih, AxisSure, hknown, hsure]
    · simp only [List.not_mem_nil, or_false] at hsure
      simp [AxisSure, hknown, hsure]

theorem not_assured_of_refuted (h : Refuted block sc rule) : ¬ Assured block sc rule := by
  rintro ⟨hconditions, haxes⟩
  rcases h with ⟨p, hp, hfailed⟩ | ⟨axis, haxis, hknown, hlength⟩
  · rw [hconditions p hp] at hfailed
    cases hfailed
  · have hsure := haxes axis haxis
    rw [AxisSure, if_pos hknown] at hsure
    exact hlength hsure

theorem evaluateRule_cases (block : Block) (sc : Scope) (rule : Rule) :
    (Refuted block sc rule ∧ evaluateRule block sc rule = (.failed, [])) ∨
    (Assured block sc rule ∧ evaluateRule block sc rule = (.satisfied, [])) ∨
    (¬ Refuted block sc rule ∧ ¬ Assured block sc rule ∧
      ∃ gates, gates ≠ [] ∧ evaluateRule block sc rule = (.undecided, gates)) := by
  cases hgates : conditionGates block sc rule.predicates [] with
  | none =>
    refine Or.inl ⟨Or.inl (conditionGates_eq_none_iff.mp hgates), ?_⟩
    rw [evaluateRule, hgates]
  | some gates =>
    cases hmore : axisGates block sc (gates.map ApplicabilityGate.key) rule.counters with
    | none =>
      refine Or.inl ⟨Or.inr (axisGates_eq_none_iff.mp hmore), ?_⟩
      simp only [evaluateRule, hgates, hmore]
    | some more =>
      by_cases hempty : gates ++ more = []
      · obtain ⟨rfl, rfl⟩ := List.append_eq_nil_iff.mp hempty
        refine Or.inr (Or.inl ⟨⟨?_, ?_⟩, ?_⟩)
        · exact conditionGates_eq_nil_iff.mp hgates
        · exact axisGates_eq_nil_iff.mp hmore
        · simp only [evaluateRule, hgates, hmore, hempty, if_true]
      · refine Or.inr (Or.inr ⟨?_, ?_, gates ++ more, hempty, ?_⟩)
        · rintro (hcondition | haxis)
          · simp [conditionGates_eq_none_iff.mpr hcondition] at hgates
          · simp [axisGates_eq_none_iff.mpr haxis] at hmore
        · rintro ⟨hconditions, haxes⟩
          obtain rfl : [] = gates :=
            Option.some.inj ((conditionGates_eq_nil_iff.mpr hconditions).symm.trans hgates)
          obtain rfl : [] = more :=
            Option.some.inj ((axisGates_eq_nil_iff.mpr haxes).symm.trans hmore)
          exact hempty rfl
        · simp only [evaluateRule, hgates, hmore, hempty, if_false]

theorem preemptGates_eq_none_iff {others : List Rule} :
    preemptGates block sc others = none ↔ ∃ other ∈ others, Assured block sc other := by
  induction others with
  | nil => simp [preemptGates]
  | cons other others ih =>
    rw [preemptGates]
    rcases evaluateRule_cases block sc other with
      ⟨hrefuted, heq⟩ | ⟨hassured, heq⟩ | ⟨-, hopen, gates, -, heq⟩
    · simp [heq, ih, not_assured_of_refuted hrefuted]
    · simp [heq, hassured]
    · simp [heq, ih, hopen]

theorem preemptGates_eq_nil_iff {others : List Rule} :
    preemptGates block sc others = some [] ↔ ∀ other ∈ others, Refuted block sc other := by
  induction others with
  | nil => simp [preemptGates]
  | cons other others ih =>
    rw [preemptGates]
    rcases evaluateRule_cases block sc other with
      ⟨hrefuted, heq⟩ | ⟨hassured, heq⟩ | ⟨hopen, -, gates, -, heq⟩
    · simp [heq, ih, hrefuted]
    · have hnot : ¬ Refuted block sc other := fun h => not_assured_of_refuted h hassured
      simp [heq, hnot]
    · simp [heq, hopen]

variable {i : ℕ}

theorem preempt_eq_always_iff : (preempt block sc i rule).1 = .always ↔
    Assured block sc rule ∧ ∀ other ∈ preemptors block i rule, Refuted block sc other := by
  rw [← preemptGates_eq_nil_iff]
  unfold preempt
  rcases evaluateRule_cases block sc rule with
    ⟨hrefuted, heq⟩ | ⟨hassured, heq⟩ | ⟨-, hopen, gates, hgates, heq⟩
  · simp [heq, not_assured_of_refuted hrefuted]
  · rcases preemptGates block sc (preemptors block i rule) with - | - | - <;>
      simp [heq, hassured]
  · rcases preemptGates block sc (preemptors block i rule) with - | more <;>
      simp [heq, hopen, hgates]

theorem preempt_eq_never_iff : (preempt block sc i rule).1 = .never ↔
    Refuted block sc rule ∨ ∃ other ∈ preemptors block i rule, Assured block sc other := by
  rw [← preemptGates_eq_none_iff]
  unfold preempt
  rcases evaluateRule_cases block sc rule with
    ⟨hrefuted, heq⟩ | ⟨hassured, heq⟩ | ⟨hopen, -, gates, hgates, heq⟩
  · simp [heq, hrefuted]
  · have hnot : ¬ Refuted block sc rule := fun h => not_assured_of_refuted h hassured
    rcases preemptGates block sc (preemptors block i rule) with - | - | - <;> simp [heq, hnot]
  · rcases preemptGates block sc (preemptors block i rule) with - | more <;>
      simp [heq, hopen, hgates]

end Rule

section ScopeFits

/-- The scope is right about a key, as the block sees it in a request. -/
structure ScopeFits (block : Block) (sc : Scope) (ctx : BlockCtx) (k : Text) : Prop where
  known : (sc.lookup block k).known = true → (ctx.valueOf k).Perm (sc.lookup block k).values
  present : (sc.lookup block k).nonEmpty = true → (ctx.valueOf k).length = 1

variable {block : Block} {sc : Scope} {ctx : BlockCtx} {rule : Rule} {p : Predicate}

theorem boolState_eq_satisfied_iff {ok : Bool} : boolState ok = .satisfied ↔ ok = true := by
  cases ok <;> simp [boolState]

theorem boolState_eq_failed_iff {ok : Bool} : boolState ok = .failed ↔ ok = false := by
  cases ok <;> simp [boolState]

theorem setState_perm {set set' : List Text} (h : set.Perm set') :
    setState p set = setState p set' := by
  have hone : set = [p.value] ↔ set' = [p.value] := by
    constructor
    · rintro rfl
      exact List.perm_singleton.mp h.symm
    · rintro rfl
      exact List.perm_singleton.mp h
  unfold setState
  cases p.operator with
  | equals => simp only [hone]
  | isIn => simp only [h.any_eq]
  | inGroup => simp only [h.any_eq]
  | contains => simp only [h.mem_iff]
  | exist => simp only [h.length_eq]
  | doesNotExist => simp only [h.length_eq]
  | other t ht => rfl

theorem setState_eq (hknown : ∀ t ht, p.operator ≠ .other t ht) :
    setState p (ctx.valueOf p.key) = boolState (predicateHolds ctx p) := by
  unfold setState predicateHolds
  cases hop : p.operator with
  | other t ht => exact absurd hop (hknown t ht)
  | _ => rfl

theorem conditionState_sound (h : ScopeFits block sc ctx p.key) :
    (conditionState block p sc = .satisfied → predicateHolds ctx p = true) ∧
      (conditionState block p sc = .failed → predicateHolds ctx p = false) := by
  unfold conditionState
  dsimp only
  split_ifs with hvalues
  · rw [← setState_perm (h.known hvalues)]
    cases hop : p.operator with
    | other t ht => simp [setState, hop]
    | _ =>
      rw [setState_eq (by simp [hop]), boolState_eq_satisfied_iff, boolState_eq_failed_iff]
      exact ⟨id, id⟩
  · unfold presenceState
    split_ifs with hempty
    · simp
    · have hone := h.present (by simpa using hempty)
      unfold predicateHolds
      cases p.operator <;> simp [hone]

theorem ruleMatches_of_assured (hfits : rule.Reads (ScopeFits block sc ctx))
    (h : Assured block sc rule) : ruleMatches ctx rule = true := by
  unfold ruleMatches
  rw [Bool.and_eq_true, List.all_eq_true, List.all_eq_true]
  constructor
  · intro p hp
    exact (conditionState_sound (hfits.predicates p hp)).1 (h.1 p hp)
  · intro axis haxis
    have hsure := h.2 axis haxis
    have hfit := hfits.counters axis haxis
    rw [AxisSure] at hsure
    rw [decide_eq_true_eq]
    split_ifs at hsure with hknown
    · rw [(hfit.known hknown).length_eq, hsure]
    · exact hfit.present hsure

theorem ruleMatches_of_refuted (hfits : rule.Reads (ScopeFits block sc ctx))
    (h : Refuted block sc rule) : ruleMatches ctx rule = false := by
  unfold ruleMatches
  rw [Bool.and_eq_false_iff, List.all_eq_false, List.all_eq_false]
  rcases h with ⟨p, hp, hfailed⟩ | ⟨axis, haxis, hknown, hlength⟩
  · refine Or.inl ⟨p, hp, ?_⟩
    simp [(conditionState_sound (hfits.predicates p hp)).2 hfailed]
  · refine Or.inr ⟨axis, haxis, ?_⟩
    have hperm := (hfits.counters axis haxis).known hknown
    simpa [hperm.length_eq] using hlength

end ScopeFits

section Engine

variable {block : Block} {ctx : BlockCtx} {rule : Rule} {i : ℕ}

theorem name_of_mem_evalFirstMatch {rules : List Rule} {m : MatchedRule}
    (hm : m ∈ evalFirstMatch block ctx rules) : m.rule ∈ rules.map Rule.name := by
  induction rules with
  | nil => simp [evalFirstMatch] at hm
  | cons r rest ih =>
    rw [evalFirstMatch] at hm
    rw [List.map_cons, List.mem_cons]
    split_ifs at hm
    · exact Or.inr (ih hm)
    · simp at hm
    · exact Or.inl (congrArg MatchedRule.rule (List.mem_singleton.mp hm))
    · rcases List.mem_cons.mp hm with rfl | hm
      · exact Or.inl rfl
      · exact Or.inr (ih hm)

theorem exists_mem_evalFirstMatch_iff (block : Block) (ctx : BlockCtx) {before after : List Rule}
    (hnodup : ((before ++ rule :: after).map Rule.name).Nodup) :
    (∃ m ∈ evalFirstMatch block ctx (before ++ rule :: after), m.rule = rule.name) ↔
      ruleMatches ctx rule = true ∧ rule.behavior ≠ .bypass ∧
        ∀ other ∈ before.filter fun other => other.behavior ≠ .shadow,
          ruleMatches ctx other = false := by
  induction before with
  | nil =>
    have hfresh : rule.name ∉ after.map Rule.name := (List.nodup_cons.mp hnodup).1
    have hrest : ¬ ∃ m ∈ evalFirstMatch block ctx after, m.rule = rule.name := by
      rintro ⟨m, hm, hname⟩
      exact hfresh (hname ▸ name_of_mem_evalFirstMatch hm)
    rw [List.nil_append, evalFirstMatch]
    split_ifs with hmatch hbypass hshadow
    · simpa [hmatch] using hrest
    · simp [hbypass]
    · simpa [hbypass, matchedRule] using hmatch
    · simpa [hbypass, matchedRule] using hmatch
  | cons r before ih =>
    rw [List.cons_append, List.map_cons, List.nodup_cons] at hnodup
    have hne : r.name ≠ rule.name := by
      intro heq
      exact hnodup.1 (heq ▸ List.mem_map_of_mem (by simp))
    have ih := ih hnodup.2
    rw [List.cons_append, evalFirstMatch]
    split_ifs with hmatch hbypass hshadow
    · rw [ih]
      by_cases hs : r.behavior = .shadow <;> simp [hs, hmatch]
    · simp [hbypass, hmatch]
    · simp [hshadow, hmatch, matchedRule, hne]
    · rw [not_not] at hshadow
      simp only [List.mem_cons, exists_eq_or_imp, matchedRule, hne, false_or, ih]
      simp [hshadow]

theorem exists_mem_evalAll_iff (hnodup : (block.rules.map Rule.name).Nodup)
    (hself : ∀ r ∈ block.rules, r.name ∉ r.replacedRules) (hi : block.rules[i]? = some rule) :
    (∃ m ∈ evalAll block ctx, m.rule = rule.name) ↔
      ruleMatches ctx rule = true ∧ rule.behavior ≠ .bypass ∧
        ∀ other ∈ (block.rules.eraseIdx i).filter fun other =>
          other.behavior ≠ .shadow ∧ rule.name ∈ other.replacedRules,
            ruleMatches ctx other = false := by
  have hmem : rule ∈ block.rules := List.mem_of_getElem? hi
  have hunique : ∀ r ∈ block.rules, r.name = rule.name → r = rule :=
    fun r hr hname => List.inj_on_of_nodup_map hnodup hr hmem hname
  have herase : ∀ other, other ∈ block.rules → rule.name ∈ other.replacedRules →
      other ∈ block.rules.eraseIdx i := by
    intro other hother hreplaces
    obtain ⟨j, hj⟩ := List.mem_iff_getElem?.mp hother
    rw [List.mem_eraseIdx_iff_getElem?]
    refine ⟨j, ?_, hj⟩
    rintro rfl
    obtain rfl : rule = other := Option.some.inj (hi.symm.trans hj)
    exact hself rule hmem hreplaces
  rw [evalAll_eq]
  constructor
  · rintro ⟨m, hm, hname⟩
    obtain ⟨r, hr, rfl⟩ := List.mem_map.mp hm
    simp only [matching, List.mem_filter, decide_eq_true_eq] at hr
    obtain ⟨⟨hrules, hmatch⟩, hbypass, hfree⟩ := hr
    obtain rfl := hunique r hrules hname
    refine ⟨hmatch, hbypass, fun other hother => ?_⟩
    simp only [List.mem_filter, decide_eq_true_eq] at hother
    obtain ⟨hother, hshadow, hreplaces⟩ := hother
    by_contra hmatches
    refine hfree (List.mem_flatMap.mpr ⟨other, ?_, hreplaces⟩)
    simp only [matching, List.mem_filter, decide_eq_true_eq]
    exact ⟨⟨List.mem_of_mem_eraseIdx hother, by simpa using hmatches⟩, hshadow⟩
  · rintro ⟨hmatch, hbypass, hfree⟩
    refine ⟨matchedRule block ctx rule, List.mem_map_of_mem ?_, rfl⟩
    simp only [matching, List.mem_filter, decide_eq_true_eq]
    refine ⟨⟨hmem, hmatch⟩, hbypass, fun hsuppressed => ?_⟩
    obtain ⟨other, hother, hreplaces⟩ := List.mem_flatMap.mp hsuppressed
    simp only [matching, List.mem_filter, decide_eq_true_eq] at hother
    obtain ⟨⟨hother, hmatches⟩, hshadow⟩ := hother
    have hnot := hfree other (by
      simpa using ⟨herase other hother hreplaces, hshadow, hreplaces⟩)
    simp [hnot] at hmatches

/-- The engine applies a rule exactly where it matches, counts, and no rule that can
preempt it matches. -/
theorem exists_mem_evalBlock_iff (hnodup : (block.rules.map Rule.name).Nodup)
    (hself : ∀ r ∈ block.rules, r.name ∉ r.replacedRules) (hi : block.rules[i]? = some rule) :
    (∃ m ∈ evalBlock block ctx, m.rule = rule.name) ↔
      ruleMatches ctx rule = true ∧ rule.behavior ≠ .bypass ∧
        ∀ other ∈ preemptors block i rule, ruleMatches ctx other = false := by
  unfold evalBlock preemptors
  split_ifs with hmode
  · have hsplit : block.rules = block.rules.take i ++ rule :: block.rules.drop (i + 1) := by
      obtain ⟨hlt, heq⟩ := List.getElem?_eq_some_iff.mp hi
      rw [← heq, ← List.drop_eq_getElem_cons, List.take_append_drop]
    have hiff := exists_mem_evalFirstMatch_iff block ctx (hsplit ▸ hnodup)
    rwa [← hsplit] at hiff
  · exact exists_mem_evalAll_iff hnodup hself hi

end Engine

section Sound

variable {block : Block} {sc : Scope} {ctx : BlockCtx} {rule : Rule} {i : ℕ}

theorem mem_of_mem_preemptors {other : Rule} (h : other ∈ preemptors block i rule) :
    other ∈ block.rules := by
  unfold preemptors at h
  split_ifs at h
  · exact List.mem_of_mem_take (List.mem_filter.mp h).1
  · exact List.mem_of_mem_eraseIdx (List.mem_filter.mp h).1

/-- Where the scope is right about the keys that a rule and those before it read, the annotation of
the rule is right. -/
theorem preempt_sound (hnodup : (block.rules.map Rule.name).Nodup)
    (hself : ∀ r ∈ block.rules, r.name ∉ r.replacedRules) (hi : block.rules[i]? = some rule)
    (hcounts : rule.behavior ≠ .bypass)
    (hfits : ∀ r ∈ rule :: preemptors block i rule, r.Reads (ScopeFits block sc ctx)) :
    ((preempt block sc i rule).1 = .always → ∃ m ∈ evalBlock block ctx, m.rule = rule.name) ∧
      ((preempt block sc i rule).1 = .never →
        ¬ ∃ m ∈ evalBlock block ctx, m.rule = rule.name) := by
  have hrule := hfits rule List.mem_cons_self
  have hother := fun other ho => hfits other (List.mem_cons_of_mem rule ho)
  rw [preempt_eq_always_iff, preempt_eq_never_iff, exists_mem_evalBlock_iff hnodup hself hi]
  constructor
  · rintro ⟨hassured, hothers⟩
    refine ⟨ruleMatches_of_assured hrule hassured, hcounts, fun other ho => ?_⟩
    exact ruleMatches_of_refuted (hother other ho) (hothers other ho)
  · rintro hnever ⟨hmatch, -, hothers⟩
    rcases hnever with hrefuted | ⟨other, ho, hassured⟩
    · rw [ruleMatches_of_refuted hrule hrefuted] at hmatch
      cases hmatch
    · have hmatches := ruleMatches_of_assured (hother other ho) hassured
      rw [hothers other ho] at hmatches
      cases hmatches

end Sound

end Ratelimit.Management
