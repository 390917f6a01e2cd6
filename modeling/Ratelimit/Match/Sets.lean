import Ratelimit.Library.Maps
import Ratelimit.Match.Matcher

/-!
# Matching by the sets of values

The conditions of a rule ask for members of a key's set of values, and for its size where the
rule counts by the key or compares it with one value. The size is read off a list, so a list
that repeats its one value hides the rule.
-/
namespace Ratelimit.Match

open Compile Library

section Once

def once (keys : Keys) : Keys := filterMapEntries (fun _ values => some values.dedup) keys

def BlockCtx.once (ctx : BlockCtx) : BlockCtx := { ctx with keys := Match.once ctx.keys }

variable {ctx ctx' : BlockCtx} {k : Text}

theorem lookup_once (keys : Keys) :
    ((once keys).lookup k).getD [] = ((keys.lookup k).getD []).dedup := by
  rw [once, lookup_filterMapEntries]
  cases keys.lookup k <;> simp

theorem valueOf_once : ctx.once.valueOf k = (ctx.valueOf k).dedup := by
  unfold BlockCtx.valueOf BlockCtx.once
  dsimp only
  split_ifs
  · simp
  · simp
  · cases ctx.captures.lookup k with
    | some v => simp
    | none => exact lookup_once ctx.keys

/-- The keys whose number of values a rule asks for. -/
def sizedKeys (rule : Rule) : List Text :=
  rule.counters ++ (rule.predicates.filter fun p => p.operator = .equals).map Predicate.key

def RepeatsOne (values : List Text) : Prop := 2 ≤ values.length ∧ values.dedup.length = 1

theorem length_eq_one_iff {values : List Text} :
    values.length = 1 ↔ values.dedup.length = 1 ∧ ¬RepeatsOne values := by
  constructor
  · intro h
    obtain ⟨v, rfl⟩ := List.length_eq_one_iff.mp h
    simp [RepeatsOne]
  · rintro ⟨hdedup, hrepeats⟩
    have hshort : ¬2 ≤ values.length := fun hlong => hrepeats ⟨hlong, hdedup⟩
    have hle := (List.dedup_sublist values).length_le
    omega

theorem eq_singleton_iff {values : List Text} {v : Text} :
    values = [v] ↔ values.dedup = [v] ∧ ¬RepeatsOne values := by
  constructor
  · rintro rfl
    simp [RepeatsOne]
  · rintro ⟨hdedup, hrepeats⟩
    have hone : values.length = 1 := length_eq_one_iff.mpr ⟨by rw [hdedup]; rfl, hrepeats⟩
    obtain ⟨w, rfl⟩ := List.length_eq_one_iff.mp hone
    simpa using hdedup

theorem predicateHolds_iff_once {p : Predicate} : predicateHolds ctx p = true ↔
    predicateHolds ctx.once p = true ∧
      (p.operator = .equals → ¬RepeatsOne (ctx.valueOf p.key)) := by
  unfold predicateHolds
  rw [valueOf_once]
  cases p.operator with
  | equals =>
    dsimp only
    rw [decide_eq_true_eq, decide_eq_true_eq, eq_singleton_iff]
    simp
  | isIn => simp
  | inGroup => simp
  | contains => simp
  | exist => simp [List.length_pos_iff]
  | doesNotExist => simp
  | other _ _ => simp

/-- A rule matches exactly where it matches on the sets and no list hides it. -/
theorem ruleMatches_iff_once {rule : Rule} : ruleMatches ctx rule = true ↔
    ruleMatches ctx.once rule = true ∧ ∀ k ∈ sizedKeys rule, ¬RepeatsOne (ctx.valueOf k) := by
  simp only [ruleMatches, Bool.and_eq_true, List.all_eq_true, decide_eq_true_eq, valueOf_once,
    sizedKeys, List.mem_append, List.mem_map, List.mem_filter]
  constructor
  · rintro ⟨hpredicates, haxes⟩
    refine ⟨⟨fun p hp => (predicateHolds_iff_once.mp (hpredicates p hp)).1,
      fun axis haxis => (length_eq_one_iff.mp (haxes axis haxis)).1⟩, ?_⟩
    rintro k (hk | ⟨p, ⟨hp, hequals⟩, rfl⟩)
    · exact (length_eq_one_iff.mp (haxes k hk)).2
    · exact (predicateHolds_iff_once.mp (hpredicates p hp)).2 hequals
  · rintro ⟨⟨hpredicates, haxes⟩, hshown⟩
    refine ⟨fun p hp => ?_, fun axis haxis => ?_⟩
    · refine predicateHolds_iff_once.mpr ⟨hpredicates p hp, fun hequals => ?_⟩
      exact hshown p.key (Or.inr ⟨p, ⟨hp, hequals⟩, rfl⟩)
    · exact length_eq_one_iff.mpr ⟨haxes axis haxis, hshown axis (Or.inl haxis)⟩

end Once

section SameSets

variable {ctx ctx' : BlockCtx}

/-- Two views of one request in which every key has the same set of values. -/
structure SameSets (ctx ctx' : BlockCtx) : Prop where
  values : ∀ k, (ctx.valueOf k).toFinset = (ctx'.valueOf k).toFinset
  cost : ctx.cost = ctx'.cost

theorem SameSets.perm (h : SameSets ctx ctx') (k : Text) :
    (ctx.valueOf k).dedup.Perm (ctx'.valueOf k).dedup := by
  refine List.perm_of_nodup_nodup_toFinset_eq (List.nodup_dedup _) (List.nodup_dedup _) ?_
  ext v
  have hmem := Finset.ext_iff.mp (h.values k) v
  simpa using hmem

theorem SameSets.predicateHolds (h : SameSets ctx ctx') (p : Predicate) :
    predicateHolds ctx.once p = Match.predicateHolds ctx'.once p := by
  have hperm := h.perm p.key
  unfold Match.predicateHolds
  rw [valueOf_once, valueOf_once]
  generalize (ctx.valueOf p.key).dedup = set at hperm
  generalize (ctx'.valueOf p.key).dedup = set' at hperm
  cases p.operator with
  | equals =>
    refine decide_eq_decide.mpr ⟨?_, ?_⟩
    · rintro rfl
      exact (List.singleton_perm.mp hperm).symm
    · rintro rfl
      exact List.perm_singleton.mp hperm
  | isIn => exact hperm.any_eq
  | inGroup => exact hperm.any_eq
  | contains => exact decide_eq_decide.mpr hperm.mem_iff
  | exist =>
    dsimp only
    rw [hperm.length_eq]
  | doesNotExist =>
    dsimp only
    rw [hperm.length_eq]
  | other _ _ => rfl

theorem SameSets.ruleMatches_once (h : SameSets ctx ctx') (rule : Rule) :
    ruleMatches ctx.once rule = ruleMatches ctx'.once rule := by
  unfold ruleMatches
  congr 1
  · congr 1
    exact funext h.predicateHolds
  · congr 1
    funext axis
    rw [valueOf_once, valueOf_once, (h.perm axis).length_eq]

theorem SameSets.matchedRule (h : SameSets ctx ctx') (block : Block) {rule : Rule}
    (hmatches : ruleMatches ctx rule = true) (hmatches' : ruleMatches ctx' rule = true) :
    matchedRule block ctx rule = Match.matchedRule block ctx' rule := by
  have haxes : axesOf ctx rule = axesOf ctx' rule := by
    refine List.map_congr_left fun axis haxis => ?_
    simp only [ruleMatches, Bool.and_eq_true, List.all_eq_true, decide_eq_true_eq] at hmatches hmatches'
    obtain ⟨v, hv⟩ := List.length_eq_one_iff.mp (hmatches.2 axis haxis)
    obtain ⟨w, hw⟩ := List.length_eq_one_iff.mp (hmatches'.2 axis haxis)
    have hset := h.values axis
    rw [hv, hw] at hset ⊢
    simpa using hset
  have hbuckets : ∀ rate, bucketOf ctx rule rate = bucketOf ctx' rule rate := by
    intro rate
    rw [bucketOf, bucketOf, haxes, h.cost]
  rw [Match.matchedRule, Match.matchedRule, h.cost, funext hbuckets]

theorem SameSets.evalBlock (h : SameSets ctx ctx') (block : Block)
    (hmatches : ∀ rule ∈ block.rules, ruleMatches ctx rule = ruleMatches ctx' rule) :
    evalBlock block ctx = Match.evalBlock block ctx' := by
  have hmatching : matching ctx block.rules = matching ctx' block.rules :=
    List.filter_congr hmatches
  have happlied : appliedRules block ctx = appliedRules block ctx' := by
    unfold appliedRules suppressedBy
    rw [hmatching]
  rw [evalBlock_eq, evalBlock_eq, ← happlied]
  refine List.map_congr_left fun rule hrule => ?_
  obtain ⟨hmem, htrue⟩ :=
    List.mem_filter.mp ((appliedRules_sublist_matching block ctx).subset hrule)
  exact h.matchedRule block htrue (hmatches rule hmem ▸ htrue)

theorem sameSets_once (ctx : BlockCtx) : SameSets ctx ctx.once := by
  refine ⟨fun k => ?_, rfl⟩
  rw [valueOf_once]
  ext v
  simp

/-- A block whose rules no list hides evaluates as on the sets. -/
theorem evalBlock_once {block : Block} (h : ∀ rule ∈ block.rules,
    ruleMatches ctx.once rule = true → ∀ k ∈ sizedKeys rule, ¬RepeatsOne (ctx.valueOf k)) :
    evalBlock block ctx = evalBlock block ctx.once := by
  refine (sameSets_once ctx).evalBlock block fun rule hrule => ?_
  rw [Bool.eq_iff_iff, ruleMatches_iff_once]
  exact and_iff_left_of_imp (h rule hrule)

end SameSets

/-- A rule that counts by an array key, which a template of its block captures. -/
def rolesPolicy : Model.Policy :=
  { domain := ascii "shop"
    mappings := [{ key := ascii "role", claim := ascii "roles", type := .stringArray }]
    blocks := [
      { name := ascii "desk"
        routes := [
          ⟨⟨.template, ascii "/desk/\x7brole\x7d"⟩, [], none⟩,
          ⟨⟨.exact, ascii "/desk"⟩, [], none⟩]
        rules := [
          { name := ascii "per-role", counters := [ascii "role"]
            rates := [⟨10, 60 * Algo.second, 0, []⟩] }] }] }

end Ratelimit.Match
