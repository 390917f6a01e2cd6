import Ratelimit.Engine.Absence
import Ratelimit.Rls.Server

/-!
# What an absent axis does to a rule

A rule that counts by an identity key or a capture does not match a check that lacks it. The
path and the method are built in, and empty where the check sends none: the buckets have no
empty axis exactly where no rule that would match counts by a missing one.
-/
namespace Ratelimit.Rls

open Engine Compile Match Identity Library

section Entries

end Entries

section Targets

end Targets

section Axes

/-- The rule matches apart from the path and the method: its predicates hold, and each
other axis has exactly one value. -/
def MatchesOtherwise (ctx : BlockCtx) (r : Rule) : Prop :=
  (∀ p ∈ r.predicates, predicateHolds ctx p = true) ∧
    ∀ axis ∈ r.counters, axis ∉ [Model.keyPath, Model.keyMethod] → (ctx.valueOf axis).length = 1

theorem ruleMatches_iff {ctx : BlockCtx} {r : Rule} :
    ruleMatches ctx r = true ↔ MatchesOtherwise ctx r := by
  unfold ruleMatches MatchesOtherwise
  rw [Bool.and_eq_true, List.all_eq_true, List.all_eq_true]
  refine and_congr_right fun _ => forall₂_congr fun axis _ => ?_
  rw [decide_eq_true_eq]
  constructor
  · exact fun h _ => h
  · intro h
    by_cases hbuiltin : axis ∈ [Model.keyPath, Model.keyMethod]
    · exact length_valueOf_builtin hbuiltin
    · exact h hbuiltin

variable {codec : Codec} {snap : Snapshot} {req : Request}

end Axes

section Sample

end Sample

end Ratelimit.Rls
