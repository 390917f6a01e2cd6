import Ratelimit.Api.Policy
import Mathlib.Data.List.Sort

/-!
# Which generation of a policy is in effect

The latest generation runs when it compiles. Otherwise the last one that did keeps running,
taken from the persisted bundle of the same object. Where there is neither, the domain enforces
nothing. A text that is empty where there is nothing to say is an optional message here.
-/
namespace Ratelimit

open Compile in
def Compile.Reason.text : Reason → Text
  | .unresolvedKeyReference => ascii "UnresolvedKeyReference"
  | .unresolvedGroupReference => ascii "UnresolvedGroupReference"
  | .unresolvedReplacedRules => ascii "UnresolvedReplacedRules"
  | .incompatibleOperator => ascii "IncompatibleOperator"
  | .invalidCounterAxis => ascii "InvalidCounterAxis"
  | .invalidSpec => ascii "InvalidSpec"
  | .invalidWindow => ascii "InvalidWindow"
  | .domainBudgetExceeded => ascii "DomainBudgetExceeded"
  | .captureShadowsMappedKey => ascii "CaptureShadowsMappedKey"
  | .costExceedsCapacity => ascii "CostExceedsCapacity"

namespace Operator

open Api

structure ObjectKey where
  namespaceName : Text
  name : Text
  deriving DecidableEq

/-- A `RateLimitPolicy` of the cluster. -/
structure Object where
  namespaceName : Text
  name : Text
  uid : Text
  generation : ℤ
  spec : Spec
  deriving DecidableEq

def Object.key (o : Object) : ObjectKey := ⟨o.namespaceName, o.name⟩

structure RuleProblem where
  block : Text
  rule : Text
  reason : Text
  message : Message
  deriving DecidableEq

/-- The last-good state of one domain: the spec being enforced. -/
structure Bundle where
  uid : Text
  goodGeneration : ℤ
  goodSpec : Spec
  deriving DecidableEq

/-- The zero value of the struct, which enforces nothing. -/
def Bundle.zero : Bundle := ⟨[], 0, ⟨[], [], [], []⟩⟩

/-- The persisted spec of the object, where the bundle holds one of its own. -/
def Bundle.good (b : Bundle) (uid : Text) : Option Bundle :=
  if b.uid = [] ∨ b.uid ≠ uid then none else some b

abbrev State := Finmap fun _ : Text => Bundle

/-- A read of the map, zero where there is no entry. -/
def State.get (state : State) (domain : Text) : Bundle := (state.lookup domain).getD .zero

/-- The objects one compilation reads, and the last-good state of each domain. -/
structure Input where
  namespaceName : Text
  policies : List Object
  /-- The fields of an object that the schema of this build does not define. -/
  skew : ObjectKey → List RuleProblem
  state : State
  operatorVersion : Text

/-- What a compilation has to say about one policy. -/
structure Outcome where
  uid : Text
  generation : ℤ
  activeGeneration : ℤ
  lastGoodLost : Option Message
  problems : List RuleProblem
  err : Option Message
  tooLarge : Bool
  tooLargeReason : Option Message
  effectiveKeys : List Text
  blocks : ℕ
  rules : ℕ
  deriving DecidableEq

def Outcome.compiled (o : Outcome) : Bool := o.err.isNone

def Outcome.overLimit (o : Outcome) (reason : Message) : Outcome :=
  { o with tooLarge := true, tooLargeReason := some reason }

def Object.outcome (o : Object) : Outcome :=
  ⟨o.uid, o.generation, 0, none, [], none, false, none, [], 0, 0⟩

structure Result where
  snapshots : Finmap fun _ : Text => Compile.Snapshot
  policies : Finmap fun _ : ObjectKey => Outcome
  state : State

section Compilation

def plural (n : ℕ) (word : Text) : Text := if n = 1 then word else word ++ ascii "s"

def ruleProblems (problems : List Compile.Problem) : List RuleProblem :=
  problems.map fun p => ⟨p.block, p.rule, p.reason.text, p.message⟩

/-- The reasons in the order of their first problem, each once. -/
def distinctReasons (reasons : List Compile.Reason) : List Compile.Reason :=
  reasons.foldl (fun seen reason => if reason ∈ seen then seen else seen ++ [reason]) []

def blockingError (problems : List Compile.Problem) : Option Message :=
  let found := problems.filter fun p => p.blocking
  if found.length = 0 then none
  else some ⟨"%d blocking %s (%s)", [.number found.length,
    .text (plural found.length (ascii "problem")), .text ((ascii ", ").intercalate
      ((distinctReasons (found.map Compile.Problem.reason)).map Compile.Reason.text))]⟩

/-- The generation the object carries, or the refusal of it unread. -/
def latestGeneration (namespaceName : Text) (object : Object) (skew : List RuleProblem) :
    Compile.Snapshot × Outcome :=
  if skew ≠ [] then
    ((compileSpec namespaceName object.spec.domain (.claiming object.spec.domain)).1,
      { object.outcome with
        problems := skew
        err := some ⟨"%d %s this schema does not define (%s)", [.number skew.length,
          .text (plural skew.length (ascii "field")), .text Compile.Reason.invalidSpec.text]⟩ })
  else
    let compiled := compileSpec namespaceName object.spec.domain object.spec
    (compiled.1, { object.outcome with
      problems := ruleProblems compiled.2
      err := blockingError compiled.2 })

/-- What the active generation puts into the snapshot. -/
def withContribution (outcome : Outcome) (snapshot : Compile.Snapshot) : Outcome :=
  { outcome with
    effectiveKeys := snapshot.effectiveKeys
    blocks := snapshot.blocks.length
    rules := outcome.rules + (snapshot.blocks.map fun b => b.rules.length).sum }

/-- A bundle that was saved from a pruned view of the generation. -/
def savedPruned (good : Bundle) : Message :=
  ⟨"last-good generation %d was saved from a read that did not carry every field",
    [.number good.goodGeneration]⟩

/-- A bundle that the rules of this build refuse. -/
def savedUncompilable (good : Bundle) (err : Message) : Message :=
  err.wrap "last-good generation %d does not compile with this operator build: "
    [.number good.goodGeneration]

/-- Where the latest generation is kept out, whatever was good last. -/
def fallBack (namespaceName : Text) (object : Object) (previous : Bundle) (skew : List RuleProblem)
    (outcome : Outcome) (snapshot : Compile.Snapshot) : Outcome × Compile.Snapshot × Bundle :=
  match previous.good object.uid with
  | none => (outcome, snapshot, .zero)
  | some good =>
    if skew ≠ [] ∧ good.goodGeneration = object.generation then
      ({ outcome with lastGoodLost := some (savedPruned good) }, snapshot, .zero)
    else
      let fallback := compileSpec namespaceName object.spec.domain good.goodSpec
      match blockingError fallback.2 with
      | some err =>
        ({ outcome with lastGoodLost := some (savedUncompilable good err) }, snapshot, .zero)
      | none =>
        (withContribution { outcome with activeGeneration := good.goodGeneration } fallback.1,
          fallback.1, good)

/-- Settles which generation of one policy is in effect. The latest one may be kept
out because the namespace cannot hold it. -/
def compileDomainFitting (namespaceName : Text) (object : Object) (previous : Bundle)
    (skew : List RuleProblem) (tooLarge : Option Message) :
    Outcome × Compile.Snapshot × Bundle :=
  let latest := latestGeneration namespaceName object skew
  let snapshot := latest.1
  let outcome := latest.2
  if outcome.compiled then
    match tooLarge with
    | none =>
      (withContribution { outcome with activeGeneration := object.generation } snapshot, snapshot,
        ⟨object.uid, object.generation, object.spec⟩)
    | some reason =>
      fallBack namespaceName object previous skew (outcome.overLimit reason)
        (compileSpec namespaceName object.spec.domain (.claiming object.spec.domain)).1
  else fallBack namespaceName object previous skew outcome snapshot

def compileDomain (namespaceName : Text) (object : Object) (previous : Bundle)
    (skew : List RuleProblem) : Outcome × Compile.Snapshot × Bundle :=
  compileDomainFitting namespaceName object previous skew none

def Object.le (a b : Object) : Prop :=
  if a.namespaceName ≠ b.namespaceName then a.namespaceName ≤ b.namespaceName else a.name ≤ b.name

instance (a b : Object) : Decidable (a.le b) :=
  inferInstanceAs (Decidable (if a.namespaceName ≠ b.namespaceName then _ else _))

def sortedPolicies (policies : List Object) : List Object := policies.insertionSort Object.le

/-- The refusal of an object that is not named after its domain. -/
def mismatch (object : Object) : Outcome :=
  let message : Message := ⟨"metadata.name %q does not equal spec.domain %q",
    [.text object.name, .text object.spec.domain]⟩
  { object.outcome with
    err := some message
    problems := [⟨[], [], Compile.Reason.invalidSpec.text, message⟩] }

/-- What is settled for an object goes into the result. -/
def Result.settle (r : Result) (object : Object) (settled : Outcome × Compile.Snapshot × Bundle) :
    Result where
  policies := r.policies.insert object.key settled.1
  snapshots := r.snapshots.insert object.spec.domain settled.2.1
  state := r.state.insert object.spec.domain settled.2.2

def compileObject (input : Input) (r : Result) (object : Object) : Result :=
  if object.name ≠ object.spec.domain then
    { r with policies := r.policies.insert object.key (mismatch object) }
  else
    r.settle object (compileDomain input.namespaceName object (input.state.get object.spec.domain)
      (input.skew object.key))

/-- `Compile`: one snapshot for every domain of the namespace. -/
def compile (input : Input) : Result :=
  (sortedPolicies input.policies).foldl (compileObject input) ⟨∅, ∅, ∅⟩

/-- The domains that the policies claim, sorted, each once. -/
def domains (input : Input) : List Text :=
  (input.policies.map fun o => o.spec.domain).dedup.insertionSort (· ≤ ·)

end Compilation

section Settled

variable {namespaceName : Text} {object : Object} {previous : Bundle} {skew : List RuleProblem}
  {tooLarge : Option Message} {outcome : Outcome} {snapshot : Compile.Snapshot}

theorem blockingError_eq_none {problems : List Compile.Problem} :
    blockingError problems = none ↔ blocking problems = false := by
  unfold blockingError blocking
  dsimp only
  split_ifs with hnone
  · simpa [List.filter_eq_nil_iff] using hnone
  · simpa [List.filter_eq_nil_iff] using hnone

def Object.Good (object : Object) (namespaceName : Text) (skew : List RuleProblem) : Prop :=
  skew = [] ∧ Compiles namespaceName object.spec.domain object.spec

theorem compiled_latestGeneration :
    (latestGeneration namespaceName object skew).2.compiled = true ↔
      object.Good namespaceName skew := by
  unfold latestGeneration Object.Good Outcome.compiled
  by_cases hskew : skew = []
  · simp [hskew, Option.isNone_iff_eq_none, blockingError_eq_none, Compiles]
  · simp [hskew]

theorem good_eq_some {b : Bundle} {uid : Text} {good : Bundle} :
    b.good uid = some good ↔ b.uid ≠ [] ∧ b.uid = uid ∧ good = b := by
  unfold Bundle.good
  split_ifs with h
  · refine iff_of_false not_false ?_
    rintro ⟨hne, huid, -⟩
    exact h.elim hne fun hother => hother huid
  · obtain ⟨hne, huid⟩ := not_or.mp h
    rw [Option.some_inj]
    exact ⟨fun heq => ⟨hne, not_not.mp huid, heq.symm⟩, fun heq => heq.2.2.symm⟩

/-- The last-good bundle of the object is in effect. -/
structure LastGood (namespaceName : Text) (object : Object) (previous : Bundle)
    (settled : Outcome × Compile.Snapshot × Bundle) : Prop where
  uid_ne : previous.uid ≠ []
  own : previous.uid = object.uid
  compiles : Compiles namespaceName object.spec.domain previous.goodSpec
  bundle : settled.2.2 = previous
  served : settled.2.1 = (compileSpec namespaceName object.spec.domain previous.goodSpec).1
  active : settled.1.activeGeneration = previous.goodGeneration

structure Unprotected (outcome : Outcome) (settled : Outcome × Compile.Snapshot × Bundle) :
    Prop where
  bundle : settled.2.2 = .zero
  active : settled.1.activeGeneration = outcome.activeGeneration

theorem fallBack_cases :
    let settled := fallBack namespaceName object previous skew outcome snapshot
    (settled.1.err = outcome.err ∧ settled.1.tooLarge = outcome.tooLarge ∧
      settled.1.tooLargeReason = outcome.tooLargeReason) ∧
    (LastGood namespaceName object previous settled ∨ Unprotected outcome settled) := by
  unfold fallBack
  split
  · exact ⟨⟨rfl, rfl, rfl⟩, Or.inr ⟨rfl, rfl⟩⟩
  · next good hgood =>
    obtain ⟨hne, hown, rfl⟩ := good_eq_some.mp hgood
    split_ifs
    · exact ⟨⟨rfl, rfl, rfl⟩, Or.inr ⟨rfl, rfl⟩⟩
    · dsimp only
      split
      · exact ⟨⟨rfl, rfl, rfl⟩, Or.inr ⟨rfl, rfl⟩⟩
      · next hcompiles =>
        refine ⟨⟨rfl, rfl, rfl⟩, Or.inl ⟨hne, hown, ?_, rfl, rfl, rfl⟩⟩
        exact blockingError_eq_none.mp hcompiles

theorem fallBack_own (hne : previous.uid ≠ []) (hown : previous.uid = object.uid)
    (hcompiles : Compiles namespaceName object.spec.domain previous.goodSpec) :
    LastGood namespaceName object previous
      (fallBack namespaceName object previous [] outcome snapshot) := by
  have hgood : previous.good object.uid = some previous := good_eq_some.mpr ⟨hne, hown, rfl⟩
  have herr := blockingError_eq_none.mpr hcompiles
  simp only [fallBack, hgood, herr]
  exact ⟨hne, hown, hcompiles, rfl, rfl, rfl⟩

structure Latest (namespaceName : Text) (object : Object)
    (settled : Outcome × Compile.Snapshot × Bundle) : Prop where
  bundle : settled.2.2 = ⟨object.uid, object.generation, object.spec⟩
  served : settled.2.1 = (compileSpec namespaceName object.spec.domain object.spec).1
  active : settled.1.activeGeneration = object.generation
  uid : settled.1.uid = object.uid
  err : settled.1.err = none
  fits : settled.1.tooLarge = false

theorem compileDomainFitting_latest (h : object.Good namespaceName skew) :
    Latest namespaceName object
      (compileDomainFitting namespaceName object previous skew none) := by
  have hcompiled := compiled_latestGeneration.mpr h
  have herr : (latestGeneration namespaceName object skew).2.err = none :=
    Option.isNone_iff_eq_none.mp hcompiled
  unfold compileDomainFitting
  simp only [hcompiled, if_true]
  obtain ⟨rfl, -⟩ := h
  exact ⟨rfl, rfl, rfl, rfl, herr, rfl⟩

theorem compileDomainFitting_over (h : object.Good namespaceName skew) (reason : Message) :
    compileDomainFitting namespaceName object previous skew (some reason) =
      fallBack namespaceName object previous skew
        ((latestGeneration namespaceName object skew).2.overLimit reason)
        (compileSpec namespaceName object.spec.domain (.claiming object.spec.domain)).1 := by
  unfold compileDomainFitting
  exact if_pos (compiled_latestGeneration.mpr h)

theorem compileDomainFitting_bad (h : ¬object.Good namespaceName skew) :
    compileDomainFitting namespaceName object previous skew tooLarge =
      fallBack namespaceName object previous skew
        (latestGeneration namespaceName object skew).2
        (latestGeneration namespaceName object skew).1 := by
  unfold compileDomainFitting
  exact if_neg fun htrue => h (compiled_latestGeneration.mp htrue)

theorem latestGeneration_fresh :
    (latestGeneration namespaceName object skew).2.activeGeneration = 0 ∧
      (latestGeneration namespaceName object skew).2.tooLarge = false := by
  unfold latestGeneration
  split_ifs <;> exact ⟨rfl, rfl⟩

/-- What is in effect where the latest generation is kept out: the last-good bundle of
the object, or nothing. -/
def Kept (namespaceName : Text) (object : Object) (previous : Bundle)
    (settled : Outcome × Compile.Snapshot × Bundle) : Prop :=
  LastGood namespaceName object previous settled ∨
    settled.2.2 = .zero ∧ settled.1.activeGeneration = 0

theorem compileDomainFitting_tooLarge (h : object.Good namespaceName skew) (reason : Message) :
    let settled := compileDomainFitting namespaceName object previous skew (some reason)
    Kept namespaceName object previous settled ∧ settled.1.err = none ∧
      settled.1.tooLarge = true := by
  rw [compileDomainFitting_over h]
  obtain ⟨⟨herr, hlarge, -⟩, hcases⟩ := @fallBack_cases namespaceName object previous skew
    ((latestGeneration namespaceName object skew).2.overLimit reason)
    (compileSpec namespaceName object.spec.domain (.claiming object.spec.domain)).1
  refine ⟨?_, ?_, hlarge⟩
  · rcases hcases with hlast | hnone
    · exact Or.inl hlast
    · exact Or.inr ⟨hnone.bundle, hnone.active.trans latestGeneration_fresh.1⟩
  · exact herr.trans (Option.isNone_iff_eq_none.mp (compiled_latestGeneration.mpr h))

theorem compileDomainFitting_invalid (h : ¬object.Good namespaceName skew) :
    let settled := compileDomainFitting namespaceName object previous skew tooLarge
    Kept namespaceName object previous settled ∧ settled.1.err ≠ none ∧
      settled.1.tooLarge = false := by
  rw [compileDomainFitting_bad h]
  obtain ⟨⟨herr, hlarge, -⟩, hcases⟩ := @fallBack_cases namespaceName object previous skew
    (latestGeneration namespaceName object skew).2 (latestGeneration namespaceName object skew).1
  refine ⟨?_, ?_, hlarge.trans latestGeneration_fresh.2⟩
  · rcases hcases with hlast | hnone
    · exact Or.inl hlast
    · exact Or.inr ⟨hnone.bundle, hnone.active.trans latestGeneration_fresh.1⟩
  · intro hnone
    apply h
    apply compiled_latestGeneration.mp
    exact Option.isNone_iff_eq_none.mpr (herr.symm.trans hnone)

end Settled

end Operator

end Ratelimit
