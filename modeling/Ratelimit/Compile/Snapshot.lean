import Ratelimit.Engine.Key
import Ratelimit.Engine.Model
import Ratelimit.Library.Logged
import Mathlib.Data.Finmap

/-!
# Snapshots and the problems found on the way to one

A snapshot is the compiled domain: every default resolved, every group baked
into its predicates, every window checked. The compiler reports every problem
it finds and goes on, so its helpers return a result together with a log.
-/
namespace Ratelimit.Compile

open Algo Library

inductive Reason where
  | unresolvedKeyReference
  | unresolvedGroupReference
  | unresolvedReplacedRules
  | incompatibleOperator
  | invalidCounterAxis
  | invalidSpec
  | invalidWindow
  | domainBudgetExceeded
  | captureShadowsMappedKey
  | costExceedsCapacity
  deriving DecidableEq, Repr

/-- Whether a problem of the reason leaves the generation valid. -/
@[simp] def informational (reason : Reason) : Bool :=
  reason = .captureShadowsMappedKey ∨ reason = .costExceedsCapacity

structure Problem where
  block : Text
  rule : Text
  reason : Reason
  message : Message
  blocking : Bool
  deriving DecidableEq, Repr

def failure (block rule : Text) (reason : Reason) (format : String) (args : List Arg) : Problem :=
  ⟨block, rule, reason, ⟨format, args⟩, !informational reason⟩

/-- A structural defect of the policy outside its blocks. -/
def specFailure (format : String) (args : List Arg) : Problem :=
  ⟨[], [], .invalidSpec, ⟨format, args⟩, true⟩

abbrev Checked (α : Type) := Logged Problem α

/-- Nothing that was found invalidates the generation. -/
def Accepted {α : Type} (x : Checked α) : Prop := x.Free fun p => p.blocking = true

structure Segment where
  literal : Text
  capture : Text
  deriving DecidableEq

structure Cost where
  parameter : Text
  defaultCost : ℤ
  deriving DecidableEq

/-- `segments` precompile a template. No methods means any method. -/
structure Route where
  type : Model.PathType
  value : Text
  segments : List Segment
  methods : Finset Text
  cost : Option Cost
  deriving DecidableEq

/-- `values` is the set of an `In`, or the resolved one of an `InGroup`. -/
structure Predicate where
  key : Text
  operator : Model.Operator
  value : Text
  values : Finset Text
  deriving DecidableEq

/-- One checked window. `keyPrefix` is every bucket key of it up to the axes. -/
structure Rate where
  algorithm : Algorithm
  window : Window
  keyPrefix : Text
  deriving DecidableEq

structure Rule where
  name : Text
  behavior : Model.Behavior
  predicates : List Predicate
  counters : List Text
  rates : List Rate
  replacedRules : List Text
  deriving DecidableEq

structure Block where
  name : Text
  mode : Model.Mode
  routes : List Route
  captures : List Text
  rules : List Rule
  deriving DecidableEq

/-- The extraction of one key, claim paths already split. -/
structure KeyExtraction where
  key : Text
  path : List Text
  type : Model.ValueType
  normalization : Model.Normalize
  fallbacks : List (List Text)
  deriving DecidableEq

structure Snapshot where
  domain : Text
  effectiveKeys : List Text
  blocks : List Block
  extraction : List KeyExtraction
  decisionBuckets : ℕ
  deriving DecidableEq

section Patterns

def isLower (c : Byte) : Bool := decide (byte 'a' ≤ c ∧ c ≤ byte 'z')

def isUpper (c : Byte) : Bool := decide (byte 'A' ≤ c ∧ c ≤ byte 'Z')

/-- Matches `domainNamePattern`. -/
def domainName : Text → Bool
  | [] => false
  | c :: s =>
    let inner := fun c => isLower c || Strconv.isDigit c
    inner c && s.all (fun c => inner c || decide (c = byte '.' ∨ c = byte '-')) &&
      inner (s.getLastD c)

def domainNamePattern : Text := ascii "^[a-z0-9]([a-z0-9.-]*[a-z0-9])?$"

/-- Matches `keyNamePattern`, which constrains every descriptor key name. -/
def keyName : Text → Bool
  | [] => false
  | c :: s =>
    isLower c &&
      s.all fun c => isLower c || isUpper c || Strconv.isDigit c || decide (c = byte '_')

def keyNamePattern : Text := ascii "^[a-z][a-zA-Z0-9_]*$"

def maxKeyLength : ℕ := 63

/-- Matches `costParameterPattern`. -/
def costParameter (s : Text) : Bool :=
  decide (s ≠ []) && s.all fun c =>
    isLower c || isUpper c || Strconv.isDigit c || decide (c ∈ ascii "_.-[]")

def costParameterPattern : Text := ascii "^[A-Za-z0-9_.\\-\\[\\]]+$"

def maxCostParameterLength : ℕ := 64

theorem domainName_ne_nil {s : Text} (h : domainName s = true) : s ≠ [] := by
  rintro rfl
  exact absurd h (by decide)

theorem costParameter_ne_nil {s : Text} (h : costParameter s = true) : s ≠ [] := by
  rintro rfl
  exact absurd h (by decide)

end Patterns

section Accepted

@[simp] theorem blocking_failure (block rule : Text) (reason : Reason) (format : String)
    (args : List Arg) : (failure block rule reason format args).blocking = !informational reason :=
  rfl

@[simp] theorem blocking_specFailure (format : String) (args : List Arg) :
    (specFailure format args).blocking = true := rfl

variable {α β : Type}

@[simp] theorem accepted_pure (a : α) : Accepted (pure a) := Logged.free_pure a

@[simp] theorem accepted_bind_iff {x : Checked α} {f : α → Checked β} :
    Accepted (x >>= f) ↔ Accepted x ∧ Accepted (f x.value) := Logged.free_bind_iff

@[simp] theorem accepted_report_iff {p : Problem} :
    Accepted (Logged.report p) ↔ p.blocking = false := by
  simp [Accepted]

theorem not_of_accepted_reportIf {c : Prop} [Decidable c] {p : Problem}
    (h : Accepted (Logged.reportIf c p)) (hp : p.blocking = true) : ¬ c := by
  intro hc
  exact Logged.free_reportIf_iff.mp h hc hp

theorem nodup_of_accepted_collectDistinct {κ : Type} [DecidableEq κ] {name : α → κ}
    {repeated : α → Problem} {f : α → Checked (Option β)} {xs : List α}
    (h : Accepted (Logged.collectDistinct name repeated f [] xs))
    (hrepeated : ∀ x, (repeated x).blocking = true) :
    (xs.map name).Nodup ∧
      Logged.collectDistinct name repeated f [] xs = Logged.collect f xs := by
  obtain ⟨hnodup, -, heq⟩ := Logged.collectDistinct_free hrepeated h
  exact ⟨hnodup, heq⟩

end Accepted

end Ratelimit.Compile
