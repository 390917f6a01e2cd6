import Ratelimit.Compile.Routes
import Ratelimit.Match.QueryCost
import Mathlib.Order.Bounds.Basic

/-!
# The rule a query cost follows

Only the pairs of a query string that name the parameter count, each for its own
value, and the request costs the largest. So neither the order of the pairs nor
anything between them matters, and one more occurrence never makes a request
cheaper.
-/
namespace Ratelimit.Match

open Compile Library

def queryPairs (query : Text) : List Text := Strings.split query (byte '&')

def pairName (pair : Text) : Text := unescape (Strings.cut pair (byte '=')).1

def pairValue (pair : Text) : Text := unescape (Strings.cut pair (byte '=')).2

/-- What a pair that names the parameter costs: a positive decimal numeral of any length
its value, lowered to the limit, and anything else the default. -/
def pairCost (cost : Cost) (pair : Text) : ℤ :=
  match Strconv.parseNat (pairValue pair) with
  | some v => if 1 ≤ v then min (v : ℤ) Model.maxCost else cost.defaultCost
  | none => cost.defaultCost

def namedCosts (cost : Cost) (query : Text) : Set ℤ :=
  {n | ∃ pair ∈ queryPairs query, pairName pair = cost.parameter ∧ pairCost cost pair = n}

section Occurrences

variable {cost : Cost}

theorem occurrence_eq (pair : Text) :
    occurrence cost pair =
      if pairName pair = cost.parameter then some (pairCost cost pair) else none := by
  have hvalue : (if positiveInteger (pairValue pair) = 0 then cost.defaultCost
      else positiveInteger (pairValue pair)) = pairCost cost pair := by
    unfold pairCost
    cases hparsed : Strconv.parseNat (pairValue pair) with
    | none =>
      have hinteger : positiveInteger (pairValue pair) = 0 := by
        rw [positiveInteger_eq, hparsed]
        rfl
      rw [if_pos hinteger]
    | some v =>
      have hinteger : positiveInteger (pairValue pair) = min (v : ℤ) Model.maxCost := by
        rw [positiveInteger_eq, hparsed]
        rfl
      have hzero : min (v : ℤ) Model.maxCost = 0 ↔ ¬ 1 ≤ v := by
        unfold Model.maxCost
        omega
      rw [hinteger]
      by_cases hpositive : 1 ≤ v
      · rw [if_neg (fun h => hzero.mp h hpositive)]
        exact (if_pos hpositive).symm
      · rw [if_pos (hzero.mpr hpositive)]
        exact (if_neg hpositive).symm
  rw [← hvalue]
  rfl

theorem mem_occurrences_iff {query : Text} {n : ℤ} :
    n ∈ occurrences cost query ↔ n ∈ namedCosts cost query := by
  unfold occurrences namedCosts queryPairs
  simp only [List.mem_filterMap, occurrence_eq, Option.ite_none_right_eq_some, Option.some.injEq,
    Set.mem_ofPred_eq]

theorem foldl_max_isGreatest (ns : List ℤ) (acc : ℤ) :
    IsGreatest {n | n = acc ∨ n ∈ ns} (ns.foldl max acc) := by
  induction ns generalizing acc with
  | nil => simp
  | cons m ns ih =>
    obtain ⟨hmem, hupper⟩ := ih (max acc m)
    rw [List.foldl_cons]
    constructor
    · rcases hmem with hmax | hrest
      · rw [hmax]
        rcases max_choice acc m with h | h <;> simp [h]
      · exact Or.inr (List.mem_cons_of_mem _ hrest)
    · rintro n (rfl | hn)
      · exact (le_max_left n m).trans (hupper (Or.inl rfl))
      · rcases List.mem_cons.mp hn with rfl | hn
        · exact (le_max_right acc n).trans (hupper (Or.inl rfl))
        · exact hupper (Or.inr hn)

variable (hparameter : cost.parameter ≠ [])
include hparameter

theorem queryCost_of_absent {query : Text} (h : namedCosts cost query = ∅) :
    queryCost cost query = cost.defaultCost := by
  have hnone : occurrences cost query = [] := by
    refine List.eq_nil_iff_forall_not_mem.mpr fun n hn => ?_
    simpa [h] using mem_occurrences_iff.mp hn
  rw [queryCost_eq hparameter, if_pos hnone]

/-- Every occurrence costs at least one, so the zero the loop starts from is never its
result. -/
theorem queryCost_isGreatest (hlo : 1 ≤ cost.defaultCost) (hhi : cost.defaultCost ≤ Model.maxCost)
    {query : Text} (h : (namedCosts cost query).Nonempty) :
    IsGreatest (namedCosts cost query) (queryCost cost query) := by
  obtain ⟨first, hfirst⟩ := h
  have hsome : occurrences cost query ≠ [] :=
    List.ne_nil_of_mem (mem_occurrences_iff.mpr hfirst)
  obtain ⟨hmem, hupper⟩ := foldl_max_isGreatest (occurrences cost query) 0
  rw [queryCost_eq hparameter, if_neg hsome]
  constructor
  · rcases hmem with hzero | hmem
    · have hpositive := (occurrence_bounds hlo hhi (mem_occurrences_iff.mpr hfirst)).1
      have hle := hupper (Or.inr (mem_occurrences_iff.mpr hfirst))
      omega
    · exact mem_occurrences_iff.mp hmem
  · intro n hn
    exact hupper (Or.inr (mem_occurrences_iff.mpr hn))

end Occurrences

theorem namedCosts_congr {cost : Cost} {q q' : Text} (h : (queryPairs q').Perm (queryPairs q)) :
    namedCosts cost q' = namedCosts cost q := by
  ext n
  simp only [namedCosts, Set.mem_ofPred_eq, h.mem_iff]

theorem compileCost_bounds {b : Model.Block} {source : Option Model.RouteCost} {cost : Cost}
    (h : (compileCost b source).value = some cost) :
    cost.parameter ≠ [] ∧ 1 ≤ cost.defaultCost ∧ cost.defaultCost ≤ Model.maxCost := by
  cases source with
  | none => cases h
  | some source =>
    simp only [compileCost, Logged.value_bind, Logged.value_pure, Option.ite_none_left_eq_some,
      not_or, not_lt, Option.some.injEq] at h
    obtain ⟨⟨-, hname, hlo, hhi⟩, rfl⟩ := h
    exact ⟨costParameter_ne_nil (by simpa using hname.1), hlo, hhi⟩

/-- The query cost follows its rule on every query string: it is in the limits of one request, the
default where no pair names the parameter, and otherwise the greatest of what such pairs cost. -/
theorem queryCost_follows_rule (b : Model.Block) (source : Option Model.RouteCost) (cost : Cost)
    (hcompiled : (compileCost b source).value = some cost) (query : Text) :
    (1 ≤ queryCost cost query ∧ queryCost cost query ≤ Model.maxCost) ∧
      ((∀ pair ∈ queryPairs query, pairName pair ≠ cost.parameter) →
        queryCost cost query = cost.defaultCost) ∧
      ((∃ pair ∈ queryPairs query, pairName pair = cost.parameter) →
        IsGreatest (namedCosts cost query) (queryCost cost query)) ∧
      (∀ other, (queryPairs other).Perm (queryPairs query) →
        queryCost cost other = queryCost cost query) ∧
      (∀ more, (∃ pair ∈ queryPairs query, pairName pair = cost.parameter) →
        (∀ pair ∈ queryPairs query, pair ∈ queryPairs more) →
          queryCost cost query ≤ queryCost cost more) := by
  obtain ⟨hparameter, hlo, hhi⟩ := compileCost_bounds hcompiled
  have hgreatest : ∀ q, (∃ pair ∈ queryPairs q, pairName pair = cost.parameter) →
      IsGreatest (namedCosts cost q) (queryCost cost q) := by
    rintro q ⟨pair, hpair, hname⟩
    exact queryCost_isGreatest hparameter hlo hhi ⟨_, pair, hpair, hname, rfl⟩
  have habsent : ∀ q, (∀ pair ∈ queryPairs q, pairName pair ≠ cost.parameter) →
      queryCost cost q = cost.defaultCost := by
    intro q hnone
    refine queryCost_of_absent hparameter (Set.eq_empty_iff_forall_notMem.mpr ?_)
    rintro n ⟨pair, hpair, hname, -⟩
    exact hnone pair hpair hname
  refine ⟨queryCost_bounds hparameter hlo hhi query, habsent query, hgreatest query, ?_, ?_⟩
  · intro other hperm
    by_cases hnamed : ∃ pair ∈ queryPairs query, pairName pair = cost.parameter
    · have hother := hgreatest other (by simpa only [hperm.mem_iff] using hnamed)
      rw [namedCosts_congr hperm] at hother
      exact hother.unique (hgreatest query hnamed)
    · push Not at hnamed
      rw [habsent query hnamed, habsent other (by simpa only [hperm.mem_iff] using hnamed)]
  · rintro more hnamed hsub
    obtain ⟨pair, hpair, hname, hcost⟩ := (hgreatest query hnamed).1
    have hmore := hgreatest more ⟨pair, hsub pair hpair, hname⟩
    exact hmore.2 ⟨pair, hsub pair hpair, hname, hcost⟩

theorem queryCost_follows_rule_limit :
    let source : Model.RouteCost := ⟨.queryParameter, ascii "limit", 5⟩
    let query := ascii "limit=0012&page=9&limit=%31x&limit=99999999999999999999"
    (compileCost { name := ascii "b" } (some source)).value = some ⟨ascii "limit", 5⟩ ∧
      queryCost ⟨ascii "limit", 5⟩ query = Model.maxCost ∧
      IsGreatest (namedCosts ⟨ascii "limit", 5⟩ query) (queryCost ⟨ascii "limit", 5⟩ query) := by
  intro source query
  have hcompiled :
      (compileCost { name := ascii "b" } (some source)).value = some ⟨ascii "limit", 5⟩ := by
    decide +kernel
  have hcost : queryCost ⟨ascii "limit", 5⟩ query = Model.maxCost := by decide +kernel
  refine ⟨hcompiled, hcost, ?_⟩
  obtain ⟨-, -, hgreatest, -⟩ := queryCost_follows_rule _ _ _ hcompiled query
  exact hgreatest (by decide +kernel)

end Ratelimit.Match
