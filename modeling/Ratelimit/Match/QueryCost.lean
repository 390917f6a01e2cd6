import Ratelimit.Compile.Snapshot

/-!
# The cost a route reads from the query string

Each occurrence of the route's parameter costs its value, and the request costs
the largest of them. The loop of the source walks the raw query pair by pair;
`queryCost_eq` says what it computes without the walk.
-/
namespace Ratelimit.Match

open Compile

def unhex (c : Byte) : Option Byte :=
  if byte '0' ≤ c ∧ c ≤ byte '9' then some (c - byte '0')
  else if byte 'a' ≤ c ∧ c ≤ byte 'f' then some (c - byte 'a' + 10)
  else if byte 'A' ≤ c ∧ c ≤ byte 'F' then some (c - byte 'A' + 10)
  else none

/-- `url.QueryUnescape`; a malformed escape is an error. -/
def queryUnescape : Text → Option Text
  | [] => some []
  | c :: s =>
    if c = byte '%' then
      match s with
      | h :: l :: rest => do
        let high ← unhex h
        let low ← unhex l
        let decoded ← queryUnescape rest
        return (high * 16 + low) :: decoded
      | _ => none
    else (queryUnescape s).map ((if c = byte '+' then byte ' ' else c) :: ·)

/-- A malformed escape yields the empty string. -/
def unescape (s : Text) : Text :=
  if Strings.containsAny s (ascii "%+") then (queryUnescape s).getD [] else s

/-- The loop of `positiveInteger` over the remaining digits. -/
def positiveIntegerFrom : ℤ → Text → ℤ
  | n, [] => min n Model.maxCost
  | n, d :: s =>
    if Strconv.isDigit d = false then 0
    else positiveIntegerFrom (min (n * 10 + (d.val - 48)) (Model.maxCost + 1)) s

def positiveInteger (s : Text) : ℤ := if s = [] then 0 else positiveIntegerFrom 0 s

/-- What one pair of the query costs, where it names the parameter. -/
def occurrence (cost : Cost) (pair : Text) : Option ℤ :=
  let (name, value) := Strings.cut pair (byte '=')
  if unescape name = cost.parameter then
    let n := positiveInteger (unescape value)
    some (if n = 0 then cost.defaultCost else n)
  else none

/-- The loop of `queryCost` with its `found` and `largest`, by the length of the query. -/
def queryCostFrom (cost : Cost) : ℕ → Text → Bool × ℤ → Bool × ℤ
  | 0, _, acc => acc
  | turns + 1, query, acc =>
    if query = [] then acc
    else
      let (pair, rest) := Strings.cut query (byte '&')
      match occurrence cost pair with
      | none => queryCostFrom cost turns rest acc
      | some n => queryCostFrom cost turns rest (true, max acc.2 n)

def queryCost (cost : Cost) (query : Text) : ℤ :=
  let (found, largest) := queryCostFrom cost query.length query (false, 0)
  if found = false then cost.defaultCost else largest

section Integer

/-- Saturating one above the limit at every digit saturates the whole value. -/
theorem positiveIntegerFrom_eq (n : ℕ) (s : Text) :
    positiveIntegerFrom (min n (Model.maxCost + 1)) s =
      if s.all Strconv.isDigit then
        min ((s.foldl (fun (n : ℕ) d => 10 * n + (d.val - 48)) n : ℕ) : ℤ) Model.maxCost
      else 0 := by
  induction s generalizing n with
  | nil =>
    simp only [positiveIntegerFrom, List.all_nil, if_true, List.foldl_nil, Model.maxCost]
    omega
  | cons d s ih =>
    rw [positiveIntegerFrom]
    by_cases hd : Strconv.isDigit d = true
    · have hdigit : 48 ≤ d.val := by
        simp only [Strconv.isDigit, decide_eq_true_eq, Fin.le_def] at hd
        exact hd.1
      have hstep : min (min (n : ℤ) (Model.maxCost + 1) * 10 + ((d.val : ℤ) - 48))
          (Model.maxCost + 1) = min ((10 * n + (d.val - 48) : ℕ) : ℤ) (Model.maxCost + 1) := by
        simp only [Model.maxCost]
        omega
      rw [if_neg (by rw [hd]; decide), hstep, ih, List.all_cons, hd, Bool.true_and,
        List.foldl_cons]
    · rw [Bool.not_eq_true] at hd
      rw [if_pos hd, List.all_cons, hd, Bool.false_and, if_neg Bool.false_ne_true]

/-- The value of a decimal numeral, lowered to the limit, and zero of any
other text. -/
theorem positiveInteger_eq (s : Text) :
    positiveInteger s = ((Strconv.parseNat s).map fun n => min (n : ℤ) Model.maxCost).getD 0 := by
  unfold positiveInteger Strconv.parseNat
  by_cases hs : s = []
  · simp [hs]
  · have h := positiveIntegerFrom_eq 0 s
    have hzero : min ((0 : ℕ) : ℤ) (Model.maxCost + 1) = 0 := by decide
    rw [hzero] at h
    rw [if_neg hs, h]
    by_cases hall : s.all Strconv.isDigit = true
    · rw [if_pos hall, if_pos ⟨hs, hall⟩]
      rfl
    · rw [if_neg hall, if_neg (fun hc => hall hc.2)]
      rfl

theorem positiveInteger_bounds (s : Text) :
    0 ≤ positiveInteger s ∧ positiveInteger s ≤ Model.maxCost := by
  rw [positiveInteger_eq]
  cases Strconv.parseNat s with
  | none => decide
  | some n =>
    change 0 ≤ min (n : ℤ) Model.maxCost ∧ min (n : ℤ) Model.maxCost ≤ Model.maxCost
    exact ⟨le_min (by omega) (by decide), min_le_right _ _⟩

end Integer

section Occurrences

/-- What every occurrence of the parameter costs, in the order of the query. -/
def occurrences (cost : Cost) (query : Text) : List ℤ :=
  (Strings.split query (byte '&')).filterMap (occurrence cost)

variable {cost : Cost}

theorem cut_length_lt {s : Text} (hs : s ≠ []) (sep : Byte) :
    (Strings.cut s sep).2.length < s.length := by
  induction s with
  | nil => exact absurd rfl hs
  | cons c s ih =>
    rw [Strings.cut]
    split_ifs with hc
    · simp
    · by_cases hnil : s = []
      · simp [hnil, Strings.cut]
      · have := ih hnil
        simp only [List.length_cons]
        omega

theorem occurrence_bounds (hlo : 1 ≤ cost.defaultCost) (hhi : cost.defaultCost ≤ Model.maxCost)
    {query : Text} {n : ℤ} (hn : n ∈ occurrences cost query) : 1 ≤ n ∧ n ≤ Model.maxCost := by
  obtain ⟨pair, -, hpair⟩ := List.mem_filterMap.mp hn
  unfold occurrence at hpair
  dsimp only at hpair
  split_ifs at hpair with hname hzero
  · obtain rfl := Option.some.inj hpair
    exact ⟨hlo, hhi⟩
  · obtain rfl := Option.some.inj hpair
    have hbounds := positiveInteger_bounds (unescape (Strings.cut pair (byte '=')).2)
    exact ⟨by omega, hbounds.2⟩

theorem foldl_max_bounds {ns : List ℤ} {acc bound : ℤ} (hns : ∀ m ∈ ns, m ≤ bound)
    (hacc : acc ≤ bound) : acc ≤ ns.foldl max acc ∧ ns.foldl max acc ≤ bound := by
  induction ns generalizing acc with
  | nil => exact ⟨le_rfl, hacc⟩
  | cons m ns ih =>
    obtain ⟨hm, hns⟩ := List.forall_mem_cons.mp hns
    have hrest := ih hns (max_le hacc hm)
    exact ⟨le_trans (le_max_left _ _) hrest.1, hrest.2⟩

variable (hparameter : cost.parameter ≠ [])
include hparameter

theorem occurrence_nil : occurrence cost [] = none := by
  simp [occurrence, Strings.cut, unescape, Strings.containsAny, Ne.symm hparameter]

theorem occurrences_nil : occurrences cost [] = [] := by
  simp [occurrences, Strings.split, occurrence_nil hparameter]

/-- The pair before the first ampersand, then those of the rest. -/
theorem occurrences_cut (query : Text) : occurrences cost query =
      (occurrence cost (Strings.cut query (byte '&')).1).toList ++
        occurrences cost (Strings.cut query (byte '&')).2 := by
  by_cases hmem : byte '&' ∈ query
  · obtain ⟨pair, rest, rfl, hpair⟩ := List.eq_append_cons_of_mem hmem
    rw [Strings.cut_append_sep hpair, occurrences, Strings.split,
      List.splitOn_append_cons_self_of_not_mem hpair]
    cases h : occurrence cost pair <;> simp [h, occurrences, Strings.split]
  · rw [Strings.cut_of_not_mem hmem, occurrences_nil hparameter, occurrences, Strings.split,
      List.splitOn_eq_singleton hmem]
    cases h : occurrence cost query <;> simp [h]

theorem queryCostFrom_eq {turns : ℕ} {query : Text}
    (hturns : query.length ≤ turns) (acc : Bool × ℤ) :
    queryCostFrom cost turns query acc =
      (acc.1 || !(occurrences cost query).isEmpty, (occurrences cost query).foldl max acc.2) := by
  induction turns generalizing query acc with
  | zero =>
    have hnil : query = [] := List.eq_nil_of_length_eq_zero (by omega)
    simp [queryCostFrom, hnil, occurrences_nil hparameter]
  | succ turns ih =>
    rw [queryCostFrom]
    by_cases hnil : query = []
    · simp [hnil, occurrences_nil hparameter]
    · have hlen := cut_length_lt hnil (byte '&')
      rw [if_neg hnil, occurrences_cut hparameter query]
      cases hocc : occurrence cost (Strings.cut query (byte '&')).1 with
      | none => simp [hocc, ih (show (Strings.cut query (byte '&')).2.length ≤ turns by omega)]
      | some n => simp [hocc, ih (show (Strings.cut query (byte '&')).2.length ≤ turns by omega)]

theorem queryCost_eq (query : Text) : queryCost cost query =
      if occurrences cost query = [] then cost.defaultCost
      else (occurrences cost query).foldl max 0 := by
  unfold queryCost
  rw [queryCostFrom_eq hparameter le_rfl]
  by_cases h : occurrences cost query = [] <;> simp [h]

theorem queryCost_bounds (hlo : 1 ≤ cost.defaultCost) (hhi : cost.defaultCost ≤ Model.maxCost)
    (query : Text) :
    1 ≤ queryCost cost query ∧ queryCost cost query ≤ Model.maxCost := by
  rw [queryCost_eq hparameter]
  split_ifs with hnone
  · exact ⟨hlo, hhi⟩
  · obtain ⟨n, rest, hcons⟩ := List.exists_cons_of_ne_nil hnone
    have hall : ∀ m ∈ occurrences cost query, 1 ≤ m ∧ m ≤ Model.maxCost :=
      fun m hm => occurrence_bounds hlo hhi hm
    rw [hcons] at hall ⊢
    obtain ⟨hn, hrest⟩ := List.forall_mem_cons.mp hall
    have hbound := foldl_max_bounds (fun m hm => (hrest m hm).2)
      (max_le (show (0 : ℤ) ≤ Model.maxCost by decide) hn.2)
    exact ⟨le_trans (le_trans hn.1 (le_max_right 0 n)) hbound.1, hbound.2⟩

end Occurrences

end Ratelimit.Match
