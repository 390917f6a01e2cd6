import Ratelimit.Engine.Aggregate
import Mathlib.Data.Prod.Lex

/-!
# The strictest bucket

The comparison of the source is a comparison of ranks: on refusal by whether waiting cures,
the wait and the key, on admission by the exact fraction of remaining over cost and the key,
as long as the products stay inside their type.
-/
namespace Ratelimit.Engine

open Algo Store Match Compile Identity Library Memory

/-- Incurable refusals first, then the longer wait, then the smaller key. -/
def refusalRank (x : Judged) : Bool ×ₗ ℤ ×ₗ Text :=
  toLex (!x.2.costExceedsCapacity,
    toLex (if x.2.costExceedsCapacity then 0 else -x.2.retryAfter, x.1.key))

/-- The fewest further requests at the bucket's cost, then the smaller key. -/
def admissionRank (x : Judged) : ℚ ×ₗ Text :=
  toLex ((x.2.remaining : ℚ) / x.1.cost, x.1.key)

theorem stricter_false (x y : Judged) :
    stricter false x y = decide (refusalRank x < refusalRank y) := by
  rw [Bool.eq_iff_iff, decide_eq_true_eq]
  unfold stricter refusalRank
  rw [Prod.Lex.toLex_lt_toLex, Prod.Lex.toLex_lt_toLex]
  cases hx : x.2.costExceedsCapacity with
  | true =>
    cases hy : y.2.costExceedsCapacity with
    | true => simp
    | false => simp
  | false =>
    cases hy : y.2.costExceedsCapacity with
    | true => simp
    | false =>
      by_cases hwait : x.2.retryAfter = y.2.retryAfter
      · simp [hwait]
      · simp [hwait]

/-- The numbers of a bucket whose products with another one's stay in `int64`. -/
structure Fits (x : Judged) : Prop where
  one_le_cost : 1 ≤ x.1.cost
  cost_lt : x.1.cost < 2 ^ 31
  remaining_nonneg : 0 ≤ x.2.remaining
  remaining_lt : x.2.remaining < 2 ^ 31

theorem mul64_eq {a b : ℤ} (ha : 0 ≤ a) (ha' : a < 2 ^ 31) (hb : 0 ≤ b) (hb' : b < 2 ^ 31) :
    mul64 a b = a * b := by
  have hlow : 0 ≤ a * b := mul_nonneg ha hb
  have hhigh : a * b < 2 ^ 31 * 2 ^ 31 := mul_lt_mul'' ha' hb' ha hb
  unfold mul64
  exact Int.bmod_eq_of_le (by omega) (by omega)

theorem stricter_true {x y : Judged} (hx : Fits x) (hy : Fits y) :
    stricter true x y = decide (admissionRank x < admissionRank y) := by
  have hxc : (0 : ℚ) < x.1.cost := by exact_mod_cast hx.one_le_cost
  have hyc : (0 : ℚ) < y.1.cost := by exact_mod_cast hy.one_le_cost
  have hcx := hx.one_le_cost
  have hcy := hy.one_le_cost
  rw [Bool.eq_iff_iff, decide_eq_true_eq]
  unfold stricter admissionRank
  rw [Prod.Lex.toLex_lt_toLex, mul64_eq hx.remaining_nonneg hx.remaining_lt (by omega) hy.cost_lt,
    mul64_eq hy.remaining_nonneg hy.remaining_lt (by omega) hx.cost_lt,
    div_lt_div_iff₀ hxc hyc, div_eq_div_iff hxc.ne' hyc.ne']
  norm_cast
  by_cases hprod : x.2.remaining * y.1.cost = y.2.remaining * x.1.cost
  · simp [hprod]
  · simp [hprod]

section Contenders

variable {rules : List MatchedRule} {verdict : Bucket → Verdict} {allowed : Bool}
  {x y : MatchedRule × Judged}

theorem mem_contenders :
    x ∈ contenders rules verdict allowed ↔
      x.1 ∈ rules ∧ x.2.1 ∈ x.1.buckets ∧ x.2.2 = verdict x.2.1 ∧ x.2.1.shadow = false ∧
        (allowed = true ∨ x.2.2.allowed = false) := by
  unfold contenders
  rw [List.mem_filter, List.mem_map]
  constructor
  · rintro ⟨⟨p, hp, rfl⟩, hpass⟩
    obtain ⟨hrule, hbucket⟩ := mem_owned.mp hp
    refine ⟨hrule, hbucket, rfl, ?_⟩
    cases allowed <;> simpa [passesOver] using hpass
  · rintro ⟨hrule, hbucket, hverdict, hshadow, hside⟩
    refine ⟨⟨(x.1, x.2.1), mem_owned.mpr ⟨hrule, hbucket⟩, by rw [← hverdict]⟩, ?_⟩
    rcases hside with rfl | hrefused
    · simp [passesOver, hshadow]
    · simp [passesOver, hshadow, hrefused]

theorem contenders_inj (hnodup : ((bucketsOf rules).map Bucket.key).Nodup)
    (hx : x ∈ contenders rules verdict allowed) (hy : y ∈ contenders rules verdict allowed)
    (hkey : x.2.1.key = y.2.1.key) : x = y := by
  obtain ⟨hxr, hxb, hxv, -⟩ := mem_contenders.mp hx
  obtain ⟨hyr, hyb, hyv, -⟩ := mem_contenders.mp hy
  rw [← map_snd_owned, List.map_map] at hnodup
  have hpair : (x.1, x.2.1) = (y.1, y.2.1) :=
    List.inj_on_of_nodup_map hnodup (mem_owned.mpr ⟨hxr, hxb⟩) (mem_owned.mpr ⟨hyr, hyb⟩) hkey
  obtain ⟨hrule, hbucket⟩ := Prod.mk.inj hpair
  refine Prod.ext hrule (Prod.ext hbucket ?_)
  rw [hxv, hyv, hbucket]

theorem contenders_ordersStrictly (hnodup : ((bucketsOf rules).map Bucket.key).Nodup)
    (hfits : allowed = true → ∀ x ∈ contenders rules verdict allowed, Fits x.2) :
    OrdersStrictly (fun x y => stricter allowed x.2 y.2) (contenders rules verdict allowed) := by
  cases allowed with
  | true =>
    refine ordersStrictly_of_rank
      (fun x hx y hy => stricter_true (hfits rfl x hx) (hfits rfl y hy)) fun x hx y hy hrank => ?_
    exact contenders_inj hnodup hx hy (congrArg (fun r => (ofLex r).2) hrank)
  | false =>
    refine ordersStrictly_of_rank (fun x _ y _ => stricter_false x.2 y.2) fun x hx y hy hrank => ?_
    exact contenders_inj hnodup hx hy (congrArg (fun r => (ofLex (ofLex r).2).2) hrank)

theorem admissionRank_least (hnodup : ((bucketsOf rules).map Bucket.key).Nodup)
    (hfits : ∀ x ∈ contenders rules verdict true, Fits x.2)
    (h : least (fun x y => stricter true x.2 y.2) (contenders rules verdict true) = some x) :
    ∀ z ∈ contenders rules verdict true, z ≠ x → admissionRank x.2 < admissionRank z.2 := by
  have hlt : ∀ a ∈ contenders rules verdict true, ∀ b ∈ contenders rules verdict true,
      stricter true a.2 b.2 = decide (admissionRank a.2 < admissionRank b.2) :=
    fun a ha b hb => stricter_true (hfits a ha) (hfits b hb)
  refine rank_least_lt hlt (fun a ha b hb hrank => ?_) h
  exact contenders_inj hnodup ha hb (congrArg (fun r => (ofLex r).2) hrank)

theorem refusalRank_least (hnodup : ((bucketsOf rules).map Bucket.key).Nodup)
    (h : least (fun x y => stricter false x.2 y.2) (contenders rules verdict false) = some x) :
    ∀ z ∈ contenders rules verdict false, z ≠ x → refusalRank x.2 < refusalRank z.2 := by
  refine rank_least_lt (fun a _ b _ => stricter_false a.2 b.2) (fun a ha b hb hrank => ?_) h
  exact contenders_inj hnodup ha hb
    (congrArg (fun r => (ofLex (ofLex r).2).2) hrank)

end Contenders

section Responses

variable {rules : List MatchedRule} {t : ℕ} {m : Entries}

theorem mem_bucketsOf {b : Bucket} : b ∈ bucketsOf rules ↔ ∃ r ∈ rules, b ∈ r.buckets :=
  List.mem_flatMap

theorem verdictOf_refused {bs : List Bucket} (hrefused : admits t m bs = false) (b : Bucket) :
    verdictOf t m bs b = currentVerdict (outcome t m b) := by
  simp [verdictOf, answered, hrefused]

theorem exists_refusing {bs : List Bucket} (hrefused : admits t m bs = false) :
    ∃ b ∈ bs, b.shadow = false ∧ (outcome t m b).allowed = false := by
  unfold admits at hrefused
  rw [List.all_eq_false] at hrefused
  obtain ⟨b, hb, hno⟩ := hrefused
  exact ⟨b, hb, by simpa using hno⟩

theorem exists_contender {b : Bucket} (hb : b ∈ bucketsOf rules) (hshadow : b.shadow = false)
    (hside : admits t m (bucketsOf rules) = true ∨ (outcome t m b).allowed = false) :
    ∃ owner, (owner, b, verdictOf t m (bucketsOf rules) b) ∈
      contenders rules (verdictOf t m (bucketsOf rules)) (admits t m (bucketsOf rules)) := by
  obtain ⟨owner, howner, hmem⟩ := mem_bucketsOf.mp hb
  refine ⟨owner, mem_contenders.mpr ⟨howner, hmem, rfl, hshadow, ?_⟩⟩
  rwa [verdictOf, answered_allowed]

/-- The response has the headers of the least contender, or none where no
enforcing bucket applied. -/
theorem respond_cases (t : ℕ) (m : Entries) (rules : List MatchedRule) :
    let allowed := admits t m (bucketsOf rules)
    let verdict := verdictOf t m (bucketsOf rules)
    ((∀ b ∈ bucketsOf rules, b.shadow = true) ∧ respond t m rules = ⟨allowed, false, none⟩) ∨
      ∃ owner x,
        least (fun x y => stricter allowed x.2 y.2) (contenders rules verdict allowed) =
          some (owner, x) ∧
        respond t m rules = ⟨allowed, incurable rules verdict allowed,
          some (headersOf owner x (incurable rules verdict allowed))⟩ := by
  intro allowed verdict
  have hrespond := respond_eq t m rules
  dsimp only at hrespond
  cases hleast : least (fun x y => stricter allowed x.2 y.2) (contenders rules verdict allowed) with
  | none =>
    left
    rw [hleast] at hrespond
    refine ⟨?_, hrespond⟩
    have hnone : ∀ b ∈ bucketsOf rules, b.shadow = false →
        ¬(admits t m (bucketsOf rules) = true ∨ (outcome t m b).allowed = false) := by
      intro b hb hshadow hside
      obtain ⟨owner, hmem⟩ := exists_contender hb hshadow hside
      rw [least_eq_none_iff.mp hleast] at hmem
      cases hmem
    intro b hb
    by_contra hshadow
    rw [Bool.not_eq_true] at hshadow
    -- without an admission some enforcing bucket refuses, and it would contend
    cases hadmits : admits t m (bucketsOf rules) with
    | true => exact hnone b hb hshadow (Or.inl hadmits)
    | false =>
      obtain ⟨c, hc, hcs, hcno⟩ := exists_refusing hadmits
      exact hnone c hc hcs (Or.inr hcno)
  | some x =>
    right
    rw [hleast] at hrespond
    exact ⟨x.1, x.2, rfl, hrespond⟩

end Responses

end Ratelimit.Engine
