import Mathlib.Data.Fintype.Card
import Mathlib.Data.List.Perm.Basic
import Mathlib.Logic.Relation
import Mathlib.Tactic

/-!
# Picking the least element by a left fold

A loop that keeps the best element seen so far. Where the comparison is a strict total order
on the elements it returns the least of them, whatever their order. A relation that is only
free of cycles still leaves some element that nothing comes before.
-/
namespace Ratelimit.Library

variable {α β : Type*}

def better (lt : α → α → Bool) (best : Option α) (x : α) : Option α :=
  match best with
  | none => some x
  | some y => if lt x y then some x else some y

def least (lt : α → α → Bool) (xs : List α) : Option α := xs.foldl (better lt) none

/-- The comparison orders the elements of the list strictly and totally. -/
structure OrdersStrictly (lt : α → α → Bool) (xs : List α) : Prop where
  irrefl : ∀ x ∈ xs, lt x x = false
  trans : ∀ x ∈ xs, ∀ y ∈ xs, ∀ z ∈ xs, lt x y = true → lt y z = true → lt x z = true
  total : ∀ x ∈ xs, ∀ y ∈ xs, x ≠ y → lt x y = true ∨ lt y x = true

variable {lt : α → α → Bool} {xs ys : List α} {x : α}

theorem OrdersStrictly.mono (hord : OrdersStrictly lt ys) (hsub : ∀ x ∈ xs, x ∈ ys) :
    OrdersStrictly lt xs where
  irrefl x hx := hord.irrefl x (hsub x hx)
  trans x hx y hy z hz := hord.trans x (hsub x hx) y (hsub y hy) z (hsub z hz)
  total x hx y hy := hord.total x (hsub x hx) y (hsub y hy)

@[simp] theorem least_nil (lt : α → α → Bool) : least lt [] = none := rfl

theorem foldl_better_some (lt : α → α → Bool) (xs : List α) (y : α) :
    ∃ x, xs.foldl (better lt) (some y) = some x := by
  induction xs generalizing y with
  | nil => exact ⟨y, rfl⟩
  | cons z xs ih =>
    rw [List.foldl_cons, better]
    split_ifs
    · exact ih z
    · exact ih y

theorem least_eq_none_iff : least lt xs = none ↔ xs = [] := by
  cases xs with
  | nil => simp
  | cons x xs =>
    obtain ⟨y, hy⟩ := foldl_better_some lt xs x
    simp [least, better, hy]

/-- Where images compare as the elements do, the loop over them is the image of the loop. -/
theorem least_map {lt' : β → β → Bool} {f : α → β}
    (hf : ∀ x ∈ xs, ∀ y ∈ xs, lt' (f x) (f y) = lt x y) :
    least lt' (xs.map f) = (least lt xs).map f := by
  have hfold : ∀ (ys : List α) (best : Option α), (∀ y ∈ ys, y ∈ xs) → (∀ y ∈ best, y ∈ xs) →
      (ys.map f).foldl (better lt') (best.map f) = (ys.foldl (better lt) best).map f := by
    intro ys
    induction ys with
    | nil => intro best _ _; rfl
    | cons y ys ih =>
      intro best hys hbest
      have hy := hys y List.mem_cons_self
      rw [List.map_cons, List.foldl_cons, List.foldl_cons, ← ih]
      · congr 1
        cases best with
        | none => rfl
        | some z =>
          simp only [better, Option.map_some, hf y hy z (hbest z rfl), apply_ite (Option.map f)]
      · exact fun z hz => hys z (List.mem_cons_of_mem _ hz)
      · intro z hz
        cases best with
        | none => exact Option.some.inj hz ▸ hy
        | some w =>
          simp only [better] at hz
          split_ifs at hz
          · exact Option.some.inj hz ▸ hy
          · exact hbest z hz
  exact hfold xs none (fun _ hy => hy) (fun _ hy => by cases hy)

theorem foldl_better_mem {best : Option α} (h : xs.foldl (better lt) best = some x) :
    x ∈ xs ∨ best = some x := by
  induction xs generalizing best with
  | nil => exact Or.inr h
  | cons z xs ih =>
    rcases ih h with hx | hx
    · exact Or.inl (List.mem_cons_of_mem _ hx)
    · unfold better at hx
      cases best with
      | none => exact Or.inl (Option.some.inj hx ▸ List.mem_cons_self)
      | some y =>
        dsimp only at hx
        split_ifs at hx
        · exact Or.inl (Option.some.inj hx ▸ List.mem_cons_self)
        · exact Or.inr hx

theorem least_mem (h : least lt xs = some x) : x ∈ xs := by
  rcases foldl_better_mem h with hx | hx
  · exact hx
  · cases hx

theorem foldl_better_least {y : α} (hord : OrdersStrictly lt (y :: xs))
    (h : xs.foldl (better lt) (some y) = some x) :
    ∀ z ∈ y :: xs, z ≠ x → lt x z = true := by
  induction xs generalizing y with
  | nil =>
    obtain rfl := Option.some.inj h
    intro z hz hne
    exact absurd (List.mem_singleton.mp hz) hne
  | cons w xs ih =>
    have hy : y ∈ y :: w :: xs := List.mem_cons_self
    have hw : w ∈ y :: w :: xs := List.mem_cons_of_mem _ List.mem_cons_self
    have hxs : ∀ z ∈ xs, z ∈ y :: w :: xs :=
      fun z hz => List.mem_cons_of_mem _ (List.mem_cons_of_mem _ hz)
    have hsub : ∀ v, v ∈ y :: w :: xs → OrdersStrictly lt (v :: xs) :=
      fun v hv => hord.mono (List.forall_mem_cons.mpr ⟨hv, hxs⟩)
    rw [List.foldl_cons, better] at h
    -- the kept one of `y` and `w` is below the other, and the result is not above it
    have hkept : ∀ v u, v ∈ y :: w :: xs → u ∈ y :: w :: xs → (u ≠ v → lt v u = true) →
        xs.foldl (better lt) (some v) = some x → u ≠ x → lt x u = true := by
      intro v u hv hu hvu hfold hne
      have hx : x ∈ y :: w :: xs := by
        rcases foldl_better_mem hfold with hx | hx
        · exact hxs x hx
        · exact Option.some.inj hx ▸ hv
      by_cases hvx : v = x
      · exact hvx ▸ hvu (hvx ▸ hne)
      · have hxv := ih (hsub v hv) hfold v List.mem_cons_self hvx
        by_cases huv : u = v
        · exact huv ▸ hxv
        · exact hord.trans x hx v hv u hu hxv (hvu huv)
    split_ifs at h with hlt
    · intro z hz hne
      rcases List.mem_cons.mp hz with rfl | hz
      · exact hkept w z hw hy (fun _ => hlt) h hne
      · exact ih (hsub w hw) h z hz hne
    · intro z hz hne
      rcases List.mem_cons.mp hz with rfl | hz
      · exact ih (hsub z hy) h z List.mem_cons_self hne
      · rcases List.mem_cons.mp hz with rfl | hz
        · exact hkept y z hy hw (fun hzy => (hord.total y hy z hw hzy.symm).resolve_right hlt) h hne
        · exact ih (hsub y hy) h z (List.mem_cons_of_mem _ hz) hne

theorem least_lt (hord : OrdersStrictly lt xs) (h : least lt xs = some x) :
    ∀ z ∈ xs, z ≠ x → lt x z = true := by
  cases xs with
  | nil => cases h
  | cons y xs => exact foldl_better_least hord h

section Rank

variable {γ : Type*} [LinearOrder γ] {rank : α → γ}

theorem ordersStrictly_of_rank (hlt : ∀ x ∈ xs, ∀ y ∈ xs, lt x y = decide (rank x < rank y))
    (hinj : ∀ x ∈ xs, ∀ y ∈ xs, rank x = rank y → x = y) : OrdersStrictly lt xs where
  irrefl x hx := by
    rw [hlt x hx x hx]
    exact decide_eq_false (lt_irrefl _)
  trans x hx y hy z hz hxy hyz := by
    rw [hlt x hx y hy, decide_eq_true_eq] at hxy
    rw [hlt y hy z hz, decide_eq_true_eq] at hyz
    rw [hlt x hx z hz, decide_eq_true_eq]
    exact hxy.trans hyz
  total x hx y hy hne := by
    rw [hlt x hx y hy, hlt y hy x hx, decide_eq_true_eq, decide_eq_true_eq]
    exact lt_or_gt_of_ne fun h => hne (hinj x hx y hy h)

theorem rank_least_lt (hlt : ∀ x ∈ xs, ∀ y ∈ xs, lt x y = decide (rank x < rank y))
    (hinj : ∀ x ∈ xs, ∀ y ∈ xs, rank x = rank y → x = y) (h : least lt xs = some x) :
    ∀ z ∈ xs, z ≠ x → rank x < rank z := by
  intro z hz hne
  have hx := least_lt (ordersStrictly_of_rank hlt hinj) h z hz hne
  rwa [hlt x (least_mem h) z hz, decide_eq_true_eq] at hx

end Rank

theorem least_of_subset (hord : OrdersStrictly lt ys) (hsub : ∀ z ∈ xs, z ∈ ys) (hx : x ∈ xs)
    (h : least lt ys = some x) : least lt xs = some x := by
  cases hxs : least lt xs with
  | none =>
    rw [least_eq_none_iff.mp hxs] at hx
    cases hx
  | some y =>
    have hy := hsub y (least_mem hxs)
    by_contra hne
    have hyx : y ≠ x := fun he => hne (he ▸ rfl)
    have hloop := hord.trans x (hsub x hx) y hy x (hsub x hx) (least_lt hord h y hy hyx)
      (least_lt (hord.mono hsub) hxs x hx hyx.symm)
    rw [hord.irrefl x (hsub x hx)] at hloop
    cases hloop

theorem least_perm (hord : OrdersStrictly lt xs) (hperm : xs.Perm ys) :
    least lt xs = least lt ys := by
  cases hxs : least lt xs with
  | none =>
    obtain rfl := least_eq_none_iff.mp hxs
    rw [List.nil_perm.mp hperm]
    rfl
  | some x =>
    exact (least_of_subset hord (fun z hz => hperm.mem_iff.mpr hz)
      (hperm.mem_iff.mp (least_mem hxs)) hxs).symm

/-- A relation without a cycle leaves an element to which nothing is related. -/
theorem exists_source {r : α → α → Prop} (hne : xs ≠ [])
    (hacyclic : ∀ x, ¬Relation.TransGen r x x) : ∃ x ∈ xs, ∀ y ∈ xs, ¬r y x := by
  have hfinite : Finite { x // x ∈ xs } := (List.finite_toSet xs).to_subtype
  have htrans : IsTrans { x // x ∈ xs } fun x y => Relation.TransGen r x y :=
    ⟨fun _ _ _ hxy hyz => hxy.trans hyz⟩
  have hirrefl : Std.Irrefl fun x y : { x // x ∈ xs } => Relation.TransGen r x y :=
    ⟨fun x => hacyclic x⟩
  have hwf := Finite.wellFounded_of_trans_of_irrefl
    fun x y : { x // x ∈ xs } => Relation.TransGen r x y
  obtain ⟨x, hx⟩ := List.exists_mem_of_ne_nil xs hne
  obtain ⟨least, -, hleast⟩ := hwf.has_min Set.univ ⟨⟨x, hx⟩, trivial⟩
  refine ⟨least, least.2, fun y hy hr => ?_⟩
  exact hleast ⟨y, hy⟩ trivial (Relation.TransGen.single hr)

end Ratelimit.Library
