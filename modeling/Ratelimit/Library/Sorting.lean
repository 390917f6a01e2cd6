import Mathlib.Algebra.BigOperators.Group.Finset.Basic
import Mathlib.Data.List.Sort
import Mathlib.Tactic

/-!
# Sorting by insertion

The elements of a finite set as a sorted list, by a sort that computes, and what one
more element changes in a sorted list: nothing about the others.
-/
namespace Ratelimit.Library

variable {α : Type*} {r : α → α → Prop} [DecidableRel r] [Std.Total r] [IsTrans α r]

theorem insertionSort_perm [Std.Antisymm r] {l l' : List α} (h : l.Perm l') :
    l.insertionSort r = l'.insertionSort r := by
  refine List.Perm.eq_of_pairwise (fun a b _ _ hab hba => antisymm hab hba)
    (List.pairwise_insertionSort r l) (List.pairwise_insertionSort r l') ?_
  exact (List.perm_insertionSort r l).trans (h.trans (List.perm_insertionSort r l').symm)

variable (r) in
def sortedBy [Std.Antisymm r] (s : Finset α) : List α :=
  Quot.liftOn s.val (List.insertionSort r) fun _ _ h => insertionSort_perm h

theorem perm_sortedBy [Std.Antisymm r] (s : Finset α) :
    (sortedBy r s : Multiset α) = s.val := by
  obtain ⟨s, hs⟩ := s
  induction s using Quotient.inductionOn with
  | h l => exact Multiset.coe_eq_coe.mpr (List.perm_insertionSort r l)

theorem mem_sortedBy [Std.Antisymm r] {s : Finset α} {a : α} : a ∈ sortedBy r s ↔ a ∈ s := by
  rw [← Multiset.mem_coe, perm_sortedBy]
  rfl

theorem nodup_sortedBy [Std.Antisymm r] (s : Finset α) : (sortedBy r s).Nodup := by
  rw [← Multiset.coe_nodup, perm_sortedBy]
  exact s.nodup

theorem pairwise_sortedBy [Std.Antisymm r] (s : Finset α) : (sortedBy r s).Pairwise r := by
  obtain ⟨s, hs⟩ := s
  induction s using Quotient.inductionOn with
  | h l => exact List.pairwise_insertionSort r l

theorem sort_eq_sortedBy [Std.Antisymm r] (s : Finset α) : s.sort r = sortedBy r s := by
  refine List.Perm.eq_of_pairwise (fun a b _ _ hab hba => antisymm hab hba)
    (Finset.pairwise_sort s r) (pairwise_sortedBy s) ?_
  rw [← Multiset.coe_eq_coe, perm_sortedBy, Finset.sort_eq]

theorem sum_sortedBy [Std.Antisymm r] (s : Finset α) (f : α → ℕ) :
    ((sortedBy r s).map f).sum = ∑ a ∈ s, f a := by
  rw [Finset.sum, ← perm_sortedBy (r := r) s]
  rfl

omit [Std.Total r] in
theorem orderedInsert_append_cons {s₁ s₂ : List α} {x : α} (a : α)
    (hsorted : (s₁ ++ x :: s₂).Pairwise r) : ∃ t₁ t₂,
      (s₁ ++ x :: s₂).orderedInsert r a = t₁ ++ x :: t₂ ∧ (s₁ ++ s₂).orderedInsert r a = t₁ ++ t₂ := by
  induction s₁ with
  | nil =>
    by_cases hax : r a x
    · -- the element goes in front of `x`, so it also goes in front of what follows `x`
      refine ⟨[a], s₂, by simp [hax], ?_⟩
      cases s₂ with
      | nil => rfl
      | cons b s₂ =>
        have hxb : r x b := List.rel_of_pairwise_cons hsorted List.mem_cons_self
        simp [IsTrans.trans _ _ _ hax hxb]
    · exact ⟨[], s₂.orderedInsert r a, by simp [hax], rfl⟩
  | cons b s₁ ih =>
    by_cases hab : r a b
    · exact ⟨a :: b :: s₁, s₂, by simp [hab], by simp [hab]⟩
    · obtain ⟨t₁, t₂, hwith, hwithout⟩ := ih (List.Pairwise.of_cons hsorted)
      exact ⟨b :: t₁, t₂, by simp [hab, hwith], by simp [hab, hwithout]⟩

theorem insertionSort_append_cons (l₁ l₂ : List α) (x : α) : ∃ s₁ s₂,
    (l₁ ++ x :: l₂).insertionSort r = s₁ ++ x :: s₂ ∧ (l₁ ++ l₂).insertionSort r = s₁ ++ s₂ := by
  induction l₁ with
  | nil =>
    exact ⟨_, _, List.orderedInsert_eq_take_drop r x _,
      (List.takeWhile_append_dropWhile (p := fun b => decide ¬r x b)).symm⟩
  | cons a l₁ ih =>
    obtain ⟨s₁, s₂, hwith, hwithout⟩ := ih
    have hsorted : (s₁ ++ x :: s₂).Pairwise r := hwith ▸ List.pairwise_insertionSort r _
    obtain ⟨t₁, t₂, hwith', hwithout'⟩ := orderedInsert_append_cons a hsorted
    refine ⟨t₁, t₂, ?_, ?_⟩
    · rw [List.cons_append, List.insertionSort_cons, hwith, hwith']
    · rw [List.cons_append, List.insertionSort_cons, hwithout, hwithout']

end Ratelimit.Library
