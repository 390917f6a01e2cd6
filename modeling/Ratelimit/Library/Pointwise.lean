import Mathlib.Data.List.Forall2
import Mathlib.Tactic

/-!
# Lists related element by element

Two lists that a relation pairs up stay paired under the list functions a
program runs over them, provided that what the functions ask of an element
agrees across the relation.
-/
namespace Ratelimit.Library

variable {α β γ : Type*} {R : α → β → Prop} {xs : List α} {ys : List β}

theorem map_eq_of_forall₂ {f : α → γ} {g : β → γ} (h : List.Forall₂ R xs ys)
    (hfg : ∀ x y, R x y → f x = g y) : xs.map f = ys.map g := by
  induction h with
  | nil => rfl
  | cons hxy _ ih => simp [hfg _ _ hxy, ih]

theorem forall₂_of_map_eq {f : α → γ} {g : β → γ} (h : xs.map f = ys.map g)
    (hR : ∀ x ∈ xs, ∀ y ∈ ys, f x = g y → R x y) : List.Forall₂ R xs ys := by
  induction xs generalizing ys with
  | nil =>
    obtain rfl : ys = [] := List.map_eq_nil_iff.mp h.symm
    exact List.Forall₂.nil
  | cons x xs ih =>
    cases ys with
    | nil => simp at h
    | cons y ys =>
      obtain ⟨hxy, hrest⟩ := List.cons.inj h
      refine List.Forall₂.cons (hR x List.mem_cons_self y List.mem_cons_self hxy) (ih hrest ?_)
      intro x' hx y' hy heq
      exact hR x' (List.mem_cons_of_mem _ hx) y' (List.mem_cons_of_mem _ hy) heq

/-- Functions that tell the same elements apart tell the same lists apart. -/
theorem map_eq_map_iff {f : α → β} {g : α → γ} {xs' : List α}
    (h : ∀ x x', f x = f x' ↔ g x = g x') : xs.map f = xs'.map f ↔ xs.map g = xs'.map g := by
  simp only [← List.forall₂_eq_eq_eq, List.forall₂_map_left_iff, List.forall₂_map_right_iff, h]

theorem map_filterMap_sublist {f : α → Option β} {name : α → γ} {name' : β → γ}
    (h : ∀ a b, f a = some b → name' b = name a) (l : List α) :
    ((l.filterMap f).map name').Sublist (l.map name) := by
  induction l with
  | nil => exact List.Sublist.refl _
  | cons a l ih =>
    cases hf : f a with
    | none =>
      rw [List.filterMap_cons_none hf]
      exact ih.cons (name a)
    | some b =>
      rw [List.filterMap_cons_some hf, List.map_cons, List.map_cons, h a b hf]
      exact ih.cons_cons (name a)

theorem exists_of_mem_right (h : List.Forall₂ R xs ys) {y : β} (hy : y ∈ ys) :
    ∃ x ∈ xs, R x y := by
  induction h with
  | nil => simp at hy
  | cons hxy _ ih =>
    rcases List.mem_cons.mp hy with rfl | hy
    · exact ⟨_, List.mem_cons_self, hxy⟩
    · obtain ⟨x, hx, hR⟩ := ih hy
      exact ⟨x, List.mem_cons_of_mem _ hx, hR⟩

theorem forall₂_of_common {R' : α → γ → Prop} {S : β → γ → Prop} {zs : List γ}
    (h : List.Forall₂ R xs ys) (h' : List.Forall₂ R' xs zs)
    (hS : ∀ x ∈ xs, ∀ y z, R x y → R' x z → S y z) : List.Forall₂ S ys zs := by
  induction h generalizing zs with
  | nil =>
    cases h'
    exact List.Forall₂.nil
  | cons hxy _ ih =>
    cases h' with
    | cons hxz hrest =>
      refine List.Forall₂.cons (hS _ List.mem_cons_self _ _ hxy hxz) (ih hrest ?_)
      exact fun x hx => hS x (List.mem_cons_of_mem _ hx)

theorem all_eq_of_forall₂ {p : α → Prop} {q : β → Prop} (h : List.Forall₂ R xs ys)
    (hpq : ∀ x y, R x y → (p x ↔ q y)) : (∀ x ∈ xs, p x) ↔ ∀ y ∈ ys, q y := by
  induction h with
  | nil => simp
  | cons hxy _ ih => simp [hpq _ _ hxy, ih]

theorem exists_iff_of_forall₂ {p : α → Prop} {q : β → Prop} (h : List.Forall₂ R xs ys)
    (hpq : ∀ x y, R x y → (p x ↔ q y)) : (∃ x ∈ xs, p x) ↔ ∃ y ∈ ys, q y := by
  induction h with
  | nil => simp
  | cons hxy _ ih => simp [hpq _ _ hxy, ih]

section Sublists

variable {p : α → Bool} {q : β → Bool} (hpq : ∀ x y, R x y → p x = q y)
include hpq

theorem forall₂_takeWhile (h : List.Forall₂ R xs ys) :
    List.Forall₂ R (xs.takeWhile p) (ys.takeWhile q) := by
  induction h with
  | nil => exact List.Forall₂.nil
  | @cons x y _ _ hxy _ ih =>
    have hp := hpq x y hxy
    cases hx : p x with
    | false => simp [hx, hp ▸ hx]
    | true => simpa [hx, hp ▸ hx] using ⟨hxy, ih⟩

theorem forall₂_dropWhile (h : List.Forall₂ R xs ys) :
    List.Forall₂ R (xs.dropWhile p) (ys.dropWhile q) := by
  induction h with
  | nil => exact List.Forall₂.nil
  | @cons x y _ _ hxy hrest ih =>
    have hp := hpq x y hxy
    cases hx : p x with
    | false => simpa [hx, hp ▸ hx] using ⟨hxy, hrest⟩
    | true => simpa [hx, hp ▸ hx] using ih

end Sublists

section Present

variable {κ : Type*}

def present (fields : List (Bool × κ × α)) : List (κ × α) :=
  fields.flatMap fun f => if f.1 then [f.2] else []

theorem map_present {κ' : Type*} (f : κ → κ') (g : α → β) (fields : List (Bool × κ × α)) :
    (present fields).map (Prod.map f g) = present (fields.map fun e => (e.1, f e.2.1, g e.2.2)) := by
  induction fields with
  | nil => rfl
  | cons e fields ih =>
    rw [present, List.flatMap_cons, List.map_append, ← present, ih, List.map_cons, present,
      present, List.flatMap_cons]
    cases e.1 <;> rfl

theorem name_mem_of_present {e : κ × α} {fields : List (Bool × κ × α)} (h : e ∈ present fields) :
    e.1 ∈ fields.map fun f => f.2.1 := by
  obtain ⟨f, hf, he⟩ := List.mem_flatMap.mp h
  split at he
  · obtain rfl := List.mem_singleton.mp he
    exact List.mem_map.mpr ⟨f, hf, rfl⟩
  · cases he

/-- Records of the same fields are told by what is left out of them and by the rest. -/
theorem present_eq_iff {fields fields' : List (Bool × κ × α)}
    (hnames : fields.map (fun f => f.2.1) = fields'.map fun f => f.2.1)
    (hnodup : (fields.map fun f => f.2.1).Nodup) :
    present fields = present fields' ↔
      List.Forall₂ (fun f f' => f.1 = f'.1 ∧ (f.1 = true → f.2.2 = f'.2.2)) fields fields' := by
  induction fields generalizing fields' with
  | nil =>
    obtain rfl := List.map_eq_nil_iff.mp hnames.symm
    simp
  | cons f fields ih =>
    cases fields' with
    | nil => cases hnames
    | cons f' fields' =>
      obtain ⟨b, k, v⟩ := f
      obtain ⟨b', k', v'⟩ := f'
      obtain ⟨hname, hrest⟩ := List.cons.inj hnames
      obtain ⟨hnew, hnodup⟩ := List.nodup_cons.mp hnodup
      obtain rfl : k = k' := hname
      rw [List.forall₂_cons, ← ih hrest hnodup]
      cases b <;> cases b'
      · simp [present]
      · simp only [present, List.flatMap_cons, Bool.false_eq_true, false_and, iff_false]
        intro h
        refine hnew (name_mem_of_present (e := (k, v')) ?_)
        rw [present, ← List.nil_append (List.flatMap _ fields)]
        exact h ▸ List.mem_cons_self
      · simp only [present, List.flatMap_cons, Bool.true_eq_false, false_and, iff_false]
        intro h
        refine hnew (hrest ▸ name_mem_of_present (e := (k, v)) ?_)
        rw [present, ← List.nil_append (List.flatMap _ fields')]
        exact h ▸ List.mem_cons_self
      · simp [present]

end Present

theorem option_rel_cases {x : Option α} {y : Option β} (h : Option.Rel R x y) :
    x = none ∧ y = none ∨ ∃ a b, x = some a ∧ y = some b ∧ R a b := by
  cases h with
  | none => exact Or.inl ⟨rfl, rfl⟩
  | some hab => exact Or.inr ⟨_, _, rfl, rfl, hab⟩

theorem forall₂_head (h : List.Forall₂ R xs ys) :
    List.Forall₂ R xs.head?.toList ys.head?.toList := by
  cases h with
  | nil => exact List.Forall₂.nil
  | cons hxy _ => exact List.Forall₂.cons hxy List.Forall₂.nil

end Ratelimit.Library
