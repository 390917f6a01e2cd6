import Ratelimit.Library.Pointwise

/-!
# Passes over a list that can refuse

A pass takes one element after another and stops at the first refusal. What every
accepted element preserves holds at the end of an accepted pass, also where one of its
elements brings it about, and the results of an accepted pass are those of its elements,
one by one.
-/
namespace Ratelimit.Library

variable {ε S α β : Type}

theorem foldlM_ok_cons {f : S → α → Except ε S} {x : α} {xs : List α} {s out : S} :
    (x :: xs).foldlM f s = .ok out ↔ ∃ s', f s x = .ok s' ∧ xs.foldlM f s' = .ok out := by
  rw [List.foldlM_cons]
  rcases f s x with e | s' <;> simp [bind, Except.bind]

theorem foldlM_ok_induction {f : S → α → Except ε S} {P : S → Prop} {xs : List α} {s out : S}
    (h : xs.foldlM f s = .ok out) (hs : P s)
    (hstep : ∀ x ∈ xs, ∀ s s', P s → f s x = .ok s' → P s') : P out := by
  induction xs generalizing s with
  | nil =>
    obtain rfl := Except.ok.inj h
    exact hs
  | cons x xs ih =>
    obtain ⟨s', hx, hrest⟩ := foldlM_ok_cons.mp h
    refine ih hrest (hstep x List.mem_cons_self s s' hs hx) ?_
    exact fun y hy => hstep y (List.mem_cons_of_mem _ hy)

theorem foldlM_ok_of_mem {f : S → α → Except ε S} {P : S → Prop} {xs : List α} {s out : S} {x : α}
    (h : xs.foldlM f s = .ok out) (hx : x ∈ xs) (hset : ∀ s s', f s x = .ok s' → P s')
    (hstep : ∀ y ∈ xs, ∀ s s', P s → f s y = .ok s' → P s') : P out := by
  induction xs generalizing s with
  | nil => cases hx
  | cons y xs ih =>
    obtain ⟨s', hy, hrest⟩ := foldlM_ok_cons.mp h
    have htail : ∀ z ∈ xs, ∀ s s', P s → f s z = .ok s' → P s' :=
      fun z hz => hstep z (List.mem_cons_of_mem _ hz)
    rcases List.mem_cons.mp hx with rfl | hx
    · exact foldlM_ok_induction hrest (hset s s' hy) htail
    · exact ih hrest hx htail

theorem forall₂_of_mapM {f : α → Except ε β} {xs : List α} {ys : List β}
    (h : xs.mapM f = .ok ys) : List.Forall₂ (fun x y => f x = .ok y) xs ys := by
  induction xs generalizing ys with
  | nil =>
    obtain rfl := Except.ok.inj h
    exact List.Forall₂.nil
  | cons x xs ih =>
    rw [List.mapM_cons] at h
    rcases hx : f x with e | z
    · simp [hx, bind, Except.bind] at h
    · rcases hxs : xs.mapM f with e | zs
      · simp [hx, hxs, bind, Except.bind] at h
      · obtain rfl : z :: zs = ys := by
          simpa [hx, hxs, bind, Except.bind, pure, Except.pure] using h
        exact List.Forall₂.cons hx (ih hxs)

end Ratelimit.Library
