import Mathlib.Data.List.Forall2
import Mathlib.Tactic

/-!
# Runs of a machine over timed inputs

A machine answers one timed input at a time, and the clock does not go back. Invariants and
simulation relations may depend on the clock, provided that they survive its advance.
-/
namespace Ratelimit.Library

variable {S S' I O O' : Type*}

/-- The final state and the answers, in order. -/
def runs (step : S → I → S × O) : S → List I → S × List O
  | s, [] => (s, [])
  | s, i :: is =>
    let r := step s i
    let rest := runs step r.1 is
    (rest.1, r.2 :: rest.2)

@[simp] theorem runs_nil (step : S → I → S × O) (s : S) : runs step s [] = (s, []) := rfl

@[simp] theorem runs_cons (step : S → I → S × O) (s : S) (i : I) (is : List I) :
    runs step s (i :: is) =
      ((runs step (step s i).1 is).1, (step s i).2 :: (runs step (step s i).1 is).2) := rfl

theorem runs_map {J : Type*} (step : S → I → S × O) (f : J → I) (s : S) (js : List J) :
    runs step s (js.map f) = runs (fun s j => step s (f j)) s js := by
  induction js generalizing s with
  | nil => rfl
  | cons j js ih => simp [ih]

/-- Machines that take the same step on every input of the run run alike. -/
theorem runs_congr {step step' : S → I → S × O} {is : List I}
    (h : ∀ i ∈ is, ∀ s, step s i = step' s i) (s : S) : runs step s is = runs step' s is := by
  induction is generalizing s with
  | nil => rfl
  | cons i is ih =>
    have hrest := ih fun j hj => h j (List.mem_cons_of_mem _ hj)
    simp only [runs_cons, h i List.mem_cons_self, hrest]

/-- Clock readings that start at `t` or later and never decrease. -/
def MonotoneFrom (clock : I → ℕ) : ℕ → List I → Prop
  | _, [] => True
  | t, i :: is => t ≤ clock i ∧ MonotoneFrom clock (clock i) is

def lastClock (clock : I → ℕ) : ℕ → List I → ℕ
  | t, [] => t
  | _, i :: is => lastClock clock (clock i) is

instance decidableMonotoneFrom (clock : I → ℕ) (t : ℕ) (is : List I) :
    Decidable (MonotoneFrom clock t is) :=
  match is with
  | [] => isTrue trivial
  | i :: is =>
    have := decidableMonotoneFrom clock (clock i) is
    inferInstanceAs (Decidable (t ≤ clock i ∧ MonotoneFrom clock (clock i) is))

theorem le_of_mem_monotoneFrom {clock : I → ℕ} {t : ℕ} {is : List I}
    (h : MonotoneFrom clock t is) {i : I} (hi : i ∈ is) : t ≤ clock i := by
  induction is generalizing t with
  | nil => cases hi
  | cons j is ih =>
    rcases List.mem_cons.mp hi with rfl | hi
    · exact h.1
    · exact h.1.trans (ih h.2 hi)

theorem monotoneFrom_append {clock : I → ℕ} {t : ℕ} {is js : List I} :
    MonotoneFrom clock t (is ++ js) ↔
      MonotoneFrom clock t is ∧ MonotoneFrom clock (lastClock clock t is) js := by
  induction is generalizing t with
  | nil => simp [MonotoneFrom, lastClock]
  | cons i is ih => simp [MonotoneFrom, lastClock, ih, and_assoc]

theorem monotoneFrom_map {J : Type*} {clock : I → ℕ} {f : J → I} {t : ℕ} {js : List J} :
    MonotoneFrom clock t (js.map f) ↔ MonotoneFrom (fun j => clock (f j)) t js := by
  induction js generalizing t with
  | nil => exact Iff.rfl
  | cons j js ih => simp [MonotoneFrom, ih]

theorem lastClock_map {J : Type*} (clock : I → ℕ) (f : J → I) (t : ℕ) (js : List J) :
    lastClock clock t (js.map f) = lastClock (fun j => clock (f j)) t js := by
  induction js generalizing t with
  | nil => rfl
  | cons j js ih => exact ih (clock (f j))

theorem monotoneFrom_const (t : ℕ) (is : List I) : MonotoneFrom (fun _ => t) t is := by
  induction is with
  | nil => trivial
  | cons i is ih => exact ⟨le_rfl, ih⟩

section Invariant

variable {step : S → I → S × O} {clock : I → ℕ} {P : I → Prop}

/-- An invariant that survives the clock and every admitted step holds at the
end of every admitted run. -/
theorem invariant_runs (Inv : ℕ → S → Prop) (hmono : ∀ t t' s, t ≤ t' → Inv t s → Inv t' s)
    (hstep : ∀ s i, P i → Inv (clock i) s → Inv (clock i) (step s i).1) :
    ∀ is t s, MonotoneFrom clock t is → (∀ i ∈ is, P i) → Inv t s →
      Inv (lastClock clock t is) (runs step s is).1 := by
  intro is
  induction is with
  | nil => intro t s _ _ hs; exact hs
  | cons i is ih =>
    intro t s hclock hP hs
    have hi := hstep s i (hP i List.mem_cons_self) (hmono _ _ _ hclock.1 hs)
    exact ih _ _ hclock.2 (fun j hj => hP j (List.mem_cons_of_mem _ hj)) hi

end Invariant

section Tally

variable {step : S → I → S × O} {clock : I → ℕ} {P : I → Prop} {weigh : I → O → ℤ}

/-- The weight of a run, summed over its inputs and answers. -/
def tally (weigh : I → O → ℤ) : List I → List O → ℤ
  | i :: is, o :: os => weigh i o + tally weigh is os
  | _, _ => 0

theorem invariant_tally (Inv : ℕ → S → ℤ → Prop)
    (hmono : ∀ t t' s x, t ≤ t' → Inv t s x → Inv t' s x)
    (hstep : ∀ s i x, P i → Inv (clock i) s x →
      Inv (clock i) (step s i).1 (x + weigh i (step s i).2)) :
    ∀ is t s x, MonotoneFrom clock t is → (∀ i ∈ is, P i) → Inv t s x →
      Inv (lastClock clock t is) (runs step s is).1 (x + tally weigh is (runs step s is).2) := by
  intro is
  induction is with
  | nil =>
    intro t s x _ _ hs
    simpa [tally, lastClock] using hs
  | cons i is ih =>
    intro t s x hclock hP hs
    have hi := hstep s i x (hP i List.mem_cons_self) (hmono _ _ _ _ hclock.1 hs)
    have hrest := ih _ _ _ hclock.2 (fun j hj => hP j (List.mem_cons_of_mem _ hj)) hi
    simpa [tally, lastClock, add_assoc] using hrest

theorem tally_runs_append (weigh : I → O → ℤ) (s : S) (is js : List I) :
    tally weigh (is ++ js) (runs step s (is ++ js)).2 =
      tally weigh is (runs step s is).2 +
        tally weigh js (runs step (runs step s is).1 js).2 := by
  induction is generalizing s with
  | nil => simp [tally]
  | cons i is ih =>
    have hrest := ih (step s i).1
    simp only [List.cons_append, runs_cons, tally, hrest, add_assoc]

end Tally

section Simulation

variable {step : S → I → S × O} {step' : S' → I → S' × O'} {clock : I → ℕ}
variable {R : ℕ → S → S' → Prop} {Q : O → O' → Prop} {P : I → Prop}

theorem simulation_runs (hmono : ∀ t t' s s', t ≤ t' → R t s s' → R t' s s')
    (hstep : ∀ s s' i, P i → R (clock i) s s' →
      Q (step s i).2 (step' s' i).2 ∧ R (clock i) (step s i).1 (step' s' i).1) :
    ∀ is t s s', MonotoneFrom clock t is → (∀ i ∈ is, P i) → R t s s' →
      List.Forall₂ Q (runs step s is).2 (runs step' s' is).2 ∧
        R (lastClock clock t is) (runs step s is).1 (runs step' s' is).1 := by
  intro is
  induction is with
  | nil => intro t s s' _ _ hs; exact ⟨List.Forall₂.nil, hs⟩
  | cons i is ih =>
    intro t s s' hclock hP hs
    obtain ⟨hout, hnext⟩ := hstep s s' i (hP i List.mem_cons_self) (hmono _ _ _ _ hclock.1 hs)
    obtain ⟨houts, hlast⟩ :=
      ih _ _ _ hclock.2 (fun j hj => hP j (List.mem_cons_of_mem _ hj)) hnext
    exact ⟨List.Forall₂.cons hout houts, hlast⟩

end Simulation

theorem answers_eq_of_simulation {step : S → I → S × O} {step' : S' → I → S' × O}
    {clock : I → ℕ} {R : ℕ → S → S' → Prop} {P : I → Prop}
    (hmono : ∀ t t' s s', t ≤ t' → R t s s' → R t' s s')
    (hstep : ∀ s s' i, P i → R (clock i) s s' →
      (step s i).2 = (step' s' i).2 ∧ R (clock i) (step s i).1 (step' s' i).1)
    {is : List I} {t : ℕ} {s : S} {s' : S'} (hclock : MonotoneFrom clock t is)
    (hP : ∀ i ∈ is, P i) (hs : R t s s') :
    (runs step s is).2 = (runs step' s' is).2 := by
  have h := (simulation_runs (Q := Eq) hmono hstep is t s s' hclock hP hs).1
  rwa [List.forall₂_eq_eq_eq] at h

section Erasure

/-- The answers to the inputs that are not marked. -/
def answersUnmarked : List (Bool × I) → List O → List O
  | (true, _) :: is, _ :: os => answersUnmarked is os
  | (false, _) :: is, o :: os => o :: answersUnmarked is os
  | _, _ => []

variable {step : S → I → S × O} {clock : I → ℕ}

/-- Inputs that keep the relation on their own can be left out. -/
theorem answersUnmarked_runs (R : ℕ → S → S → Prop) (Silent : I → Prop)
    (hmono : ∀ t t' s s', t ≤ t' → R t s s' → R t' s s')
    (hstep : ∀ s s' i, R (clock i) s s' →
      (step s i).2 = (step s' i).2 ∧ R (clock i) (step s i).1 (step s' i).1)
    (hsilent : ∀ s s' i, Silent i → R (clock i) s s' → R (clock i) (step s i).1 s') :
    ∀ (marked : List (Bool × I)) t s s', MonotoneFrom (fun x => clock x.2) t marked →
      (∀ x ∈ marked, x.1 = true → Silent x.2) → R t s s' →
      answersUnmarked marked (runs step s (marked.map Prod.snd)).2 =
        (runs step s' ((marked.filter fun x => !x.1).map Prod.snd)).2 := by
  intro marked
  induction marked with
  | nil => intro t s s' _ _ _; rfl
  | cons x marked ih =>
    obtain ⟨mark, i⟩ := x
    intro t s s' hclock hmarks hs
    have hi := hmono _ _ _ _ hclock.1 hs
    have hrest : ∀ x ∈ marked, x.1 = true → Silent x.2 :=
      fun x hx => hmarks x (List.mem_cons_of_mem _ hx)
    cases mark with
    | true =>
      have hnext := hsilent s s' i (hmarks _ List.mem_cons_self rfl) hi
      simpa [answersUnmarked] using ih _ _ _ hclock.2 hrest hnext
    | false =>
      obtain ⟨hanswer, hnext⟩ := hstep s s' i hi
      have htail := ih _ _ _ hclock.2 hrest hnext
      simpa [answersUnmarked, hanswer] using htail

end Erasure

end Ratelimit.Library
