import Ratelimit.Engine.Process
import Ratelimit.Engine.Retry

/-!
# Only decisions take room

Peeks, resets and scans drop entries and write none, and what is left of an entry only
shrinks with time. So a request that would be admitted stays so until the next decision.
-/
namespace Ratelimit.Engine

open Algo Store Match Compile Identity Library Memory

/-- Anything but a decision. -/
def Event.Quiet (e : Event) : Prop :=
  ∀ codec namespaceName domain p req, e.action ≠ .decide codec namespaceName domain p req

variable {t t' : ℕ} {m m' : Entries} {b : Bucket} {a : Algorithm}

theorem lookup_perform_cases {e : Event} (hquiet : e.Quiet) (k : Text) :
    (perform m e).1.lookup k = m.lookup k ∨ (perform m e).1.lookup k = none := by
  obtain ⟨now, action⟩ := e
  cases action with
  | decide codec namespaceName domain p req => exact absurd rfl (hquiet _ _ _ _ _)
  | peek codec namespaceName domain p req =>
    simp only [perform, peekRequest]
    rcases evaluate_fst codec _ _ m req with hstate | hstate
    · exact Or.inl (by rw [hstate])
    · rw [hstate]
      exact lookup_storePeek_cases
  | reset ks =>
    simp only [perform, lookup_storeReset]
    split_ifs
    · exact Or.inr rfl
    · exact Or.inl rfl
  | scan pre cursor limit => exact lookup_storeScan_cases

theorem lookup_runs_cases {events : List Event} (hquiet : ∀ e ∈ events, e.Quiet) (k : Text) :
    (runs perform m events).1.lookup k = m.lookup k ∨
      (runs perform m events).1.lookup k = none := by
  induction events generalizing m with
  | nil => exact Or.inl rfl
  | cons e events ih =>
    rcases ih (fun e he => hquiet e (List.mem_cons_of_mem _ he)) with hsame | hnone
    · have hstep := lookup_perform_cases (m := m) (hquiet e List.mem_cons_self) k
      rw [← hsame] at hstep
      exact hstep
    · exact Or.inr hnone

/-- An entry that is gone leaves no less room than it did. -/
theorem allowed_of_dropped (h : LastsFor m b) (ha : b.algorithm = a.id)
    (hdrop : m'.lookup b.key = m.lookup b.key ∨ m'.lookup b.key = none)
    (hallowed : (outcome t m b).allowed = true) : (outcome t m' b).allowed = true := by
  rcases hdrop with hsame | hnone
  · simpa [outcome, held, live, hsame] using hallowed
  · have hheld : held t m' b = none := by simp [held, live, hnone]
    cases a with
    | gcra =>
      have harrival : (t : ℤ) ≤ arrival (held t m b) t := by
        unfold arrival
        split
        · split_ifs <;> omega
        · exact le_rfl
      rw [outcome_of_gcra ha, evalGCRA_allowed_iff] at hallowed ⊢
      rw [hheld, arrival]
      omega
    | fixedWindow =>
      have hcount := h.counted_nonneg t (windowStart t (periodMicros b.window))
      rw [outcome_of_fixedWindow ha, evalFixed_allowed_iff] at hallowed ⊢
      rw [hheld, counted]
      omega

theorem costExceeds_of_allowed (h : LastsFor m b) (ha : b.algorithm = a.id)
    (hcheck : check a b.window = .ok ()) (hallowed : (outcome t m b).allowed = true) :
    (outcome t m b).costExceeds = false := by
  cases a with
  | gcra =>
    rw [outcome_of_gcra ha, evalGCRA_allowed_iff] at hallowed
    simp [outcome_of_gcra ha, evalGCRA, not_lt.mpr hallowed.1]
  | fixedWindow =>
    have hcount := h.counted_nonneg t (windowStart t (periodMicros b.window))
    have hrequests := one_le_requests hcheck
    rw [outcome_of_fixedWindow ha, evalFixed_allowed_iff] at hallowed
    simp only [outcome_of_fixedWindow ha, evalFixed, decide_eq_false_iff_not]
    omega

/-- A request that a process admits it would still admit later, whatever it was asked but
decisions, and whenever. -/
theorem admission_lasts (namespaceName domain : Text) (p : Option Model.Policy) (codec : Codec)
    (req : Request) {events : List Event} (hreach : Reachable t m) (hle : t ≤ t')
    (hadmitted : (decideRequest codec (compile namespaceName domain p).1 t m req).2.map
      Decision.allowed = .ok true) (hquiet : ∀ e ∈ events, e.Quiet) :
    (decideRequest codec (compile namespaceName domain p).1 t' (runs perform m events).1
      req).2.map Decision.allowed = .ok true := by
  obtain ⟨scope, hsnap⟩ := compile_sound namespaceName domain p
  cases hd : (decideRequest codec (compile namespaceName domain p).1 t m req).2 with
  | error err =>
    rw [hd] at hadmitted
    cases hadmitted
  | ok d =>
    have hanswer := Answerable.of_ok hsnap hd
    obtain ⟨d₀, hd₀, hresponse₀⟩ := decideRequest_eq t m hanswer
    obtain ⟨d', hd', hresponse⟩ := decideRequest_eq t' (runs perform m events).1 hanswer
    rw [hd₀] at hadmitted
    rw [hd']
    apply congrArg Except.ok ((congrArg Response.allowed hresponse).trans _)
    have hadmits := (congrArg Response.allowed hresponse₀).symm.trans (Except.ok.inj hadmitted)
    apply List.all_eq_true.mpr
    intro b hb
    have hbucket := List.all_eq_true.mp hadmits b hb
    cases hshadow : b.shadow with
    | true => rfl
    | false =>
      rw [hshadow, Bool.false_or] at hbucket
      obtain ⟨block, rule, rate, axes, hcounted⟩ := exists_countedBy hsnap hb
      have hlasts := hreach.kept.lastsFor hcounted
      have hcurable :=
        costExceeds_of_allowed hlasts hcounted.algorithm_eq hcounted.checked_window hbucket
      have hlater := (counted_later hreach.kept hcounted hle hcurable).mpr (Or.inl hbucket)
      exact allowed_of_dropped hlasts hcounted.algorithm_eq (lookup_runs_cases hquiet b.key) hlater

theorem admission_lasts_burst :
    let peek : Event :=
      ⟨7, .peek .inert (ascii "prod") (ascii "shop") (some shopPolicy) globexRequest⟩
    (decideRequest .inert (compileShop shopPolicy).1 9
      (runs perform globexStore [peek, ⟨8, .scan [] [] 1⟩]).1 globexRequest).2.map Decision.allowed =
        .ok true :=
  admission_lasts _ _ _ _ _ ((Reachable.empty 0).decide _ _ _ _ globexRequest) (by decide)
    (by decide +kernel) (by simp [Event.Quiet])

end Ratelimit.Engine
