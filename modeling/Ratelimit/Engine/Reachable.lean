import Ratelimit.Engine.Aggregate
import Ratelimit.Store.Observation

/-!
# Reachable counter state

The counters of a process live through any number of policies: every compiled
snapshot decides and peeks on the same store, operators reset and scan it, and
the clock never reads less than before. What such a history leaves under a key
is enough to say when an entry stops to matter.
-/
namespace Ratelimit.Engine

open Algo Store Match Compile Identity Library Memory

/-- The stores an engine process can hold when its clock reads `t`. -/
inductive Reachable : ℕ → Entries → Prop
  | empty (t : ℕ) : Reachable t ∅
  | wait {t t' : ℕ} {m : Entries} (h : Reachable t m) (hle : t ≤ t') : Reachable t' m
  | decide {t : ℕ} {m : Entries} (h : Reachable t m) (codec : Codec) (namespaceName domain : Text)
      (p : Option Model.Policy) (req : Request) :
      Reachable t (decideRequest codec (compile namespaceName domain p).1 t m req).1
  | peek {t : ℕ} {m : Entries} (h : Reachable t m) (codec : Codec) (namespaceName domain : Text)
      (p : Option Model.Policy) (req : Request) :
      Reachable t (peekRequest codec (compile namespaceName domain p).1 t m req).1
  | reset {t : ℕ} {m : Entries} (h : Reachable t m) (ks : List Text) :
      Reachable t (storeReset m ks)
  | scan {t : ℕ} {m : Entries} (h : Reachable t m) (pre cursor : Text) (limit : ℤ) :
      Reachable t (storeScan t m pre cursor limit).1

/-- What an entry under a key promises: it lasts as long as it matters, and it
counts a window that has begun. -/
structure KeptEntry (now : ℤ) (k : Text) (e : Entry) : Prop where
  count_nonneg : 0 ≤ e.count
  start_le : e.start ≤ now
  deadline_of_gcra : e.algorithm = .gcraID → e.deadline = e.tat
  deadline_of_fixedWindow : e.algorithm = .fixedWindowID →
    ∀ (id : Key.Ident) (a : Algorithm) (w : Window) (axes : List Text), second ∣ w.period →
      k = Key.bucket (Key.ratePrefix id a w) axes → e.deadline = e.start + periodMicros w

def Kept (now : ℤ) (m : Entries) : Prop := ∀ k e, m.lookup k = some e → KeptEntry now k e

section Invariant

variable {t t' : ℕ} {m m' : Entries} {k : Text}

theorem Kept.later {now now' : ℤ} (h : Kept now m) (hle : now ≤ now') : Kept now' m := by
  intro k e he
  obtain ⟨hcount, hstart, hgcra, hfixed⟩ := h k e he
  exact ⟨hcount, hstart.trans hle, hgcra, hfixed⟩

theorem Kept.of_dropped {now : ℤ} (h : Kept now m)
    (hdrop : ∀ k, m'.lookup k = m.lookup k ∨ m'.lookup k = none) : Kept now m' := by
  intro k e he
  rcases hdrop k with hk | hk
  · exact h k e (hk ▸ he)
  · rw [hk] at he
    cases he

def CountsNonneg (m : Entries) : Prop := ∀ k e, m.lookup k = some e → 0 ≤ e.count

theorem Kept.countsNonneg {now : ℤ} (h : Kept now m) : CountsNonneg m :=
  fun k e he => (h k e he).count_nonneg

theorem CountsNonneg.counted_nonneg (h : CountsNonneg m) (b : Bucket) (u start : ℤ) :
    0 ≤ counted (held u m b) start := by
  rcases (held_cases : held u m b = m.lookup b.key ∨ _) with hheld | hheld
  · rw [hheld]
    cases he : m.lookup b.key with
    | none => exact le_rfl
    | some e =>
      unfold counted
      dsimp only
      split_ifs
      · exact h _ e he
      · exact le_rfl
  · rw [hheld]
    exact le_rfl

theorem CountsNonneg.next_nonneg (h : CountsNonneg m) {b : Bucket} {a : Algorithm}
    (ha : b.algorithm = a.id) (hcost : 1 ≤ b.cost) (hallowed : (outcome t m b).allowed = true) :
    0 ≤ (outcome t m b).next.count := by
  cases a with
  | gcra =>
    rw [outcome_of_gcra ha] at hallowed ⊢
    rw [evalGCRA_next (evalGCRA_allowed_iff.mp hallowed).1]
  | fixedWindow =>
    have hcount := h.counted_nonneg b t (windowStart t (periodMicros b.window))
    rw [outcome_of_fixedWindow ha]
    change 0 ≤ counted _ _ + b.cost
    omega

theorem CountsNonneg.storeDecide (h : CountsNonneg m) (bs : List Bucket) :
    CountsNonneg (storeDecide t m bs).1 := by
  intro k e he
  refine entry_storeCall (c := ⟨t, .decide bs⟩) (h k) (fun _ b hb _ _ => ?_) he
  obtain ⟨a, ha⟩ := hb.registered b hb.mem
  exact h.next_nonneg ha ((guardBuckets_ok_iff.mp hb.guard).1 b hb.mem).1 hb.allowed

theorem keptEntry_next {scope : Key.Scope} {snap : Snapshot} {b : Bucket} {block : Block}
    {rule : Rule} {rate : Rate} {axes : List Text}
    (hb : CountedBy scope snap b block rule rate axes) (hcost : 1 ≤ b.cost) (h : Kept t m)
    (hallowed : (outcome t m b).allowed = true) : KeptEntry t b.key (outcome t m b).next := by
  have hcount := h.countsNonneg.next_nonneg hb.algorithm_eq hcost hallowed
  rcases hb.id_cases with hid | hid
  · rw [outcome_of_gcra hid] at hallowed hcount ⊢
    rw [evalGCRA_next (evalGCRA_allowed_iff.mp hallowed).1] at hcount ⊢
    exact ⟨hcount, Int.natCast_nonneg t, fun _ => rfl, fun hne => by cases hne⟩
  · have hperiod := one_le_periodMicros hb.checked_window
    rw [outcome_of_fixedWindow hid] at hcount ⊢
    refine ⟨hcount, windowStart_le hperiod, (fun hne => by cases hne), ?_⟩
    intro _ id a w axes' hw hkey
    -- the key fixes the period, whatever policy the other window is from
    rw [hb.key_eq] at hkey
    obtain ⟨-, -, hperiods, -⟩ := Key.bucket_injective (second_dvd_period hb.checked) hw hkey
    have hmicros : periodMicros b.window = periodMicros w := by
      unfold periodMicros
      rw [hb.window_eq, hperiods]
    rw [← hmicros]
    rfl

theorem kept_storeDecide {scope : Key.Scope} {snap : Snapshot} {codec : Codec} {req : Request}
    (hsnap : snap.Sound scope) (h : Kept t m) :
    Kept t (storeDecide t m (requestBuckets codec snap req)).1 := by
  intro k e he
  refine entry_storeCall (c := ⟨t, .decide _⟩) (h k) (fun _ b hb hmem hkey => ?_) he
  subst hkey
  obtain ⟨block, rule, rate, axes, hcounted⟩ := exists_countedBy hsnap hmem
  exact keptEntry_next hcounted ((guardBuckets_ok_iff.mp hb.guard).1 b hb.mem).1 h hb.allowed

/-- What survives the clock, drops and decisions holds of every reachable store. -/
theorem Reachable.invariant (Inv : ℕ → Entries → Prop) (hempty : ∀ t, Inv t ∅)
    (hwait : ∀ t t' m, t ≤ t' → Inv t m → Inv t' m)
    (hdrop : ∀ t m m', (∀ k, m'.lookup k = m.lookup k ∨ m'.lookup k = none) → Inv t m → Inv t m')
    (hdecide : ∀ t m (snap : Snapshot) (scope : Key.Scope) codec req, snap.Sound scope → Inv t m →
      Inv t (storeDecide t m (requestBuckets codec snap req)).1)
    (h : Reachable t m) : Inv t m := by
  induction h with
  | empty t => exact hempty t
  | wait _ hle ih => exact hwait _ _ _ hle ih
  | @decide t m _ codec namespaceName domain p req ih =>
    obtain ⟨scope, hsnap⟩ := compile_sound namespaceName domain p
    unfold decideRequest
    rcases evaluate_fst codec _ _ m req with hstate | hstate
    · rw [hstate]
      exact ih
    · rw [hstate]
      exact hdecide t m _ scope codec req hsnap ih
  | @peek t m _ codec namespaceName domain p req ih =>
    unfold peekRequest
    rcases evaluate_fst codec _ _ m req with hstate | hstate
    · rw [hstate]
      exact ih
    · rw [hstate]
      exact hdrop _ _ _ (fun k => lookup_storePeek_cases) ih
  | reset _ ks ih =>
    refine hdrop _ _ _ (fun k => ?_) ih
    rw [lookup_storeReset]
    split_ifs
    · exact Or.inr rfl
    · exact Or.inl rfl
  | @scan t m _ pre cursor limit ih =>
    exact hdrop _ _ _ (fun k => lookup_storeScan_cases) ih

theorem Reachable.kept (h : Reachable t m) : Kept t m := by
  refine h.invariant (fun t m => Kept t m) ?_ ?_ ?_ ?_
  · intro t k e he
    simp at he
  · intro t t' m hle hm
    exact hm.later (by exact_mod_cast hle)
  · intro t m m' hdrop hm
    exact hm.of_dropped hdrop
  · intro t m snap scope codec req hsnap hm
    exact kept_storeDecide hsnap hm

/-- Whatever policies wrote them, entries under the key of a window are of its
algorithm. -/
theorem Reachable.taggedAt (h : Reachable t m) {scope : Key.Scope} {snap : Snapshot} {b : Bucket}
    {block : Block} {rule : Rule} {rate : Rate} {axes : List Text}
    (hb : CountedBy scope snap b block rule rate axes) : TaggedAt b.algorithm b.key m := by
  refine h.invariant (fun _ m => TaggedAt b.algorithm b.key m) ?_ ?_ ?_ ?_
  · intro t e he
    simp at he
  · intro t t' m _ hm
    exact hm
  · intro t m m' hdrop hm
    exact hm.of_lookup (hdrop b.key)
  · intro t m snap' scope' codec req hsnap hm
    refine taggedAt_storeCall (c := ⟨t, .decide (requestBuckets codec snap' req)⟩) hm ?_
    intro c hc hkey
    obtain ⟨block', rule', rate', axes', hcounted⟩ := exists_countedBy hsnap hc
    rw [hcounted.algorithm_eq, hb.algorithm_eq, (hb.key_inj hcounted hkey.symm).2.2.1]

end Invariant

end Ratelimit.Engine
