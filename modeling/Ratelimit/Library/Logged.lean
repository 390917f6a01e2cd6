import Mathlib.Data.List.Forall2
import Mathlib.Tactic

/-!
# Computations that report what they find

A checker that does not stop at the first finding returns its result together
with everything it reported. Only some findings are fatal. The rules below read
a computation free of fatal findings back into what each of its steps returned.
-/
namespace Ratelimit.Library

universe u v

/-- A result and the findings of its computation, oldest first. -/
@[ext] structure Logged (ε : Type u) (α : Type) where
  value : α
  log : List ε

namespace Logged

variable {ε : Type u} {α β : Type} {κ : Type v}

instance : Monad (Logged ε) where
  pure a := ⟨a, []⟩
  bind x f := ⟨(f x.value).value, x.log ++ (f x.value).log⟩

def report (e : ε) : Logged ε Unit := ⟨(), [e]⟩

def reportIf (c : Prop) [Decidable c] (e : ε) : Logged ε Unit := ⟨(), if c then [e] else []⟩

def each (f : α → Logged ε Unit) : List α → Logged ε Unit
  | [] => pure ()
  | x :: xs => do
    f x
    each f xs

/-- Visit every element and keep what the visits return. -/
def collect (f : α → Logged ε (Option β)) : List α → Logged ε (List β)
  | [] => pure []
  | x :: xs => do
    let y ← f x
    let ys ← collect f xs
    pure (y.toList ++ ys)

/-- The same, where an element whose name was seen before is reported and skipped. -/
def collectDistinct [DecidableEq κ] (name : α → κ) (repeated : α → ε)
    (f : α → Logged ε (Option β)) : List κ → List α → Logged ε (List β)
  | _, [] => pure []
  | seen, x :: xs =>
    if name x ∈ seen then do
      report (repeated x)
      collectDistinct name repeated f seen xs
    else do
      let y ← f x
      let ys ← collectDistinct name repeated f (name x :: seen) xs
      pure (y.toList ++ ys)

@[simp] theorem value_pure (a : α) : (pure a : Logged ε α).value = a := rfl

@[simp] theorem log_pure (a : α) : (pure a : Logged ε α).log = [] := rfl

@[simp] theorem value_bind (x : Logged ε α) (f : α → Logged ε β) :
    (x >>= f).value = (f x.value).value := rfl

@[simp] theorem log_bind (x : Logged ε α) (f : α → Logged ε β) :
    (x >>= f).log = x.log ++ (f x.value).log := rfl

/-- No finding is of the kind `bad`. -/
def Free (bad : ε → Prop) (x : Logged ε α) : Prop := ∀ e ∈ x.log, ¬ bad e

section Free

variable {bad : ε → Prop}

@[simp] theorem free_pure (a : α) : (pure a : Logged ε α).Free bad := by
  simp [Free]

@[simp] theorem free_bind_iff {x : Logged ε α} {f : α → Logged ε β} :
    (x >>= f).Free bad ↔ x.Free bad ∧ (f x.value).Free bad := by
  simp [Free, or_imp, forall_and]

@[simp] theorem free_report_iff {e : ε} : (report e).Free bad ↔ ¬ bad e := by
  simp [Free, report]

@[simp] theorem free_reportIf_iff {c : Prop} [Decidable c] {e : ε} :
    (reportIf c e).Free bad ↔ (c → ¬ bad e) := by
  by_cases hc : c <;> simp [Free, reportIf, hc]

/-- A free walk pairs each element with what its own visit returns. -/
theorem forall₂_collect {f : α → Logged ε (Option β)} {R : α → β → Prop} {xs : List α}
    (hfree : (collect f xs).Free bad)
    (hvisit : ∀ x ∈ xs, (f x).Free bad → ∃ y, (f x).value = some y ∧ R x y) :
    List.Forall₂ R xs (collect f xs).value := by
  induction xs with
  | nil => exact List.Forall₂.nil
  | cons x xs ih =>
    simp only [collect, free_bind_iff] at hfree
    obtain ⟨y, hy, hR⟩ := hvisit x List.mem_cons_self hfree.1
    have hrest := ih hfree.2.1 fun z hz => hvisit z (List.mem_cons_of_mem _ hz)
    simpa [collect, hy] using List.Forall₂.cons hR hrest

variable [DecidableEq κ] {name : α → κ} {repeated : α → ε} {f : α → Logged ε (Option β)}

/-- Where a repeated name is fatal, a free walk is the plain one. -/
theorem collectDistinct_free (hrepeated : ∀ x, bad (repeated x)) {seen : List κ} {xs : List α}
    (hfree : (collectDistinct name repeated f seen xs).Free bad) :
    (xs.map name).Nodup ∧ (∀ x ∈ xs, name x ∉ seen) ∧
      collectDistinct name repeated f seen xs = collect f xs := by
  induction xs generalizing seen with
  | nil => simp [collectDistinct, collect]
  | cons x xs ih =>
    rw [collectDistinct] at hfree ⊢
    by_cases hseen : name x ∈ seen
    · rw [if_pos hseen] at hfree
      exact absurd (hrepeated x) (free_report_iff.mp (free_bind_iff.mp hfree).1)
    · rw [if_neg hseen] at hfree ⊢
      simp only [free_bind_iff] at hfree
      obtain ⟨hnodup, hfresh, heq⟩ := ih hfree.2.1
      refine ⟨?_, ?_, by rw [heq, collect]⟩
      · refine List.nodup_cons.mpr ⟨fun hm => ?_, hnodup⟩
        obtain ⟨z, hz, hname⟩ := List.mem_map.mp hm
        exact hfresh z hz (hname ▸ List.mem_cons_self)
      · refine List.forall_mem_cons.mpr ⟨hseen, fun z hz hm => ?_⟩
        exact hfresh z hz (List.mem_cons_of_mem _ hm)

end Free

theorem nodup_collectDistinct [DecidableEq κ] {name : α → κ} {repeated : α → ε}
    {f : α → Logged ε (Option β)} {g : β → κ}
    (hname : ∀ x y, (f x).value = some y → g y = name x) (seen : List κ) (xs : List α) :
    ((collectDistinct name repeated f seen xs).value.map g).Nodup ∧
      ∀ k ∈ (collectDistinct name repeated f seen xs).value.map g, k ∉ seen := by
  induction xs generalizing seen with
  | nil => simp [collectDistinct]
  | cons x xs ih =>
    rw [collectDistinct]
    by_cases hseen : name x ∈ seen
    · rw [if_pos hseen, value_bind]
      exact ih seen
    · obtain ⟨hnodup, hfresh⟩ := ih (name x :: seen)
      rw [if_neg hseen, value_bind, value_bind, value_pure]
      cases hy : (f x).value with
      | none =>
        refine ⟨hnodup, fun k hk hmem => ?_⟩
        exact hfresh k hk (List.mem_cons_of_mem _ hmem)
      | some y =>
        rw [Option.toList_some, List.singleton_append, List.map_cons, hname x y hy]
        refine ⟨List.nodup_cons.mpr ⟨fun hmem => hfresh _ hmem List.mem_cons_self, hnodup⟩, ?_⟩
        intro k hk hmem
        rcases List.mem_cons.mp hk with rfl | hk
        · exact hseen hmem
        · exact hfresh k hk (List.mem_cons_of_mem _ hmem)

end Logged
end Ratelimit.Library
