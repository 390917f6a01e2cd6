import Mathlib.Data.List.Infix
import Mathlib.Tactic

/-!
# Delimited fields over an arbitrary alphabet

A list of fields with a terminator after every field. When no field holds the terminator, the
writing determines the fields, and it begins another one exactly where its fields do. So do the
words of a code none of which begins another one.
-/
namespace Ratelimit.Library

variable {α : Type*}

theorem append_sep_inj {sep : α} {a b x y : List α} (ha : sep ∉ a) (hb : sep ∉ b)
    (h : a ++ sep :: x = b ++ sep :: y) : a = b ∧ x = y := by
  induction a generalizing b with
  | nil =>
    cases b with
    | nil => exact ⟨rfl, by simpa using h⟩
    | cons c b =>
      have hc : sep = c := by simpa using congrArg List.head? h
      exact absurd hc (fun he => hb (he ▸ List.mem_cons_self))
  | cons d a ih =>
    cases b with
    | nil =>
      have hd : d = sep := by simpa using congrArg List.head? h
      exact absurd hd (fun he => ha (he ▸ List.mem_cons_self))
    | cons c b =>
      simp only [List.cons_append, List.cons.injEq] at h
      obtain ⟨rfl, h⟩ := h
      have hih := ih (fun hm => ha (List.mem_cons_of_mem _ hm))
        (fun hm => hb (List.mem_cons_of_mem _ hm)) h
      exact ⟨by rw [hih.1], hih.2⟩

/-- A code whose words are nonempty and none of which begins another is
uniquely decodable. -/
theorem flatMap_injective {β : Type*} {code : α → List β} (hne : ∀ a, code a ≠ [])
    (hfree : ∀ a b, code a <+: code b → a = b) : Function.Injective (List.flatMap code) := by
  intro l l' h
  induction l generalizing l' with
  | nil =>
    cases l' with
    | nil => rfl
    | cons b bs => simp [hne b] at h
  | cons a as ih =>
    cases l' with
    | nil => simp [hne a] at h
    | cons b bs =>
      rw [List.flatMap_cons, List.flatMap_cons] at h
      have hab : a = b := by
        have hleft : code a <+: code b ++ bs.flatMap code := h ▸ List.prefix_append _ _
        rcases List.prefix_or_prefix_of_prefix hleft (List.prefix_append _ _) with hp | hp
        · exact hfree a b hp
        · exact (hfree b a hp).symm
      subst hab
      rw [ih (List.append_cancel_left h)]

/-- The words of such a code, none of which begins with the terminator, can be told from
what follows it. -/
theorem flatMap_sep_inj {β : Type*} {code : α → List β} {sep : β} {l l' : List α} {x y : List β}
    (hhead : ∀ a, ∃ b rest, code a = b :: rest ∧ b ≠ sep)
    (hfree : ∀ a b, code a <+: code b → a = b)
    (h : l.flatMap code ++ sep :: x = l'.flatMap code ++ sep :: y) : l = l' ∧ x = y := by
  have hends : ∀ {a : α} {as : List α} {x y : List β},
      sep :: x ≠ (a :: as).flatMap code ++ sep :: y := by
    intro a as x y heq
    obtain ⟨b, rest, hcode, hne⟩ := hhead a
    rw [List.flatMap_cons, hcode, List.cons_append, List.cons_append] at heq
    exact hne (List.cons.inj heq).1.symm
  induction l generalizing l' with
  | nil =>
    cases l' with
    | nil => exact ⟨rfl, (List.cons.inj h).2⟩
    | cons b bs => exact absurd h hends
  | cons a as ih =>
    cases l' with
    | nil => exact absurd h.symm hends
    | cons b bs =>
      rw [List.flatMap_cons, List.flatMap_cons, List.append_assoc, List.append_assoc] at h
      have hab : a = b := by
        have hleft : code a <+: code b ++ (bs.flatMap code ++ sep :: y) := h ▸ List.prefix_append _ _
        rcases List.prefix_or_prefix_of_prefix hleft (List.prefix_append _ _) with hp | hp
        · exact hfree a b hp
        · exact (hfree b a hp).symm
      subst hab
      obtain ⟨hrest, hxy⟩ := ih (List.append_cancel_left h)
      exact ⟨by rw [hrest], hxy⟩

def terminated (sep : α) (fields : List (List α)) : List α :=
  fields.flatMap (fun f => f ++ [sep])

@[simp] theorem terminated_nil (sep : α) : terminated sep [] = [] := rfl

@[simp] theorem terminated_cons (sep : α) (f : List α) (fields : List (List α)) :
    terminated sep (f :: fields) = f ++ sep :: terminated sep fields := by
  simp [terminated]

theorem terminated_inj {sep : α} {fields fields' : List (List α)}
    (h : ∀ f ∈ fields, sep ∉ f) (h' : ∀ f ∈ fields', sep ∉ f)
    (heq : terminated sep fields = terminated sep fields') : fields = fields' := by
  induction fields generalizing fields' with
  | nil =>
    cases fields' with
    | nil => rfl
    | cons g gs => simp at heq
  | cons f fs ih =>
    cases fields' with
    | nil => simp at heq
    | cons g gs =>
      simp only [terminated_cons] at heq
      obtain ⟨rfl, hrest⟩ := append_sep_inj (h f List.mem_cons_self) (h' g List.mem_cons_self) heq
      rw [ih (fun f hf => h f (List.mem_cons_of_mem _ hf))
        (fun f hf => h' f (List.mem_cons_of_mem _ hf)) hrest]

theorem append_sep_prefix_iff {sep : α} {a b x y : List α} (ha : sep ∉ a) (hb : sep ∉ b) :
    a ++ sep :: x <+: b ++ sep :: y ↔ a = b ∧ x <+: y := by
  constructor
  · rintro ⟨t, ht⟩
    rw [List.append_assoc, List.cons_append] at ht
    obtain ⟨hhead, htail⟩ := append_sep_inj ha hb ht
    exact ⟨hhead, t, htail⟩
  · rintro ⟨rfl, t, rfl⟩
    exact ⟨t, by simp⟩

theorem terminated_prefix_iff {sep : α} {fields fields' : List (List α)}
    (h : ∀ f ∈ fields, sep ∉ f) (h' : ∀ f ∈ fields', sep ∉ f) :
    terminated sep fields <+: terminated sep fields' ↔ fields <+: fields' := by
  induction fields generalizing fields' with
  | nil => simp
  | cons f fs ih =>
    cases fields' with
    | nil => simp
    | cons g gs =>
      have hrest := ih (fun f hf => h f (List.mem_cons_of_mem _ hf))
        (fun f hf => h' f (List.mem_cons_of_mem _ hf))
      rw [terminated_cons, terminated_cons,
        append_sep_prefix_iff (h f List.mem_cons_self) (h' g List.mem_cons_self), hrest,
        List.cons_prefix_cons]

theorem not_mem_of_mem_splitOn [BEq α] [LawfulBEq α] {sep : α} {l f : List α}
    (h : f ∈ l.splitOn sep) : sep ∉ f := by
  induction l generalizing f with
  | nil =>
    obtain rfl : f = [] := by simpa using h
    exact List.not_mem_nil
  | cons x l ih =>
    rw [List.splitOn_cons_eq_if_modifyHead] at h
    split_ifs at h with hx
    · rcases List.mem_cons.mp h with rfl | h
      · exact List.not_mem_nil
      · exact ih h
    · obtain ⟨g, gs, hsplit⟩ := List.exists_cons_of_ne_nil (List.splitOn_ne_nil sep l)
      rw [hsplit, List.modifyHead_cons] at h
      rw [hsplit] at ih
      rcases List.mem_cons.mp h with rfl | h
      · have hne : sep ≠ x := fun he => hx (he ▸ BEq.rfl)
        exact List.not_mem_cons_of_ne_of_not_mem hne (ih List.mem_cons_self)
      · exact ih (List.mem_cons_of_mem _ h)

theorem splitOn_terminated [BEq α] [LawfulBEq α] {sep : α} {fields : List (List α)}
    (h : ∀ f ∈ fields, sep ∉ f) :
    (terminated sep fields).splitOn sep = fields ++ [[]] := by
  induction fields with
  | nil => simp
  | cons f fs ih =>
    rw [terminated_cons, List.splitOn_append_cons_self_of_not_mem (h f List.mem_cons_self),
      ih (fun f hf => h f (List.mem_cons_of_mem _ hf)), List.cons_append]

end Ratelimit.Library
