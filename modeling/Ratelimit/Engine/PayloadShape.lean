import Ratelimit.Engine.Identity

/-!
# What the shape guard measures

The scan of a payload tells strings from the rest by two flags. On a text of the JSON
grammar it measures how deep the brackets nest and how many separators stand outside the
strings, from whatever it has measured before.
-/
namespace Ratelimit.Identity

open Key

/-- The bytes between the quotes of a string: escapes, and bytes that need none. -/
inductive StringBody : Text → Prop
  | nil : StringBody []
  | plain {b : Byte} {t : Text} : b ≠ byte '"' → b ≠ byte '\\' → StringBody t → StringBody (b :: t)
  | escape {b : Byte} {t : Text} : StringBody t → StringBody (byte '\\' :: b :: t)

def quoted (t : Text) : Text := byte '"' :: (t ++ [byte '"'])

/-- Bytes of white space, literals and numbers. -/
def Bare (t : Text) : Prop :=
  ∀ b ∈ t, b ∉ [byte '"', openBrace, closeBrace, byte '[', byte ']', byte ',', byte ':']

inductive Part where
  | value
  | member
  | items (of : Part)

def Part.opening : Part → Byte
  | member => openBrace
  | _ => byte '['

def Part.closing : Part → Byte
  | member => closeBrace
  | _ => byte ']'

/-- The JSON grammar, with how deep a text nests and its separators outside strings. -/
inductive Derives : Part → Text → ℕ → ℕ → Prop
  | token {t : Text} : Bare t → Derives .value t 0 0
  | string {t : Text} : StringBody t → Derives .value (quoted t) 0 0
  | padded {t u v : Text} {d n : ℕ} : Bare u → Bare v → Derives .value t d n →
    Derives .value (u ++ t ++ v) d n
  | empty {t : Text} (p : Part) : Bare t → Derives .value (p.opening :: (t ++ [p.closing])) 1 0
  | nested {p : Part} {t : Text} {d n : ℕ} : Derives (.items p) t d n →
    Derives .value (p.opening :: (t ++ [p.closing])) (d + 1) n
  | member {k t u v : Text} {d n : ℕ} : Bare u → Bare v → StringBody k → Derives .value t d n →
    Derives .member (u ++ quoted k ++ v ++ byte ':' :: t) d (n + 1)
  | last {p : Part} {t : Text} {d n : ℕ} : Derives p t d n → Derives (.items p) t d n
  | more {p : Part} {t u : Text} {d e n k : ℕ} : Derives p t d n → Derives (.items p) u e k →
    Derives (.items p) (t ++ byte ',' :: u) (max d e) (n + 1 + k)

section Scan

variable {t : Text} {e : ℤ} {k : ℕ}

theorem scan_bare (h : Bare t) :
    t.foldlM shapeByte ⟨e, k, false, false⟩ = some ⟨e, k, false, false⟩ := by
  induction t with
  | nil => rfl
  | cons b t ih =>
    obtain ⟨hb, ht⟩ := List.forall_mem_cons.mp h
    simp only [List.mem_cons, List.not_mem_nil, or_false, not_or] at hb
    simpa [shapeByte, hb] using ih ht

theorem scan_body (h : StringBody t) :
    t.foldlM shapeByte ⟨e, k, true, false⟩ = some ⟨e, k, true, false⟩ := by
  induction h with
  | nil => rfl
  | plain hquote hslash _ ih => simpa [shapeByte, hquote, hslash] using ih
  | escape _ ih => simpa [shapeByte] using ih

theorem scan_quoted (h : StringBody t) :
    (quoted t).foldlM shapeByte ⟨e, k, false, false⟩ = some ⟨e, k, false, false⟩ := by
  have hne : byte '"' ≠ byte '\\' := by decide
  simp [quoted, shapeByte, scan_body h, hne]

/-- From bounds that hold, the scan of the text ends where both bounds still hold. -/
def Scans (t : Text) (d n : ℕ) : Prop :=
  ∀ (e : ℤ) (k : ℕ), e ≤ maxPayloadDepth → k ≤ maxPayloadSeparators →
    t.foldlM shapeByte ⟨e, k, false, false⟩ =
      if e + d ≤ maxPayloadDepth ∧ k + n ≤ maxPayloadSeparators then
        some ⟨e, k + n, false, false⟩ else none

theorem scans_of_idle (h : ∀ e k, t.foldlM shapeByte ⟨e, k, false, false⟩ =
    some ⟨e, k, false, false⟩) : Scans t 0 0 := by
  intro e k he hk
  simp [h, he, hk]

theorem Scans.append {u : Text} {d d' n n' : ℕ} (ht : Scans t d n) (hu : Scans u d' n') :
    Scans (t ++ u) (max d d') (n + n') := by
  intro e k he hk
  rw [List.foldlM_append, ht e k he hk]
  by_cases hfits : e + d ≤ maxPayloadDepth ∧ k + n ≤ maxPayloadSeparators
  · have hboth : e + max d d' ≤ maxPayloadDepth ∧ k + (n + n') ≤ maxPayloadSeparators ↔
        e + d' ≤ maxPayloadDepth ∧ k + n + n' ≤ maxPayloadSeparators := by omega
    simp only [if_pos hfits, Option.bind_eq_bind, Option.bind_some, hu e (k + n) he hfits.2, hboth,
      add_assoc]
  · rw [if_neg hfits, if_neg (by omega)]
    rfl

theorem scans_separator {c : Byte} (hc : c = byte ',' ∨ c = byte ':') : Scans [c] 0 1 := by
  intro e k he hk
  have hstep : shapeByte ⟨e, k, false, false⟩ c =
      if maxPayloadSeparators < k + 1 then none else some ⟨e, k + 1, false, false⟩ := by
    rcases hc with rfl | rfl <;> rfl
  rw [List.foldlM_cons, hstep]
  by_cases hfull : maxPayloadSeparators < k + 1
  · rw [if_pos hfull, if_neg (by omega)]
    rfl
  · rw [if_neg hfull, if_pos (by omega)]
    rfl

theorem Scans.bracketed {d n : ℕ} (h : Scans t d n) (p : Part) :
    Scans (p.opening :: (t ++ [p.closing])) (d + 1) n := by
  intro e k he hk
  have hopen : shapeByte ⟨e, k, false, false⟩ p.opening =
      if maxPayloadDepth < e + 1 then none else some ⟨e + 1, k, false, false⟩ := by
    cases p <;> rfl
  have hclose : shapeByte ⟨e + 1, k + n, false, false⟩ p.closing =
      some ⟨e + 1 - 1, k + n, false, false⟩ := by
    cases p <;> rfl
  rw [List.foldlM_cons, hopen]
  by_cases hdeep : maxPayloadDepth < e + 1
  · rw [if_pos hdeep, if_neg (by omega)]
    rfl
  · have hboth : e + 1 + d ≤ maxPayloadDepth ↔ e + (d + 1 : ℕ) ≤ maxPayloadDepth := by omega
    simp only [if_neg hdeep, Option.bind_eq_bind, Option.bind_some, List.foldlM_append,
      h (e + 1) k (not_lt.mp hdeep) hk, hboth]
    split_ifs
    · simp [hclose]
    · rfl

theorem Derives.scans {p : Part} {d n : ℕ} (h : Derives p t d n) : Scans t d n := by
  have hbare : ∀ {u}, Bare u → Scans u 0 0 := fun hu => scans_of_idle fun _ _ => scan_bare hu
  have hquoted : ∀ {u}, StringBody u → Scans (quoted u) 0 0 :=
    fun hu => scans_of_idle fun _ _ => scan_quoted hu
  induction h with
  | token h => exact hbare h
  | string h => exact hquoted h
  | padded hu hv _ ih => simpa using ((hbare hu).append ih).append (hbare hv)
  | empty p h => exact (hbare h).bracketed p
  | nested _ ih => exact ih.bracketed _
  | member hu hv hk _ ih =>
    have hkey := ((hbare hu).append (hquoted hk)).append (hbare hv)
    simpa [add_comm] using hkey.append ((scans_separator (Or.inr rfl)).append ih)
  | last _ ih => exact ih
  | more _ _ ih ih' =>
    simpa [add_assoc] using ih.append ((scans_separator (Or.inl rfl)).append ih')

end Scan

/-- The guard passes a JSON text exactly when it keeps both bounds. -/
theorem withinShape_measures {t : Text} {d n : ℕ} (h : Derives .value t d n) :
    withinShape t = true ↔ d ≤ maxPayloadDepth ∧ n ≤ maxPayloadSeparators := by
  have hscan := h.scans 0 0 (by decide) (by decide)
  rw [zero_add, zero_add] at hscan
  rw [withinShape, hscan]
  split_ifs with hfits <;> simp [hfits]

theorem withinShape_measures_escapes :
    let text := ascii "[\"\\\"[\\\\\", 1]"
    Derives .value text 1 1 ∧
      (withinShape text = true ↔ (1 : ℕ) ≤ maxPayloadDepth ∧ 1 ≤ maxPayloadSeparators) := by
  intro text
  have hbody : StringBody (ascii "\\\"[\\\\") :=
    .escape (.plain (by decide) (by decide) (.escape .nil))
  have htoken : Bare (ascii " 1") := by unfold Bare; decide +kernel
  have htext : Derives .value text 1 1 :=
    .nested (.more (.string hbody) (.last (.token htoken)))
  exact ⟨htext, withinShape_measures htext⟩

end Ratelimit.Identity
