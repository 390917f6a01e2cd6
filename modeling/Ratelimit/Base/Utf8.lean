import Ratelimit.Base.Text

/-!
# The runes of a byte string

UTF-8 as the packages of the standard library read it. A text is taken one well-formed
sequence of one to four bytes at a time; a byte that begins none is an invalid unit of
its own.
-/
namespace Ratelimit.Utf8

def continues (b : Byte) : Bool := 0x80 ≤ b && b ≤ 0xBF

/-- The second byte, whose range the first one narrows. -/
def accepts (a b : Byte) : Bool :=
  (if a = 0xE0 then 0xA0 else if a = 0xF0 then 0x90 else 0x80) ≤ b &&
    b ≤ if a = 0xED then 0x9F else if a = 0xF4 then 0x8F else 0xBF

def wellFormed : Text → Bool
  | [a] => a < 0x80
  | [a, b] => 0xC2 ≤ a && a ≤ 0xDF && continues b
  | [a, b, c] => 0xE0 ≤ a && a ≤ 0xEF && accepts a b && continues c
  | [a, b, c, d] => 0xF0 ≤ a && a ≤ 0xF4 && accepts a b && continues c && continues d
  | _ => false

@[ext]
structure Rune where
  bytes : Text
  wellFormed : wellFormed bytes = true
  deriving DecidableEq

def firstRune (t : Text) : Option Rune :=
  [1, 2, 3, 4].findSome? fun n => if h : wellFormed (t.take n) = true then some ⟨t.take n, h⟩ else none

/-- The units of a text, for so many of them at most; `none` stands for an invalid byte. -/
def runesFrom : ℕ → Text → List (Option Rune)
  | 0, _ => []
  | _, [] => []
  | n + 1, b :: t =>
    match firstRune (b :: t) with
    | some r => some r :: runesFrom n ((b :: t).drop r.bytes.length)
    | none => none :: runesFrom n t

def runes (t : Text) : List (Option Rune) := runesFrom t.length t

def Valid (t : Text) : Prop := none ∉ runes t

instance (t : Text) : Decidable (Valid t) := inferInstanceAs (Decidable (none ∉ runes t))

def runeLength (a : Byte) : ℕ :=
  if a < 0x80 then 1 else if a < 0xE0 then 2 else if a < 0xF0 then 3 else 4

theorem Rune.length_eq (r : Rune) : ∃ a rest, r.bytes = a :: rest ∧ (a < 0x80 ∨ 0xC2 ≤ a) ∧
    r.bytes.length = runeLength a := by
  obtain ⟨bytes, h⟩ := r
  unfold Utf8.wellFormed at h
  split at h
  · next a =>
    have ha : a < 0x80 := by simpa using h
    exact ⟨a, [], rfl, Or.inl ha, by simp [runeLength, ha]⟩
  · next a b =>
    simp only [Bool.and_eq_true, decide_eq_true_eq] at h
    refine ⟨a, [b], rfl, Or.inr h.1.1, ?_⟩
    have hlow : ¬a < 0x80 := not_lt.mpr ((by decide : (0x80 : Byte) ≤ 0xC2).trans h.1.1)
    have hhigh : a < 0xE0 := h.1.2.trans_lt (by decide)
    simp [runeLength, hlow, hhigh]
  · next a b c =>
    simp only [Bool.and_eq_true, decide_eq_true_eq] at h
    have hfirst : 0xE0 ≤ a := h.1.1.1
    refine ⟨a, [b, c], rfl, Or.inr ((by decide : (0xC2 : Byte) ≤ 0xE0).trans hfirst), ?_⟩
    have hlow : ¬a < 0x80 := not_lt.mpr ((by decide : (0x80 : Byte) ≤ 0xE0).trans hfirst)
    have hhigh : a < 0xF0 := h.1.1.2.trans_lt (by decide)
    simp [runeLength, hlow, not_lt.mpr hfirst, hhigh]
  · next a b c d =>
    simp only [Bool.and_eq_true, decide_eq_true_eq] at h
    have hfirst : 0xF0 ≤ a := h.1.1.1.1
    refine ⟨a, [b, c, d], rfl, Or.inr ((by decide : (0xC2 : Byte) ≤ 0xF0).trans hfirst), ?_⟩
    have hlow : ¬a < 0x80 := not_lt.mpr ((by decide : (0x80 : Byte) ≤ 0xF0).trans hfirst)
    have hmiddle : ¬a < 0xE0 := not_lt.mpr ((by decide : (0xE0 : Byte) ≤ 0xF0).trans hfirst)
    simp [runeLength, hlow, hmiddle, not_lt.mpr hfirst]
  · cases h

theorem Rune.eq_of_begins {r s : Rune} (h : r.bytes <+: s.bytes) : r = s := by
  obtain ⟨a, rest, hr, -, hlength⟩ := r.length_eq
  obtain ⟨a', rest', hs, -, hlength'⟩ := s.length_eq
  have hfirst : a = a' := by
    rw [hr, hs] at h
    exact (List.cons_prefix_cons.mp h).1
  rw [hfirst, ← hlength'] at hlength
  exact Rune.ext (h.eq_of_length hlength)

theorem firstRune_some {t : Text} {r : Rune} (h : firstRune t = some r) : r.bytes <+: t := by
  obtain ⟨n, -, hn⟩ := List.exists_of_findSome?_eq_some h
  split_ifs at hn
  obtain rfl := Option.some.inj hn
  exact List.take_prefix _ _

theorem runes_eq_nil_iff {t : Text} : runes t = [] ↔ t = [] := by
  cases t with
  | nil => simp [runes, runesFrom]
  | cons b t =>
    simp only [runes, List.length_cons, runesFrom]
    split <;> simp

theorem runesFrom_cons {n : ℕ} {b : Byte} {t : Text} {r : Rune} (hlength : t.length ≤ n)
    (h : firstRune (b :: t) = some r) : ∃ rest, r.bytes ++ rest = b :: t ∧ rest.length ≤ n ∧
      runesFrom (n + 1) (b :: t) = some r :: runesFrom n rest := by
  obtain ⟨rest, hrest⟩ := firstRune_some h
  obtain ⟨a, tail, hbytes, -⟩ := r.length_eq
  refine ⟨rest, hrest, ?_, ?_⟩
  · have hsum := congrArg List.length hrest
    simp only [hbytes, List.length_append, List.length_cons] at hsum
    omega
  · simp only [runesFrom, h]
    rw [← hrest, List.drop_left]

theorem flatMap_runesFrom {n : ℕ} {t : Text} (hlength : t.length ≤ n)
    (hvalid : none ∉ runesFrom n t) :
    (runesFrom n t).flatMap (fun r => (r.map Rune.bytes).getD []) = t := by
  induction n generalizing t with
  | zero =>
    obtain rfl := List.eq_nil_of_length_eq_zero (Nat.le_zero.mp hlength)
    rfl
  | succ n ih =>
    cases t with
    | nil => rfl
    | cons b t =>
      cases hfirst : firstRune (b :: t) with
      | none => simp [runesFrom, hfirst] at hvalid
      | some r =>
        obtain ⟨rest, hrest, hshort, hunits⟩ :=
          runesFrom_cons (Nat.le_of_succ_le_succ hlength) hfirst
        rw [hunits] at hvalid ⊢
        rw [List.flatMap_cons, ih hshort fun h => hvalid (List.mem_cons_of_mem _ h)]
        exact hrest

/-- The encoding of U+FFFD, which stands in for an invalid byte. -/
def replacement : Text := [0xEF, 0xBF, 0xBD]

/-- The text that a JSON string carries instead: invalid bytes are replaced. -/
def coerce (t : Text) : Text := (runes t).flatMap fun u => (u.map Rune.bytes).getD replacement

/-- The runes of that text. -/
def coercedRunes (t : Text) : List Rune := (runes t).map fun u => u.getD ⟨replacement, rfl⟩

theorem length_coerceFrom {n : ℕ} {t : Text} (hlength : t.length ≤ n) :
    ((runesFrom n t).flatMap fun u => (u.map Rune.bytes).getD replacement).length =
      t.length + 2 * (runesFrom n t).count none := by
  induction n generalizing t with
  | zero =>
    obtain rfl := List.eq_nil_of_length_eq_zero (Nat.le_zero.mp hlength)
    rfl
  | succ n ih =>
    cases t with
    | nil => rfl
    | cons b t =>
      cases hfirst : firstRune (b :: t) with
      | none =>
        have hrest := ih (Nat.le_of_succ_le_succ hlength)
        simp only [runesFrom, hfirst]
        rw [List.flatMap_cons, List.length_append, hrest, List.count_cons_self, List.length_cons]
        simp only [Option.map_none, Option.getD_none, replacement, List.length_cons, List.length_nil]
        omega
      | some r =>
        obtain ⟨rest, hrest, hshort, hunits⟩ :=
          runesFrom_cons (Nat.le_of_succ_le_succ hlength) hfirst
        rw [hunits, List.flatMap_cons, List.length_append, ih hshort, ← hrest, List.length_append]
        simp only [Option.map_some, Option.getD_some, List.count_cons, reduceCtorEq, beq_iff_eq,
          if_false]
        omega

theorem coerce_eq_iff {t : Text} : coerce t = t ↔ Valid t := by
  constructor
  · intro heq
    have hlength := @length_coerceFrom _ t le_rfl
    change (coerce t).length = _ at hlength
    rw [heq] at hlength
    exact List.count_eq_zero.mp (by unfold runes; omega)
  · intro hvalid
    have hbytes : coerce t = (runes t).flatMap fun u => (u.map Rune.bytes).getD [] := by
      refine List.flatMap_congr fun u hu => ?_
      cases u with
      | none => exact absurd hu hvalid
      | some r => rfl
    rw [hbytes]
    exact flatMap_runesFrom le_rfl hvalid

theorem coercedRunes_eq_nil_iff {t : Text} : coercedRunes t = [] ↔ t = [] := by
  rw [coercedRunes, List.map_eq_nil_iff, runes_eq_nil_iff]

theorem coerce_eq_flatMap (t : Text) : coerce t = (coercedRunes t).flatMap Rune.bytes := by
  rw [coercedRunes, List.flatMap_map]
  refine List.flatMap_congr fun u _ => ?_
  cases u <;> rfl

theorem eq_of_coercedRunes {t t' : Text} (hvalid : Valid t) (hvalid' : Valid t')
    (h : coercedRunes t = coercedRunes t') : t = t' := by
  rw [← coerce_eq_iff.mpr hvalid, ← coerce_eq_iff.mpr hvalid', coerce_eq_flatMap, h,
    coerce_eq_flatMap]

end Ratelimit.Utf8
