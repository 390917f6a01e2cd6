import Mathlib.Data.List.Infix
import Mathlib.Order.Fin.Basic
import Mathlib.Tactic

/-!
# Byte strings and the string operations the packages call

A Go string is a list of bytes, compared byte by byte; literals are written through `ascii`.
An error or a problem keeps its format text and its arguments apart, so that two of them are
equal exactly when they report the same thing.
-/
namespace Ratelimit

abbrev Byte := Fin 256

abbrev Text := List Byte

section Comparison

-- What comparing and sorting texts rests on, under one name for the definitions of all modules.
instance byteSizeNeZero : NeZero 256 := ⟨by decide⟩

instance byteLawfulBEq : LawfulBEq Byte where
  eq_of_beq := of_decide_eq_true
  rfl := decide_eq_true rfl

instance textLawfulBEq : LawfulBEq Text where
  eq_of_beq := eq_of_beq
  rfl := beq_self_eq_true _

instance textLeTrans : IsTrans Text (· ≤ ·) := ⟨fun _ _ _ => le_trans⟩

instance textLeAntisymm : Std.Antisymm fun s t : Text => s ≤ t := ⟨fun _ _ => le_antisymm⟩

instance textLeTotal : Std.Total fun s t : Text => s ≤ t := ⟨le_total⟩

end Comparison

def byte (c : Char) : Byte := Fin.ofNat 256 c.toNat

def ascii (s : String) : Text := s.toList.map byte

inductive Arg where
  | text (t : Text)
  | number (n : ℤ)
  | duration (d : ℤ)
  | list (ts : List Text)
  deriving DecidableEq, Repr

/-- `fmt.Sprintf` and `fmt.Errorf` before rendering. -/
structure Message where
  format : String
  args : List Arg
  deriving DecidableEq, Repr

/-- A trailing `%v` or `%w` prints the inner error. -/
def Message.wrap (format : String) (args : List Arg) (inner : Message) : Message :=
  ⟨format ++ inner.format, args ++ inner.args⟩

namespace Strings

def hasPrefix (s p : Text) : Bool := p.isPrefixOf s

def hasSuffix (s p : Text) : Bool := p.isSuffixOf s

/-- The text before the first separator and the text after it. -/
def cut : Text → Byte → Text × Text
  | [], _ => ([], [])
  | c :: s, sep =>
    if c = sep then ([], s)
    else
      let r := cut s sep
      (c :: r.1, r.2)

def split (s : Text) (sep : Byte) : List Text := s.splitOn sep

def join (fields : List Text) (sep : Byte) : Text := [sep].intercalate fields

def trimPrefix (s p : Text) : Text := if hasPrefix s p then s.drop p.length else s

def cutPrefix (s p : Text) : Option Text := if hasPrefix s p then some (s.drop p.length) else none

def containsAny (s : Text) (chars : Text) : Bool := s.any (fun c => decide (c ∈ chars))

/-- `strings.ToLower` on ASCII text, which the algorithm names are. -/
def toLowerAscii (s : Text) : Text :=
  s.map fun c => if byte 'A' ≤ c ∧ c ≤ byte 'Z' then c + 32 else c

@[simp] theorem hasPrefix_iff {s p : Text} : hasPrefix s p = true ↔ p <+: s := by
  simp [hasPrefix, List.isPrefixOf_iff_prefix]

@[simp] theorem hasSuffix_iff {s p : Text} : hasSuffix s p = true ↔ p <:+ s := by
  simp [hasSuffix, List.isSuffixOf_iff_suffix]

theorem cutPrefix_append (p s : Text) : cutPrefix (p ++ s) p = some s := by
  simp [cutPrefix]

theorem cut_append_sep {s t : Text} {sep : Byte} (hs : sep ∉ s) :
    cut (s ++ sep :: t) sep = (s, t) := by
  induction s with
  | nil => simp [cut]
  | cons c s ih =>
    have hc : c ≠ sep := fun he => hs (he ▸ List.mem_cons_self)
    have hcut := ih (fun hm => hs (List.mem_cons_of_mem _ hm))
    simp [cut, hc, hcut]

theorem cut_of_not_mem {s : Text} {sep : Byte} (hs : sep ∉ s) : cut s sep = (s, []) := by
  induction s with
  | nil => rfl
  | cons c s ih =>
    have hc : c ≠ sep := fun he => hs (he ▸ List.mem_cons_self)
    have hcut := ih (fun hm => hs (List.mem_cons_of_mem _ hm))
    simp [cut, hc, hcut]

end Strings

namespace Strconv

def isDigit (c : Byte) : Bool := decide (byte '0' ≤ c ∧ c ≤ byte '9')

def formatNat (n : ℕ) : Text := (Nat.toDigits 10 n).map byte

/-- `strconv.FormatInt` in base ten. -/
def formatInt : ℤ → Text
  | .ofNat n => formatNat n
  | .negSucc n => byte '-' :: formatNat (n + 1)

def digitsValue (s : Text) : ℕ := s.foldl (fun n d => 10 * n + (d.val - 48)) 0

def parseNat (s : Text) : Option ℕ :=
  if s ≠ [] ∧ s.all isDigit then some (digitsValue s) else none

/-- `strconv.ParseInt` in base ten at 64 bits. -/
def parseInt : Text → Option ℤ
  | [] => none
  | c :: s =>
    if c = byte '-' then
      (parseNat s).bind fun n => if n ≤ 2 ^ 63 then some (-(n : ℤ)) else none
    else
      (parseNat (if c = byte '+' then s else c :: s)).bind fun n =>
        if n < 2 ^ 63 then some (n : ℤ) else none

theorem formatNat_ne_nil (n : ℕ) : formatNat n ≠ [] := by
  simp [formatNat]

theorem isDigit_of_mem_formatNat {n : ℕ} {c : Byte} (h : c ∈ formatNat n) : isDigit c = true := by
  obtain ⟨d, hd, rfl⟩ := List.mem_map.mp h
  have hdigit := Nat.isDigit_of_mem_toDigits (by decide) (by decide) hd
  obtain ⟨hlo, hhi⟩ : 48 ≤ d.toNat ∧ d.toNat ≤ 57 := by
    simpa [Char.isDigit, UInt32.le_iff_toNat_le] using hdigit
  have hval : (byte d).val = d.toNat := by
    simp only [byte, Fin.val_ofNat]
    omega
  simp only [isDigit, Fin.le_def, hval, decide_eq_true_eq]
  exact ⟨hlo, hhi⟩

theorem digitsValue_map_byte {ds : List Char} (h : ∀ d ∈ ds, d.toNat < 256) (init : ℕ) :
    (ds.map byte).foldl (fun n d => 10 * n + (d.val - 48)) init = Nat.ofDigitChars 10 ds init := by
  induction ds generalizing init with
  | nil => rfl
  | cons d ds ih =>
    have hval : (byte d).val = d.toNat := by
      simp [byte, Nat.mod_eq_of_lt (h d List.mem_cons_self)]
    rw [List.map_cons, List.foldl_cons, ih (fun d hd => h d (List.mem_cons_of_mem _ hd)),
      Nat.ofDigitChars_cons, hval]
    rfl

@[simp] theorem digitsValue_formatNat (n : ℕ) : digitsValue (formatNat n) = n := by
  have hlt : ∀ d ∈ Nat.toDigits 10 n, d.toNat < 256 := by
    intro d hd
    have hdigit := Nat.isDigit_of_mem_toDigits (by decide) (by decide) hd
    have : 48 ≤ d.toNat ∧ d.toNat ≤ 57 := by
      simpa [Char.isDigit, UInt32.le_iff_toNat_le] using hdigit
    omega
  rw [digitsValue, formatNat, digitsValue_map_byte hlt, Nat.ofDigitChars_ten_toDigits]

@[simp] theorem parseNat_formatNat (n : ℕ) : parseNat (formatNat n) = some n := by
  have hall : (formatNat n).all isDigit = true :=
    List.all_eq_true.mpr fun _ hc => isDigit_of_mem_formatNat hc
  simp [parseNat, formatNat_ne_nil, hall]

theorem formatNat_injective {m n : ℕ} (h : formatNat m = formatNat n) : m = n := by
  simpa using congrArg digitsValue h

theorem mem_formatInt {n : ℤ} {c : Byte} (h : c ∈ formatInt n) :
    isDigit c = true ∨ c = byte '-' := by
  cases n with
  | ofNat n => exact Or.inl (isDigit_of_mem_formatNat h)
  | negSucc n =>
    rcases List.mem_cons.mp h with h | h
    · exact Or.inr h
    · exact Or.inl (isDigit_of_mem_formatNat h)

theorem formatInt_ne_nil (n : ℤ) : formatInt n ≠ [] := by
  cases n with
  | ofNat n => exact formatNat_ne_nil n
  | negSucc n => exact List.cons_ne_nil _ _

theorem colon_not_mem_formatInt (n : ℤ) : byte ':' ∉ formatInt n := by
  intro h
  rcases mem_formatInt h with hd | hd
  · exact absurd hd (by decide)
  · exact absurd hd (by decide)

theorem head_formatNat_digit {n : ℕ} {c : Byte} {s : Text} (h : formatNat n = c :: s) :
    isDigit c = true :=
  isDigit_of_mem_formatNat (h ▸ List.mem_cons_self)

theorem parseInt_formatInt {n : ℤ} (hlo : -(2 ^ 63) ≤ n) (hhi : n < 2 ^ 63) :
    parseInt (formatInt n) = some n := by
  cases n with
  | negSucc n =>
    have hle : n < 9223372036854775808 := by omega
    simp [formatInt, parseInt, hle, Int.negSucc_eq]
  | ofNat n =>
    have hlt : n < 9223372036854775808 := by
      have hn : (n : ℤ) < 2 ^ 63 := hhi
      omega
    obtain ⟨c, s, hcs⟩ := List.exists_cons_of_ne_nil (formatNat_ne_nil n)
    have hdigit := head_formatNat_digit hcs
    have hminus : c ≠ byte '-' := by rintro rfl; exact absurd hdigit (by decide)
    have hplus : c ≠ byte '+' := by rintro rfl; exact absurd hdigit (by decide)
    simp only [formatInt, hcs, parseInt, if_neg hminus, if_neg hplus]
    rw [← hcs, parseNat_formatNat]
    simp [hlt]

theorem formatInt_injective {m n : ℤ} (h : formatInt m = formatInt n) : m = n := by
  cases m with
  | ofNat m =>
    cases n with
    | ofNat n => exact congrArg _ (formatNat_injective h)
    | negSucc n => exact absurd (head_formatNat_digit (n := m) h) (by decide)
  | negSucc m =>
    cases n with
    | ofNat n => exact absurd (head_formatNat_digit (n := n) h.symm) (by decide)
    | negSucc n =>
      have hmn := formatNat_injective (List.cons.inj h).2
      exact congrArg _ (by omega)

end Strconv
end Ratelimit
