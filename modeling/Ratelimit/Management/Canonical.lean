import Ratelimit.Library.Pointwise
import Ratelimit.Management.Request

/-!
# What the canonical form of a selection tells

The canonical form leaves the zero value of a field out and names every other field. Its
bytes keep the coerced texts, and no more: texts that differ in bytes which belong to no
rune have one encoding.
-/
namespace Ratelimit.Management

open Library Utf8 Json

theorem omitted_iff {α γ : Type} [DecidableEq α] {zero x y : α} {f : α → γ}
    (hzero : ∀ v, f v = f zero ↔ v = zero) :
    (decide (x ≠ zero) = decide (y ≠ zero) ∧ (decide (x ≠ zero) = true → f x = f y)) ↔ f x = f y := by
  by_cases hx : x = zero
  · subst hx
    by_cases hy : y = x
    · simp [hy]
    · have hne : f x ≠ f y := fun h => hy ((hzero y).mp h.symm)
      simp [hy, hne]
  · by_cases hy : y = zero
    · subst hy
      have hne : f x ≠ f y := fun h => hx ((hzero x).mp h)
      simp [hx, hne]
    · simp [hx, hy]

section Documents

variable (s : Selector)

def Selector.axesDocument (axes : Finmap fun _ : Text => List Text) : Json :=
  .object ((entries axes).map fun e => (e.1, texts e.2))

def Selector.fields : List (Bool × Text × Json) :=
  [(decide (s.ruleIDs ≠ []), ascii "ruleIds", texts s.ruleIDs),
    (decide (s.algorithm ≠ []), ascii "algorithm", .string s.algorithm),
    (decide (s.periodSeconds ≠ 0), ascii "periodSeconds", .number s.periodSeconds),
    (decide (s.axes ≠ ∅), ascii "axes", Selector.axesDocument s.axes),
    (s.limitedOnly, ascii "limited", .bool true)]

theorem canonical_eq : s.canonical = .object (present s.fields) := by
  simp [Selector.canonical, Selector.fields, Selector.axesDocument, present, omitempty]

end Documents

section Bytes

/-- What the bytes of a selection keep of it: the runes of its texts, coerced. -/
@[ext]
structure KeptSelector where
  ruleIDs : List (List Rune)
  algorithm : List Rune
  periodSeconds : ℤ
  axes : List (List Rune × List (List Rune))
  limitedOnly : Bool

def Selector.kept (s : Selector) : KeptSelector where
  ruleIDs := s.ruleIDs.map coercedRunes
  algorithm := coercedRunes s.algorithm
  periodSeconds := s.periodSeconds
  axes := (entries s.axes).map fun e => (coercedRunes e.1, e.2.map coercedRunes)
  limitedOnly := s.limitedOnly

structure Selector.Valid (s : Selector) : Prop where
  ruleIDs : ∀ id ∈ s.ruleIDs, Utf8.Valid id
  algorithm : Utf8.Valid s.algorithm
  axes : ∀ e ∈ entries s.axes, Utf8.Valid e.1 ∧ ∀ value ∈ e.2, Utf8.Valid value

theorem eq_of_map_runes {ts ts' : List Text} (hvalid : ∀ t ∈ ts, Utf8.Valid t)
    (hvalid' : ∀ t ∈ ts', Utf8.Valid t) (h : ts.map coercedRunes = ts'.map coercedRunes) :
    ts = ts' := by
  have hpairs : List.Forall₂ Eq ts ts' := forall₂_of_map_eq h fun t ht t' ht' hrunes =>
    eq_of_coercedRunes (hvalid t ht) (hvalid' t' ht') hrunes
  exact List.forall₂_eq_eq_eq ▸ hpairs

theorem Selector.eq_of_kept {s s' : Selector} (hvalid : s.Valid) (hvalid' : s'.Valid)
    (h : s.kept = s'.kept) : s = s' := by
  obtain ⟨hruleIDs, halgorithm, hperiod, haxes, hlimited⟩ := KeptSelector.mk.inj h
  obtain ⟨ruleIDs, algorithm, periodSeconds, axes, limitedOnly⟩ := s
  obtain ⟨ruleIDs', algorithm', periodSeconds', axes', limitedOnly'⟩ := s'
  obtain rfl := eq_of_map_runes hvalid.ruleIDs hvalid'.ruleIDs hruleIDs
  obtain rfl := eq_of_coercedRunes hvalid.algorithm hvalid'.algorithm halgorithm
  obtain rfl : periodSeconds = periodSeconds' := hperiod
  obtain rfl : limitedOnly = limitedOnly' := hlimited
  have hpairs : List.Forall₂ Eq (entries axes) (entries axes') := by
    refine forall₂_of_map_eq haxes fun e he e' he' heq => ?_
    obtain ⟨hname, hvalues⟩ := Prod.mk.inj heq
    obtain ⟨hvalidName, hvalidValues⟩ := hvalid.axes e he
    obtain ⟨hvalidName', hvalidValues'⟩ := hvalid'.axes e' he'
    exact Prod.ext (eq_of_coercedRunes hvalidName hvalidName' hname)
      (eq_of_map_runes hvalidValues hvalidValues' hvalues)
  have hentries : entries axes = entries axes' := List.forall₂_eq_eq_eq ▸ hpairs
  rw [entries_injective hentries]

theorem written_string_eq_iff {t t' : Text} :
    written (.string t) = written (.string t') ↔ coercedRunes t = coercedRunes t' := by
  rw [written, written, Json.string.injEq, appendString_eq_iff]

theorem written_string_nil_iff (t : Text) : written (.string t) = written (.string []) ↔ t = [] := by
  rw [written_string_eq_iff, ← coercedRunes_eq_nil_iff]
  rfl

theorem written_texts_eq_iff {ts ts' : List Text} :
    written (texts ts) = written (texts ts') ↔ ts.map coercedRunes = ts'.map coercedRunes := by
  rw [texts, texts, written, written, Json.array.injEq, writtenItems_eq_map, writtenItems_eq_map,
    List.map_map, List.map_map]
  exact map_eq_map_iff fun _ _ => written_string_eq_iff

theorem written_axes_eq_iff {m m' : Finmap fun _ : Text => List Text} :
    written (Selector.axesDocument m) = written (Selector.axesDocument m') ↔
      (entries m).map (fun e => (coercedRunes e.1, e.2.map coercedRunes)) =
        (entries m').map fun e => (coercedRunes e.1, e.2.map coercedRunes) := by
  rw [Selector.axesDocument, Selector.axesDocument, written, written, Json.object.injEq,
    writtenFields_eq_map, writtenFields_eq_map, List.map_map, List.map_map]
  refine map_eq_map_iff fun e e' => ?_
  simp only [Function.comp_apply, Prod.mk.injEq, appendString_eq_iff, written_texts_eq_iff]

def writtenForms (fields : List (Bool × Text × Json)) : List (Bool × Text × Json) :=
  fields.map fun f => (f.1, appendString f.2.1, written f.2.2)

theorem writtenNames_nodup (s : Selector) :
    ((writtenForms s.fields).map fun f => f.2.1).Nodup := by
  change [appendString (ascii "ruleIds"), appendString (ascii "algorithm"),
    appendString (ascii "periodSeconds"), appendString (ascii "axes"),
    appendString (ascii "limited")].Nodup
  decide +kernel

theorem written_present (fields : List (Bool × Text × Json)) :
    written (.object (present fields)) = .object (present (writtenForms fields)) := by
  rw [written, writtenFields_eq_map, writtenForms, ← map_present]
  rfl

theorem written_canonical_iff {s s' : Selector} :
    written s.canonical = written s'.canonical ↔ s.kept = s'.kept := by
  have hnames : ((writtenForms s.fields).map fun f => f.2.1) =
      (writtenForms s'.fields).map fun f => f.2.1 := rfl
  rw [canonical_eq, canonical_eq, written_present, written_present, Json.object.injEq,
    present_eq_iff hnames (writtenNames_nodup s), KeptSelector.ext_iff]
  have hids : ∀ ts : List Text, written (texts ts) = written (texts []) ↔ ts = [] := by
    intro ts
    rw [written_texts_eq_iff, List.map_nil, List.map_eq_nil_iff]
  have hnumber : ∀ n n' : ℤ, written (.number n) = written (.number n') ↔ n = n' := by
    intro n n'
    rw [written, written, Json.number.injEq]
  have haxes : ∀ m : Finmap fun _ : Text => List Text,
      written (Selector.axesDocument m) = written (Selector.axesDocument ∅) ↔ m = ∅ := by
    intro m
    rw [written_axes_eq_iff, ← entries_injective.eq_iff]
    have hnone : entries (∅ : Finmap fun _ : Text => List Text) = [] := by
      simp [entries, Finset.sort_empty]
    rw [hnone, List.map_nil, List.map_eq_nil_iff]
  simp only [writtenForms, Selector.fields, List.map_cons, List.map_nil, List.forall₂_cons,
    List.forall₂_nil_left_iff, and_true, Selector.kept]
  rw [omitted_iff (f := fun ts => written (texts ts)) hids,
    omitted_iff (f := fun t => written (.string t)) written_string_nil_iff,
    omitted_iff (f := fun n => written (.number n)) fun n => hnumber n 0,
    omitted_iff (f := fun m => written (Selector.axesDocument m)) haxes, written_texts_eq_iff,
    written_string_eq_iff, hnumber, written_axes_eq_iff]
  simp

/-- The bytes of two selections are equal exactly where what they keep is. -/
theorem marshal_canonical_iff {s s' : Selector} :
    marshal s.canonical = marshal s'.canonical ↔ s.kept = s'.kept :=
  marshal_eq_iff.trans written_canonical_iff

end Bytes

end Ratelimit.Management
