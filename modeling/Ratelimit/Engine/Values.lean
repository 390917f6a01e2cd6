import Ratelimit.Engine.Identity

/-!
# The values a request carries

A token gives values to the keys that the plan declares, and a direct caller to any name.
What the explicit layer keeps of a name is a function of the values sent under it alone.
No value of either form is empty.
-/
namespace Ratelimit.Identity

open Compile Match

variable {codec : Codec} {plan : List KeyExtraction} {keys : Keys} {key : Text}

section Explicit

/-- What the explicit layer keeps of the values sent under a key. -/
def keptValues (codec : Codec) (plan : List KeyExtraction) (key : Text) (values : List Text) :
    List Text :=
  match explicitValues values with
  | .error _ => []
  | .ok kept =>
    let lowered := (planned plan key).any fun e => e.normalization = .lowercase
    distinct (if lowered then kept.map codec.toLower else kept)

theorem distinct_concat (values : List Text) (v : Text) : distinct (values ++ [v]) =
    if v ∈ distinct values then distinct values else distinct values ++ [v] := by
  unfold distinct
  rw [List.foldl_append]
  rfl

theorem mem_distinct {values : List Text} {v : Text} : v ∈ distinct values ↔ v ∈ values := by
  induction values using List.reverseRecOn with
  | nil => simp [distinct]
  | append_singleton values w ih =>
    rw [distinct_concat]
    split_ifs with hmem
    · rw [ih, List.mem_append, List.mem_singleton]
      exact ⟨Or.inl, fun h => h.elim id fun hv => ih.mp (hv ▸ hmem)⟩
    · simp [ih]

theorem distinct_eq_nil_iff {values : List Text} : distinct values = [] ↔ values = [] := by
  simp only [List.eq_nil_iff_forall_not_mem, mem_distinct]

theorem explicitInto_lookup (acc : Keys × List Skip) (other : Text) :
    (explicitInto codec plan keys acc other).1.lookup key =
      if key = other ∧ keptValues codec plan key ((keys.lookup key).getD []) ≠ [] then
        some (keptValues codec plan key ((keys.lookup key).getD []))
      else acc.1.lookup key := by
  unfold explicitInto
  by_cases hkey : key = other
  · subst hkey
    cases hvalues : explicitValues ((keys.lookup key).getD []) with
    | error reason => simp [keptValues, hvalues]
    | ok kept =>
      cases kept with
      | nil => simp [keptValues, hvalues, distinct]
      | cons v kept =>
        dsimp only
        rw [Finmap.lookup_insert]
        have hkept : keptValues codec plan key ((keys.lookup key).getD []) = distinct
            (if (planned plan key).any (fun e => e.normalization = .lowercase) then
              (v :: kept).map codec.toLower else v :: kept) := by
          simp only [keptValues, hvalues]
        have hne : keptValues codec plan key ((keys.lookup key).getD []) ≠ [] := by
          rw [hkept, ne_eq, distinct_eq_nil_iff]
          split_ifs <;> simp
        rw [← hkept, if_pos ⟨rfl, hne⟩]
  · rw [if_neg (fun h => hkey h.1)]
    cases explicitValues ((keys.lookup other).getD []) with
    | error reason => rfl
    | ok kept =>
      cases kept with
      | nil => rfl
      | cons v kept => exact Finmap.lookup_insert_of_ne _ hkey

theorem foldl_explicitInto_lookup (names : List Text) (acc : Keys × List Skip) :
    (names.foldl (explicitInto codec plan keys) acc).1.lookup key =
      if key ∈ names ∧ keptValues codec plan key ((keys.lookup key).getD []) ≠ [] then
        some (keptValues codec plan key ((keys.lookup key).getD []))
      else acc.1.lookup key := by
  induction names generalizing acc with
  | nil => simp
  | cons name names ih =>
    rw [List.foldl_cons, ih, explicitInto_lookup]
    by_cases hkept : keptValues codec plan key ((keys.lookup key).getD []) = []
    · simp only [hkept, ne_eq, not_true_eq_false, and_false, if_false]
    · by_cases hmem : key ∈ names
      · simp [hmem, hkept]
      · simp [hmem, hkept]

theorem keptValues_nil : keptValues codec plan key [] = [] := by
  simp [keptValues, explicitValues, keepValues, maxArrayItems, distinct]

theorem explicit_some (hkey : keptValues codec plan key ((keys.lookup key).getD []) ≠ []) :
    (explicit codec plan keys).1.lookup key =
      some (keptValues codec plan key ((keys.lookup key).getD [])) := by
  have hmem : key ∈ keys := by
    by_contra hmem
    rw [Finmap.lookup_eq_none.mpr hmem] at hkey
    exact hkey keptValues_nil
  have hsorted : key ∈ keys.keys.sort (· ≤ ·) := (Finset.mem_sort _).mpr (Finmap.mem_keys.mpr hmem)
  rw [explicit, foldl_explicitInto_lookup, if_pos ⟨hsorted, hkey⟩]

theorem explicit_none (hkey : keptValues codec plan key ((keys.lookup key).getD []) = []) :
    (explicit codec plan keys).1.lookup key = none := by
  rw [explicit, foldl_explicitInto_lookup, if_neg fun h => h.2 hkey, Finmap.lookup_empty]

end Explicit

section Token

/-- What holds of no values and survives the values of one key holds of all that is extracted. -/
theorem extract_induction {P : Keys → Prop} (hempty : P ∅) (hinsert : ∀ claims, ∀ e ∈ plan,
      ∀ keys, P keys → P (keys.insert e.key (extractKey codec claims e).1)) (token : Text) :
    P (extract codec plan token).1 := by
  unfold extract
  dsimp only
  split_ifs
  · exact hempty
  · split
    · exact hempty
    · refine List.foldlRecOn (motive := fun acc : Keys × List Skip => P acc.1) plan _ hempty
        fun acc hacc e he => ?_
      unfold extractInto
      dsimp only
      split_ifs
      · exact hacc
      · exact hinsert _ e he _ hacc

theorem extract_mem {token : Text} : key ∈ (extract codec plan token).1 → ∃ e ∈ plan, e.key = key := by
  refine extract_induction (P := fun keys => key ∈ keys → ∃ e ∈ plan, e.key = key)
    (fun h => absurd h Finmap.notMem_empty) (fun _ e he keys ih h => ?_) token
  rcases Finmap.mem_insert.mp h with rfl | hmem
  · exact ⟨e, he, rfl⟩
  · exact ih hmem

end Token

theorem extractKeys_lookup {token : Text} : (extractKeys codec plan token keys).1.lookup key =
    let kept := keptValues codec plan key ((keys.lookup key).getD [])
    if kept = [] then (extract codec plan token).1.lookup key else some kept := by
  unfold extractKeys
  dsimp only
  split_ifs with hkeys hkept hkept
  · rfl
  · have hnone : keys.lookup key = none := by
      rw [Finmap.lookup_eq_none, ← Finmap.mem_keys, hkeys]
      exact Finset.notMem_empty key
    rw [hnone] at hkept
    exact absurd keptValues_nil hkept
  · refine Finmap.lookup_union_right ?_
    exact Finmap.lookup_eq_none.mp (explicit_none hkept)
  · rw [Finmap.lookup_union_left (Finmap.mem_of_lookup_eq_some (explicit_some hkept)),
      explicit_some hkept]

section Filled

theorem keepValues_ok_iff {values kept : List Text} : keepValues values = .ok kept ↔
    (∀ v ∈ values, v.length ≤ maxValueBytes) ∧ values.filter (fun v => v ≠ []) = kept := by
  induction values generalizing kept with
  | nil => simp [keepValues]
  | cons v values ih =>
    rw [keepValues, List.forall_mem_cons]
    by_cases hlong : maxValueBytes < v.length
    · simp [hlong, not_le.mpr hlong]
    · rw [if_neg hlong]
      cases hrest : keepValues values with
      | error reason =>
        have hbad : ¬ ∀ v ∈ values, v.length ≤ maxValueBytes := fun h => by
          rw [ih.mpr ⟨h, rfl⟩] at hrest
          cases hrest
        simp [Except.map, hbad]
      | ok rest =>
        obtain ⟨hshort, rfl⟩ := ih.mp hrest
        by_cases hempty : v = [] <;> simp_all [Except.map]

theorem explicitValues_bounds {values kept : List Text} (h : explicitValues values = .ok kept) :
    kept.length ≤ maxArrayItems ∧ ∀ v ∈ kept, v ≠ [] ∧ v.length ≤ maxValueBytes := by
  unfold explicitValues at h
  split_ifs at h with hmany
  obtain ⟨hshort, rfl⟩ := keepValues_ok_iff.mp h
  refine ⟨(List.length_filter_le _ _).trans (not_lt.mp hmany), fun v hv => ?_⟩
  obtain ⟨hmem, hv⟩ := List.mem_filter.mp hv
  exact ⟨of_decide_eq_true hv, hshort v hmem⟩

theorem coerceItems_ok {items : List Claim} {values : List Text} (h : coerceItems items = .ok values) :
    ∃ texts, items = texts.map Claim.string ∧ keepValues texts = .ok values := by
  induction items generalizing values with
  | nil => exact ⟨[], rfl, h⟩
  | cons c items ih =>
    cases c with
    | string s =>
      rw [coerceItems] at h
      cases hrest : coerceItems items with
      | error reason =>
        rw [hrest] at h
        split_ifs at h <;> cases h
      | ok rest =>
        obtain ⟨texts, rfl, hkept⟩ := ih hrest
        refine ⟨s :: texts, rfl, ?_⟩
        rw [keepValues, hkept]
        rwa [hrest] at h
    | array _ => cases h
    | object _ => cases h
    | other => cases h

theorem coerce_ok {c : Claim} {type : Model.ValueType} {values : List Text}
    (h : coerce c type = .ok values) : ∃ texts, explicitValues texts = .ok values := by
  unfold coerce at h
  by_cases harray : type = .stringArray
  · rw [if_pos harray] at h
    cases c with
    | array items =>
      rw [coerceArray] at h
      split_ifs at h with hmany
      obtain ⟨texts, rfl, hkept⟩ := coerceItems_ok h
      rw [List.length_map] at hmany
      exact ⟨texts, by rwa [explicitValues, if_neg hmany]⟩
    | string _ => cases h
    | object _ => cases h
    | other => cases h
  · rw [if_neg harray] at h
    cases c with
    | string s =>
      refine ⟨[s], ?_⟩
      dsimp only at h
      split_ifs at h with hlong hs
      all_goals simpa [explicitValues, keepValues, maxArrayItems, Except.map, hlong, hs] using h
    | array _ => cases h
    | object _ => cases h
    | other => cases h

/-- Which values the paths find does not depend on the spelling that the key asks for. -/
theorem extractFrom_found (codec : Codec) (claims : Claim) (type : Model.ValueType)
    (paths : List (List Text)) : ∃ values : List Text,
    (values.length ≤ maxArrayItems ∧ ∀ v ∈ values, v ≠ [] ∧ v.length ≤ maxValueBytes) ∧
      ∀ (e : KeyExtraction) first, e.type = type → (extractFrom codec claims e paths first).1 =
        if e.normalization = .lowercase then values.map codec.toLower else values := by
  induction paths with
  | nil => exact ⟨[], by simp, by simp [extractFrom]⟩
  | cons path paths ih =>
    obtain ⟨found, hbounds, hfound⟩ := ih
    cases hwalk : walk claims path with
    | none => exact ⟨found, hbounds, fun e _ he => by simp only [extractFrom, hwalk, hfound e _ he]⟩
    | some c =>
      cases hvalues : coerce c type with
      | error reason =>
        exact ⟨found, hbounds, fun e _ he => by
          simp only [extractFrom, hwalk, he, hvalues, hfound e _ he]⟩
      | ok values =>
        cases values with
        | nil =>
          exact ⟨found, hbounds, fun e _ he => by
            simp only [extractFrom, hwalk, he, hvalues, hfound e _ he]⟩
        | cons v values =>
          obtain ⟨texts, htexts⟩ := coerce_ok hvalues
          exact ⟨v :: values, explicitValues_bounds htexts, fun e _ he => by
            simp only [extractFrom, hwalk, he, hvalues]⟩

def NoEmptyValue (keys : Keys) : Prop := ∀ k, [] ∉ (keys.lookup k).getD []

theorem NoEmptyValue.insert (h : NoEmptyValue keys) {values : List Text} (hvalues : [] ∉ values) :
    NoEmptyValue (keys.insert key values) := by
  intro k
  by_cases hk : k = key
  · subst hk
    rwa [Finmap.lookup_insert]
  · rw [Finmap.lookup_insert_of_ne _ hk]
    exact h k

end Filled

end Ratelimit.Identity
