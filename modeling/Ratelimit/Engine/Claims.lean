import Ratelimit.Engine.Values

/-!
# What a token claims

The plan finds the values of a claim and then spells them. What it finds is within the
bounds of the explicit layer, so a direct caller may send it; whether a key is reported is
a matter of its own values alone.
-/
namespace Ratelimit.Identity

open Compile Match Library

variable {codec : Codec} {plan : List KeyExtraction} {keys : Keys} {key token : Text}

section Claims

/-- The mapping that takes the values as the token spells them. -/
def verbatim (e : KeyExtraction) : KeyExtraction := { e with normalization := .none }

def claimedValues (codec : Codec) (plan : List KeyExtraction) (token : Text) : Keys :=
  (extract codec (plan.map verbatim) token).1

def spelled (codec : Codec) (plan : List KeyExtraction) (key : Text) (values : List Text) : List Text :=
  if (planned plan key).any fun e => e.normalization = .lowercase then values.map codec.toLower
  else values

theorem spelled_eq_nil_iff {values : List Text} :
    spelled codec plan key values = [] ↔ values = [] := by
  unfold spelled
  split_ifs <;> simp

theorem length_spelled (values : List Text) :
    (spelled codec plan key values).length = values.length := by
  unfold spelled
  split_ifs <;> simp

def extracted (codec : Codec) (claims : Claim) (plan : List KeyExtraction) (key : Text) : List Text :=
  ((planned plan key).map fun e => (extractKey codec claims e).1).getD []

theorem planned_cons (e : KeyExtraction) (es : List KeyExtraction) :
    planned (e :: es) key = if e.key = key then some e else planned es key := by
  unfold planned
  rw [List.find?_cons]
  by_cases h : e.key = key <;> simp [h]

theorem planned_eq_none_iff : planned plan key = none ↔ ∀ e ∈ plan, e.key ≠ key := by
  simp [planned, List.find?_eq_none]

theorem planned_verbatim (key : Text) :
    planned (plan.map verbatim) key = (planned plan key).map verbatim := by
  unfold planned
  rw [List.find?_map]
  rfl

theorem extracted_verbatim (claims : Claim) :
    extracted codec claims plan key =
      spelled codec plan key (extracted codec claims (plan.map verbatim) key) := by
  unfold extracted spelled
  rw [planned_verbatim]
  cases planned plan key with
  | none => simp
  | some e =>
    obtain ⟨values, -, hfound⟩ := extractFrom_found codec claims e.type (e.path :: e.fallbacks)
    have hraw := hfound (verbatim e) none rfl
    simp only [Option.map_some, Option.getD_some, Option.any_some, decide_eq_true_eq, extractKey,
      hfound e none rfl]
    rw [if_neg (by simp [verbatim])] at hraw
    rw [← hraw]
    rfl

theorem foldl_extractInto_lookup {claims : Claim} {es : List KeyExtraction}
    (hnodup : (es.map KeyExtraction.key).Nodup) (acc : Keys × List Skip) :
    (es.foldl (extractInto codec claims) acc).1.lookup key =
      if extracted codec claims es key = [] then acc.1.lookup key
      else some (extracted codec claims es key) := by
  induction es generalizing acc with
  | nil => simp [extracted, planned]
  | cons e es ih =>
    obtain ⟨hnew, hnodup⟩ := List.nodup_cons.mp hnodup
    rw [List.foldl_cons, ih hnodup]
    by_cases hkey : e.key = key
    · subst hkey
      have hrest : extracted codec claims es e.key = [] := by
        have hnone : planned es e.key = none := by
          refine planned_eq_none_iff.mpr fun e' he' heq => hnew ?_
          exact List.mem_map.mpr ⟨e', he', heq⟩
        rw [extracted, hnone]
        rfl
      have hfirst : extracted codec claims (e :: es) e.key = (extractKey codec claims e).1 := by
        rw [extracted, planned_cons, if_pos rfl]
        rfl
      rw [if_pos hrest, hfirst]
      unfold extractInto
      dsimp only
      split_ifs with hvalues
      · rfl
      · exact Finmap.lookup_insert _
    · have hsame : extracted codec claims (e :: es) key = extracted codec claims es key := by
        rw [extracted, planned_cons, if_neg hkey, extracted]
      have hacc : (extractInto codec claims acc e).1.lookup key = acc.1.lookup key := by
        unfold extractInto
        dsimp only
        split_ifs
        · rfl
        · exact Finmap.lookup_insert_of_ne _ (Ne.symm hkey)
      rw [hsame, hacc]

theorem extract_lookup (hnodup : (plan.map KeyExtraction.key).Nodup) :
    (extract codec plan token).1.lookup key =
      let values := spelled codec plan key (((claimedValues codec plan token).lookup key).getD [])
      if values = [] then none else some values := by
  have hverbatim : ((plan.map verbatim).map KeyExtraction.key).Nodup := by
    rw [List.map_map]
    exact hnodup
  by_cases htoken : bareToken codec token = []
  · simp [claimedValues, extract, htoken, spelled_eq_nil_iff]
  · cases hpayload : payload codec (bareToken codec token) with
    | none => simp [claimedValues, extract, htoken, hpayload, spelled_eq_nil_iff]
    | some claims =>
      simp only [claimedValues, extract, htoken, hpayload, if_false]
      rw [foldl_extractInto_lookup hnodup, foldl_extractInto_lookup hverbatim,
        extracted_verbatim, Finmap.lookup_empty]
      by_cases hraw : extracted codec (.object claims) (plan.map verbatim) key = []
      · simp [hraw, spelled_eq_nil_iff]
      · simp [hraw, spelled_eq_nil_iff]

end Claims

section Bounds

theorem claimedValues_bounds (hnodup : (plan.map KeyExtraction.key).Nodup) {values : List Text}
    (h : (claimedValues codec plan token).lookup key = some values) :
    values.length ≤ maxArrayItems ∧ ∀ v ∈ values, v ≠ [] ∧ v.length ≤ maxValueBytes := by
  have hverbatim : ((plan.map verbatim).map KeyExtraction.key).Nodup := by
    rw [List.map_map]
    exact hnodup
  by_cases htoken : bareToken codec token = []
  · simp [claimedValues, extract, htoken] at h
  · cases hpayload : payload codec (bareToken codec token) with
    | none => simp [claimedValues, extract, htoken, hpayload] at h
    | some claims =>
      simp only [claimedValues, extract, htoken, hpayload, if_false] at h
      rw [foldl_extractInto_lookup hverbatim, Finmap.lookup_empty] at h
      split_ifs at h
      obtain rfl := Option.some.inj h
      unfold extracted
      rw [planned_verbatim]
      cases planned plan key with
      | none => simp
      | some e =>
        obtain ⟨values, hbounds, hfound⟩ := extractFrom_found codec (.object claims) e.type
          (e.path :: e.fallbacks)
        have hraw := hfound (verbatim e) none rfl
        rw [if_neg (by simp [verbatim])] at hraw
        rw [← hraw] at hbounds
        exact hbounds

end Bounds

section Layers

theorem explicit_skips_iff : (explicit codec plan keys).2 = [] ↔
    ∀ k ∈ keys, (∃ e, planned plan k = some e) →
      ∃ kept, explicitValues ((keys.lookup k).getD []) = .ok kept := by
  have hfold : ∀ (names : List Text) (acc : Keys × List Skip),
      (names.foldl (explicitInto codec plan keys) acc).2 = [] ↔
        acc.2 = [] ∧ ∀ k ∈ names, (∃ e, planned plan k = some e) →
          ∃ kept, explicitValues ((keys.lookup k).getD []) = .ok kept := by
    intro names
    induction names with
    | nil => simp
    | cons name names ih =>
      intro acc
      rw [List.foldl_cons, ih, List.forall_mem_cons, ← and_assoc]
      refine and_congr_left fun _ => ?_
      unfold explicitInto
      cases hvalues : explicitValues ((keys.lookup name).getD []) with
      | error reason =>
        cases planned plan name <;> simp
      | ok kept => cases kept <;> simp
  rw [explicit, hfold]
  simp only [Finset.mem_sort, Finmap.mem_keys, true_and]

theorem keptValues_eq {values kept : List Text} (h : explicitValues values = .ok kept) :
    keptValues codec plan key values =
      distinct (spelled codec plan key (values.filter fun v => v ≠ [])) := by
  have hkept : kept = values.filter fun v => v ≠ [] := by
    unfold explicitValues at h
    split_ifs at h
    exact (keepValues_ok_iff.mp h).2.symm
  simp only [keptValues, h, ← hkept, spelled]

theorem extractKeys_skips : (extractKeys codec plan token keys).2 = [] ↔
    (extract codec plan token).2 = [] ∧ (explicit codec plan keys).2 = [] := by
  unfold extractKeys
  dsimp only
  split_ifs with hkeys
  · have hnone : (explicit codec plan keys).2 = [] := by
      refine explicit_skips_iff.mpr fun k hk => ?_
      rw [← Finmap.mem_keys, hkeys] at hk
      exact absurd hk (Finset.notMem_empty k)
    simp [hnone]
  · simp

theorem nodup_distinct (values : List Text) : (distinct values).Nodup := by
  induction values using List.reverseRecOn with
  | nil => exact List.nodup_nil
  | append_singleton values v ih =>
    rw [distinct_concat]
    split_ifs with hmem
    · exact ih
    · exact ih.append (List.nodup_singleton v) (by simpa using hmem)

end Layers

end Ratelimit.Identity
