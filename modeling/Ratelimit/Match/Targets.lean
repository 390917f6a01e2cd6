import Ratelimit.Compile.Accepted
import Ratelimit.Match.Reference

/-!
# Routes select what their authored form says

The compiled form of an accepted route covers the paths that the authored
pattern covers, with the same captures, and reads the same cost. A template is
compared segment by segment on both sides; the compiled one collects its
captures in a map, the authored one as pairs.
-/
namespace Ratelimit.Reference

open Match Compile Library

/-- Captures held as a map and as a list of pairs. -/
def SameCaptures (captures : Captures) (pairs : List (Text × Text)) : Prop :=
  ∀ k, captures.lookup k = pairs.lookup k

section Template

theorem placeholder_cons (c : Byte) (s : Text) :
    placeholder (c :: s) =
      if c = Key.openBrace ∧ s.getLast? = some Key.closeBrace then some s.dropLast else none := rfl

theorem isPlaceholder_cons (c : Byte) (s : Text) : isPlaceholder (c :: s) = true ↔
    c = Key.openBrace ∧ s.getLast? = some Key.closeBrace := by
  have hopen : Strings.hasPrefix (c :: s) placeholderOpen = true ↔ c = Key.openBrace := by
    rw [Strings.hasPrefix_iff, placeholderOpen]
    simp [eq_comm]
  have hclose : Strings.hasSuffix (c :: s) placeholderClose = true ↔
      (c :: s).getLast? = some Key.closeBrace := by
    rw [Strings.hasSuffix_iff, placeholderClose, List.singleton_suffix_iff_getLast?_eq_some]
  rw [isPlaceholder, Bool.and_eq_true, hopen, hclose]
  refine and_congr_right fun hc => ?_
  cases s with
  | nil =>
    -- one brace alone does not close itself
    subst hc
    decide
  | cons d s => simp

theorem placeholder_eq (s : Text) :
    placeholder s = if isPlaceholder s then some (placeholderName s) else none := by
  cases s with
  | nil => rfl
  | cons c s =>
    rw [placeholder_cons]
    by_cases h : isPlaceholder (c :: s) = true
    · rw [if_pos h, if_pos ((isPlaceholder_cons c s).mp h)]
      rfl
    · rw [if_neg h, if_neg fun hc => h ((isPlaceholder_cons c s).mpr hc)]

theorem lookup_taken_eq_none {name : Text} {texts parts : List Text}
    (h : name ∉ placeholderNames texts) : (taken texts parts).lookup name = none := by
  rw [List.lookup_eq_none_iff]
  intro pair hpair
  obtain ⟨⟨text, part⟩, hzip, htaken⟩ := List.mem_filterMap.mp hpair
  obtain ⟨n, hn, rfl⟩ := Option.map_eq_some_iff.mp htaken
  rw [placeholder_eq] at hn
  split_ifs at hn with hp
  rw [bne_iff_ne]
  rintro rfl
  refine h (List.mem_map.mpr ⟨text, List.mem_filter.mpr ⟨(List.of_mem_zip hzip).1, hp⟩, ?_⟩)
  exact Option.some.inj hn

open Classical in
/-- The loop over the segments takes what the placeholders take. -/
theorem matchSegments_rel {texts parts : List Text} {segments : List Segment}
    (hsegments : List.Forall₂ SegmentOf texts segments) (hnodup : (placeholderNames texts).Nodup)
    (hlen : parts.length = segments.length) (captures : Captures) :
    Option.Rel (fun out pairs => ∀ k, out.lookup k = (pairs.lookup k).or (captures.lookup k))
      (matchSegments (segments.zip parts) captures)
      (if List.Forall₂ SegmentTakes texts parts then some (taken texts parts) else none) := by
  induction hsegments generalizing parts captures with
  | nil =>
    obtain rfl := List.eq_nil_of_length_eq_zero hlen
    rw [if_pos List.Forall₂.nil]
    exact Option.Rel.some fun k => rfl
  | @cons text segment texts segments hsegment _ ih =>
    obtain ⟨part, parts, rfl⟩ := List.exists_cons_of_length_eq_add_one hlen
    have hrest : parts.length = segments.length := by simpa using hlen
    simp only [List.forall₂_cons, List.zip_cons_cons, matchSegments]
    cases hp : isPlaceholder text with
    | false =>
      have hplaceholder : placeholder text = none := by simp [placeholder_eq, hp]
      have htake : SegmentTakes text part ↔ part = text := by simp [SegmentTakes, hplaceholder]
      obtain rfl := hsegment.literal hp
      have hskip : taken (text :: texts) (part :: parts) = taken texts parts := by
        simp [taken, hplaceholder]
      simp only [htake, hskip, if_true]
      by_cases hpart : part = text
      · simpa [hpart] using ih (by simpa [placeholderNames, hp] using hnodup) hrest captures
      · simp [hpart]
    | true =>
      have hplaceholder : placeholder text = some (placeholderName text) := by
        simp [placeholder_eq, hp]
      have htake : SegmentTakes text part ↔ part ≠ [] := by simp [SegmentTakes, hplaceholder]
      have hcons : taken (text :: texts) (part :: parts) =
          (placeholderName text, part) :: taken texts parts := by
        simp [taken, hplaceholder]
      obtain ⟨rfl, hname⟩ := hsegment.capture hp
      simp only [htake, hcons, hname, if_false]
      by_cases hpart : part = []
      · simp [hpart]
      · rw [placeholderNames, List.filter_cons_of_pos hp, List.map_cons, List.nodup_cons] at hnodup
        have hrel := ih hnodup.2 hrest (captures.insert (placeholderName text) part)
        simp only [hpart, if_false, ne_eq, not_false_eq_true, true_and]
        generalize matchSegments (segments.zip parts) _ = result at hrel ⊢
        split_ifs at hrel ⊢
        · cases hrel with
          | some hlookup =>
            refine Option.Rel.some fun k => ?_
            rw [hlookup k, List.lookup_cons]
            by_cases hk : k = placeholderName text
            · subst hk
              simp [lookup_taken_eq_none hnodup.1]
            · simp [beq_false_of_ne hk, Finmap.lookup_insert_of_ne _ hk]
        · cases hrel
          exact Option.Rel.none

theorem hasPrefix_slash_iff (s : Text) :
    Strings.hasPrefix s (ascii "/") = true ↔ ∃ rest, s = byte '/' :: rest := by
  rw [Strings.hasPrefix_iff]
  cases s with
  | nil => simp [ascii]
  | cons c rest =>
    have hslash : ascii "/" = [byte '/'] := by decide
    simp [hslash, eq_comm]

theorem segmentsOf_slash (s : Text) :
    segmentsOf (byte '/' :: s) = some (Strings.split s (byte '/')) := rfl

theorem segmentsOf_eq_none {s : Text} (h : Strings.hasPrefix s (ascii "/") = false) :
    segmentsOf s = none := by
  cases s with
  | nil => rfl
  | cons c rest =>
    have hc : c ≠ byte '/' := by
      rintro rfl
      exact absurd ((hasPrefix_slash_iff _).mpr ⟨rest, rfl⟩) (by simp [h])
    simp [segmentsOf, hc]

theorem segmentsOf_rooted {value : Text} (h : Strings.hasPrefix value (ascii "/") = true) :
    segmentsOf value = some (templateSegments value) := by
  have hcut : Strings.trimPrefix value (ascii "/") = value.drop 1 := by
    rw [Strings.trimPrefix, if_pos h]
    rfl
  obtain ⟨rest, rfl⟩ := (hasPrefix_slash_iff value).mp h
  rw [templateSegments, hcut]
  rfl

end Template

section Paths

theorem matchPrefix_iff (value path : Text) : matchPrefix value path = true ↔
    path = value ∨ value ++ ascii "/" <+: path ∨ ascii "/" <:+ value ∧ value <+: path := by
  have hslash : ascii "/" = [byte '/'] := by decide
  unfold matchPrefix
  by_cases hpre : value <+: path
  · obtain ⟨rest, rfl⟩ := hpre
    have hrest : value ++ ascii "/" <+: value ++ rest ↔ rest.head? = some (byte '/') := by
      rw [List.prefix_append_right_inj, hslash]
      cases rest <;> simp [eq_comm]
    have hindex : (value ++ rest)[value.length]? = rest.head? := by
      rw [List.getElem?_append_right le_rfl, Nat.sub_self, List.head?_eq_getElem?]
    simp [hrest, hindex, or_assoc, or_comm]
  · have hne : path ≠ value := by
      rintro rfl
      exact hpre (List.prefix_refl _)
    have hlonger : ¬ value ++ ascii "/" <+: path :=
      fun h => hpre ((List.prefix_append _ _).trans h)
    have hpre' : Strings.hasPrefix path value = false := by
      rw [← Bool.not_eq_true, Strings.hasPrefix_iff]
      exact hpre
    simp [hpre', hpre, hne, hlonger]

variable {r : Model.Route} {out : Route}

theorem matchPath_eq (hr : RouteOf r out) (path : Text) :
    Option.Rel SameCaptures (matchPath out path) (pathCaptures r.path path) := by
  unfold matchPath pathCaptures
  rw [hr.type_eq, hr.value_eq]
  cases htype : r.path.type with
  | exact =>
    by_cases h : path = r.path.value
    · rw [if_pos h, if_pos h]
      exact Option.Rel.some fun k => rfl
    · rw [if_neg h, if_neg h]
      exact Option.Rel.none
  | pathPrefix =>
    simp only [matchPrefix_iff]
    split_ifs with h
    · exact Option.Rel.some fun k => rfl
    · exact Option.Rel.none
  | other t ht => exact Option.Rel.none
  | template =>
    obtain ⟨hsegments, hnodup⟩ := hr.segments htype
    simp only [segmentsOf_rooted hr.rooted]
    unfold matchTemplate
    cases hrooted : Strings.hasPrefix path (ascii "/") with
    | false => simp [segmentsOf_eq_none hrooted]
    | true =>
      obtain ⟨rest, rfl⟩ := (hasPrefix_slash_iff path).mp hrooted
      simp only [segmentsOf_slash, List.drop_succ_cons, List.drop_zero, Bool.true_eq_false,
        if_false]
      by_cases hlen : (Strings.split rest (byte '/')).length = out.segments.length
      · rw [if_neg (not_not.mpr hlen)]
        have hrel := matchSegments_rel hsegments hnodup hlen ∅
        simp only [Finmap.lookup_empty, Option.or_none] at hrel
        exact hrel
      · rw [if_pos hlen, if_neg fun htakes => hlen ?_]
        · exact Option.Rel.none
        · exact htakes.length_eq.symm.trans hsegments.length_eq

end Paths

section Costs

theorem occurrence_eq {cost : Model.RouteCost} {out : Cost} (hc : CostOf cost out) (pair : Text) :
    occurrence out pair =
      if unescape (Strings.cut pair (byte '=')).1 = cost.name then
        some ((usableCost (Strings.cut pair (byte '=')).2).getD
          (if cost.defaultCost = 0 then 1 else cost.defaultCost))
      else none := by
  have hdefault : out.defaultCost = if cost.defaultCost = 0 then 1 else cost.defaultCost :=
    hc.default_eq
  unfold occurrence usableCost
  simp only [hc.parameter_eq, positiveInteger_eq, hdefault]
  cases Strconv.parseNat (unescape (Strings.cut pair (byte '=')).2) with
  | none => simp
  | some n =>
    by_cases hn : n = 0
    · simp [hn, Model.maxCost]
    · have hpos : min (n : ℤ) Model.maxCost ≠ 0 := by
        simp only [Model.maxCost]
        omega
      simp [hn, hpos]

theorem queryCost_eq_costOf {cost : Model.RouteCost} {out : Cost} (hc : CostOf cost out)
    (query : Text) : queryCost out query = costOf cost query := by
  have hdefault : out.defaultCost = if cost.defaultCost = 0 then 1 else cost.defaultCost :=
    hc.default_eq
  have hcarried : occurrences out query = (Strings.split query (byte '&')).filterMap fun pair =>
      if unescape (Strings.cut pair (byte '=')).1 = cost.name then
        some ((usableCost (Strings.cut pair (byte '=')).2).getD
          (if cost.defaultCost = 0 then 1 else cost.defaultCost))
      else none :=
    List.filterMap_congr fun pair _ => occurrence_eq hc pair
  have hcost : costOf cost query = (occurrences out query).max?.getD out.defaultCost := by
    rw [hcarried, hdefault]
    rfl
  rw [queryCost_eq hc.parameter_ne, hcost]
  cases hocc : occurrences out query with
  | nil => rfl
  | cons n rest =>
    have hn : 1 ≤ n := (occurrence_bounds hc.one_le_default hc.default_le
      (hocc ▸ List.mem_cons_self)).1
    have hmax : max 0 n = n := max_eq_right (by omega)
    rw [if_neg (List.cons_ne_nil n rest), List.max?_cons', Option.getD_some, List.foldl_cons, hmax]

end Costs

end Ratelimit.Reference
