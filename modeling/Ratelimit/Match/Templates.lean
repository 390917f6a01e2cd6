import Ratelimit.Match.Targets

/-!
# Templates match by substitution

A template covers the paths that its text yields when every placeholder is replaced by a
text without slashes. The compiler reads the template segment by segment and the matcher
the path; the substitution knows neither.
-/
namespace Ratelimit.Match

open Compile Key Reference Library

/-- A template text with its placeholders replaced, from inside of one or not. -/
def substitute (σ : Text → Text) : Option Text → Text → Text
  | none, [] => []
  | some name, [] => openBrace :: name
  | none, c :: rest =>
    if c = openBrace then substitute σ (some []) rest else c :: substitute σ none rest
  | some name, c :: rest =>
    if c = closeBrace then σ name ++ substitute σ none rest
    else substitute σ (some (name ++ [c])) rest

def assigned (captures : Captures) (name : Text) : Text := (captures.lookup name).getD []

/-- The captures give each of the names, and no other, a text that can be one segment. -/
structure Assigns (names : List Text) (captures : Captures) : Prop where
  mem_iff : ∀ n, n ∈ captures ↔ n ∈ names
  fits : ∀ n ∈ names, assigned captures n ≠ [] ∧ byte '/' ∉ assigned captures n

section Text

variable {σ : Text → Text} {s rest : Text}

theorem substitute_literal (h : openBrace ∉ s) :
    substitute σ none (s ++ rest) = s ++ substitute σ none rest := by
  induction s with
  | nil => rfl
  | cons c s ih =>
    rw [List.mem_cons, not_or] at h
    simp [substitute, Ne.symm h.1, ih h.2]

theorem substitute_name {pending : Text} (h : closeBrace ∉ s) :
    substitute σ (some pending) (s ++ closeBrace :: rest) =
      σ (pending ++ s) ++ substitute σ none rest := by
  induction s generalizing pending with
  | nil => simp [substitute]
  | cons c s ih =>
    rw [List.mem_cons, not_or] at h
    simp [substitute, Ne.symm h.1, ih h.2]

def fill (σ : Text → Text) (s : Text) : Text :=
  if isPlaceholder s then σ (placeholderName s) else s

/-- Braces stand only around the name of a placeholder. -/
structure Braced (s : Text) : Prop where
  literal : isPlaceholder s = false → openBrace ∉ s
  name : isPlaceholder s = true → closeBrace ∉ placeholderName s

theorem substitute_segment (h : Braced s) :
    substitute σ none (s ++ rest) = fill σ s ++ substitute σ none rest := by
  cases hp : isPlaceholder s with
  | false => simpa [fill, hp] using substitute_literal (h.literal hp)
  | true =>
    have hs : s = openBrace :: (placeholderName s ++ [closeBrace]) := by
      cases s with
      | nil => exact absurd hp (by decide)
      | cons c s =>
        obtain ⟨rfl, hlast⟩ := (isPlaceholder_cons c s).mp hp
        exact congrArg _ (List.dropLast_append_getLast? _ hlast).symm
    have hname := @substitute_name σ _ rest [] (h.name hp)
    rw [List.nil_append] at hname
    rw [fill, if_pos hp, ← hname]
    conv_lhs => rw [hs]
    simp [substitute]

def rooted (parts : List Text) : Text := parts.flatMap (byte '/' :: ·)

theorem substitute_rooted {texts : List Text} (h : ∀ s ∈ texts, Braced s) :
    substitute σ none (rooted texts) = rooted (texts.map (fill σ)) := by
  induction texts with
  | nil => rfl
  | cons s texts ih =>
    rw [List.forall_mem_cons] at h
    have hslash : byte '/' ≠ openBrace := by decide
    have hrest := ih h.2
    simp only [rooted, List.flatMap_cons, List.map_cons, List.cons_append] at hrest ⊢
    simp [substitute, hslash, substitute_segment h.1, hrest]

theorem rooted_eq {parts : List Text} (h : parts ≠ []) :
    rooted parts = byte '/' :: [byte '/'].intercalate parts := by
  induction parts with
  | nil => exact absurd rfl h
  | cons p parts ih =>
    cases parts with
    | nil => simp [rooted]
    | cons q parts =>
      have hrest := ih (by simp)
      simp only [rooted, List.flatMap_cons] at hrest ⊢
      simp [hrest, List.intercalate_cons_cons]

theorem rooted_split (s : Text) : rooted (Strings.split s (byte '/')) = byte '/' :: s := by
  rw [Strings.split, rooted_eq (List.splitOn_ne_nil _ _), List.intercalate_splitOn]

theorem split_rooted {parts : List Text} (hne : parts ≠ []) (h : ∀ p ∈ parts, byte '/' ∉ p) :
    Strings.split ((rooted parts).drop 1) (byte '/') = parts := by
  simpa [rooted_eq hne, Strings.split] using List.splitOn_intercalate _ h hne

theorem count_rooted {parts : List Text} (h : ∀ p ∈ parts, byte '/' ∉ p) :
    (rooted parts).count (byte '/') = parts.length := by
  induction parts with
  | nil => rfl
  | cons p parts ih =>
    rw [List.forall_mem_cons] at h
    have hrest := ih h.2
    simp only [rooted, List.flatMap_cons] at hrest ⊢
    simp [List.count_eq_zero_of_not_mem h.1, hrest]

end Text

theorem closeBrace_not_mem_keyName {s : Text} (h : keyName s = true) : closeBrace ∉ s := by
  intro hm
  cases s with
  | nil => exact absurd hm List.not_mem_nil
  | cons c s =>
    rw [keyName, Bool.and_eq_true, List.all_eq_true] at h
    rcases List.mem_cons.mp hm with rfl | hm
    · exact absurd h.1 (by decide)
    · exact absurd (h.2 _ hm) (by decide)

theorem compileSegments_braced {c : BlockCompiler} {b : Model.Block} {value : Text} {i : ℕ}
    {seen texts : List Text} (hacc : Accepted (compileSegments c b value i seen texts)) :
    ∀ s ∈ texts, Braced s := by
  induction texts generalizing i seen with
  | nil => exact fun s hs => absurd hs List.not_mem_nil
  | cons s rest ih =>
    rw [compileSegments] at hacc
    rw [List.forall_mem_cons]
    split_ifs at hacc with hnil hlit hbrace hname hbuiltin hseen <;>
      simp only [accepted_bind_iff, accepted_report_iff, blocking_failure] at hacc <;>
      try exact absurd hacc.1 (by decide)
    · have hopen : openBrace ∉ s := fun hm => hbrace
        (List.any_eq_true.mpr ⟨_, hm, by simp [placeholderOpen]⟩)
      exact ⟨⟨fun _ => hopen, fun h => absurd h (by simp [hlit])⟩, ih hacc.1⟩
    · simp only [Bool.not_eq_false, not_or] at hlit hname
      exact ⟨⟨fun h => absurd h (by simp [hlit]), fun _ => closeBrace_not_mem_keyName hname.1⟩,
        ih hacc.2.1⟩

section Segments

variable {texts parts : List Text} {segments : List Segment} {captures : Captures}

theorem mem_placeholderNames {n : Text} : n ∈ placeholderNames texts ↔
    ∃ s ∈ texts, isPlaceholder s = true ∧ placeholderName s = n := by
  simp [placeholderNames, and_assoc]

theorem lookup_of_assigned {n : Text} (h : assigned captures n ≠ []) :
    captures.lookup n = some (assigned captures n) := by
  unfold assigned at h ⊢
  cases hn : captures.lookup n with
  | none => simp [hn] at h
  | some part => rfl

/-- The loop over the segments keeps what it was given and adds one text for each
placeholder, those that fill the template to the parts. -/
theorem matchSegments_eq_some_iff (hsegments : List.Forall₂ SegmentOf texts segments)
    (hnodup : (placeholderNames texts).Nodup) (acc : Captures) :
    (parts.length = segments.length ∧ matchSegments (segments.zip parts) acc = some captures) ↔
      (∀ k ∉ placeholderNames texts, captures.lookup k = acc.lookup k) ∧
      (∀ n ∈ placeholderNames texts, assigned captures n ≠ []) ∧
        parts = texts.map (fill (assigned captures)) := by
  induction hsegments generalizing parts acc with
  | nil =>
    simp only [placeholderNames, List.filter_nil, List.map_nil, List.not_mem_nil, List.length_nil,
      List.length_eq_zero_iff]
    constructor
    · rintro ⟨rfl, h⟩
      simp [Option.some.inj h]
    · rintro ⟨hsame, -, rfl⟩
      exact ⟨rfl, congrArg some (Finmap.ext_lookup fun k => (hsame k not_false).symm)⟩
  | @cons text segment texts segments hsegment _ ih =>
    cases parts with
    | nil => simp
    | cons part parts =>
      rw [List.zip_cons_cons, matchSegments]
      cases hp : isPlaceholder text with
      | false =>
        obtain rfl := hsegment.literal hp
        have hnames : placeholderNames (text :: texts) = placeholderNames texts := by
          simp [placeholderNames, hp]
        rw [hnames] at hnodup ⊢
        by_cases hpart : part = text
        · simpa [hpart, fill, hp] using ih hnodup acc
        · simp [hpart, fill, hp]
      | true =>
        obtain ⟨rfl, hname⟩ := hsegment.capture hp
        have hnames : placeholderNames (text :: texts) =
            placeholderName text :: placeholderNames texts := by simp [placeholderNames, hp]
        rw [hnames, List.nodup_cons] at hnodup
        have hfill : fill (assigned captures) text = assigned captures (placeholderName text) :=
          if_pos hp
        rw [hnames, List.forall_mem_cons, if_neg hname, List.map_cons, hfill, List.cons.injEq]
        by_cases hpart : part = []
        · rw [if_pos hpart]
          exact iff_of_false (by simp) fun h => h.2.1.1 (h.2.2.1 ▸ hpart)
        · rw [if_neg hpart, List.length_cons, List.length_cons, Nat.add_right_cancel_iff,
            ih hnodup.2 (acc.insert _ part)]
          constructor
          · rintro ⟨hsame, hfits, hrest⟩
            have hown : assigned captures (placeholderName text) = part := by
              rw [assigned, hsame _ hnodup.1, Finmap.lookup_insert, Option.getD_some]
            refine ⟨fun k hk => ?_, ⟨hown ▸ hpart, hfits⟩, hown.symm, hrest⟩
            rw [List.mem_cons, not_or] at hk
            rw [hsame k hk.2, Finmap.lookup_insert_of_ne _ hk.1]
          · rintro ⟨hsame, ⟨hown, hfits⟩, rfl, hrest⟩
            refine ⟨fun k hk => ?_, hfits, hrest⟩
            by_cases hkey : k = placeholderName text
            · subst hkey
              rw [Finmap.lookup_insert]
              exact lookup_of_assigned hown
            · rw [hsame k (by simp [hkey, hk]), Finmap.lookup_insert_of_ne _ hkey]

theorem matchTemplate_rooted (hne : parts ≠ []) (hparts : ∀ p ∈ parts, byte '/' ∉ p) :
    matchTemplate segments (rooted parts) = some captures ↔
      parts.length = segments.length ∧ matchSegments (segments.zip parts) ∅ = some captures := by
  have hslash : Strings.hasPrefix (rooted parts) (ascii "/") = true :=
    (hasPrefix_slash_iff _).mpr ⟨_, rooted_eq hne⟩
  simp only [matchTemplate, hslash, split_rooted hne hparts, Bool.true_eq_false, if_false]
  split_ifs with hlen
  · simp [hlen]
  · simp [not_not.mp hlen]

theorem Assigns.slash_not_mem (h : Assigns (placeholderNames texts) captures)
    (hfree : ∀ s ∈ texts, byte '/' ∉ s) :
    ∀ p ∈ texts.map (fill (assigned captures)), byte '/' ∉ p := by
  rw [List.forall_mem_map]
  intro s hs
  rw [fill]
  split_ifs with hp
  · exact (h.fits _ (mem_placeholderNames.mpr ⟨s, hs, hp, rfl⟩)).2
  · exact hfree s hs

theorem matchTemplate_eq_some_iff (hsegments : List.Forall₂ SegmentOf texts segments)
    (hnodup : (placeholderNames texts).Nodup) (hne : texts ≠ []) (hfree : ∀ s ∈ texts, byte '/' ∉ s)
    (path : Text) : matchTemplate segments path = some captures ↔
      Assigns (placeholderNames texts) captures ∧
        rooted (texts.map (fill (assigned captures))) = path := by
  have hmap : texts.map (fill (assigned captures)) ≠ [] := by simpa using hne
  cases hrooted : Strings.hasPrefix path (ascii "/") with
  | false =>
    refine iff_of_false (by simp [matchTemplate, hrooted]) ?_
    rintro ⟨-, rfl⟩
    exact absurd ((hasPrefix_slash_iff _).mpr ⟨_, rooted_eq hmap⟩) (by simp [hrooted])
  | true =>
    obtain ⟨rest, rfl⟩ := (hasPrefix_slash_iff path).mp hrooted
    have hparts : ∀ p ∈ Strings.split rest (byte '/'), byte '/' ∉ p :=
      fun _ => not_mem_of_mem_splitOn
    have hsplit : Strings.split rest (byte '/') ≠ [] := List.splitOn_ne_nil _ _
    rw [← rooted_split rest, matchTemplate_rooted hsplit hparts,
      matchSegments_eq_some_iff hsegments hnodup]
    constructor
    · rintro ⟨hnone, hfits, hfill⟩
      refine ⟨⟨fun n => ⟨fun hn => ?_, fun hn => ?_⟩, fun n hn => ⟨hfits n hn, ?_⟩⟩, by rw [hfill]⟩
      · by_contra hnot
        exact Finmap.lookup_eq_none.mp (hnone n hnot) hn
      · exact Finmap.mem_iff.mpr ⟨_, lookup_of_assigned (hfits n hn)⟩
      · obtain ⟨s, hs, hp, rfl⟩ := mem_placeholderNames.mp hn
        apply hparts
        rw [hfill]
        exact List.mem_map.mpr ⟨s, hs, if_pos hp⟩
    · rintro ⟨hassigns, h⟩
      refine ⟨fun k hk => ?_, fun n hn => (hassigns.fits n hn).1, ?_⟩
      · exact Finmap.lookup_eq_none.mpr (mt (hassigns.mem_iff k).mp hk)
      · rw [← split_rooted hmap (hassigns.slash_not_mem hfree), h, split_rooted hsplit hparts]

end Segments

section Accepted

variable {c : BlockCompiler} {b : Model.Block} {r : Model.Route}

theorem matchPath_eq_some_iff (hacc : Accepted (compileRoute c b r))
    (htype : r.path.type = .template) (path : Text) (captures : Captures) :
    matchPath (compileRoute c b r).value path = some captures ↔
      Assigns (placeholderNames (templateSegments r.path.value)) captures ∧
        rooted ((templateSegments r.path.value).map (fill (assigned captures))) = path := by
  have hroute := compileRoute_accepted hacc
  obtain ⟨hsegments, hnodup⟩ := hroute.segments htype
  have hpath : matchPath (compileRoute c b r).value path =
      matchTemplate (compileRoute c b r).value.segments path := by
    simp [matchPath, hroute.type_eq, htype]
  rw [hpath]
  exact matchTemplate_eq_some_iff hsegments hnodup (List.splitOn_ne_nil _ _)
    (fun _ => not_mem_of_mem_splitOn) path

theorem rooted_templateSegments (hacc : Accepted (compileRoute c b r)) :
    rooted (templateSegments r.path.value) = r.path.value := by
  have hrooted := (compileRoute_accepted hacc).rooted
  obtain ⟨s, hs⟩ := (hasPrefix_slash_iff _).mp hrooted
  have hsplit := segmentsOf_rooted hrooted
  rw [hs, segmentsOf_slash, Option.some.injEq, ← hs] at hsplit
  rw [← hsplit, rooted_split, hs]

theorem substitute_value (hacc : Accepted (compileRoute c b r)) (htype : r.path.type = .template)
    (σ : Text → Text) : substitute σ none r.path.value =
      rooted ((templateSegments r.path.value).map (fill σ)) := by
  have hsegments := hacc
  simp only [compileRoute, accepted_bind_iff, compilePath, htype, compileTemplate] at hsegments
  rw [← substitute_rooted (compileSegments_braced hsegments.2.1), rooted_templateSegments hacc]

/-- An accepted template matches a path exactly where one assignment of its placeholders
turns its text into the path, and returns that assignment. -/
theorem template_matches_by_substitution (hacc : Accepted (compileRoute c b r))
    (htype : r.path.type = .template) (path : Text) :
    (∀ captures, matchPath (compileRoute c b r).value path = some captures ↔
      Assigns (placeholderNames (templateSegments r.path.value)) captures ∧
        substitute (assigned captures) none r.path.value = path) ∧
    (placeholderNames (templateSegments r.path.value) = [] →
      ((matchPath (compileRoute c b r).value path).isSome ↔ path = r.path.value)) ∧
    ((matchPath (compileRoute c b r).value path).isSome →
      path.count (byte '/') = r.path.value.count (byte '/')) := by
  have hfree : ∀ s ∈ templateSegments r.path.value, byte '/' ∉ s := fun _ => not_mem_of_mem_splitOn
  have hiff := matchPath_eq_some_iff hacc htype path
  refine ⟨fun captures => ?_, fun hnames => ?_, fun hsome => ?_⟩
  · rw [hiff, substitute_value hacc htype]
  · -- nothing to replace: the one assignment is empty
    have hfill : ∀ σ, rooted ((templateSegments r.path.value).map (fill σ)) = r.path.value := by
      intro σ
      have hsame : ∀ s ∈ templateSegments r.path.value, fill σ s = s := fun s hs =>
        if_neg fun hp => List.not_mem_nil (hnames ▸ mem_placeholderNames.mpr ⟨s, hs, hp, rfl⟩)
      rw [List.map_congr_left hsame, List.map_id', rooted_templateSegments hacc]
    rw [Option.isSome_iff_exists]
    simp only [hiff, hfill]
    have hempty : Assigns (placeholderNames (templateSegments r.path.value)) ∅ :=
      ⟨by simp [hnames, Finmap.notMem_empty], by simp [hnames]⟩
    exact ⟨fun ⟨_, _, h⟩ => h.symm, fun h => ⟨∅, hempty, h.symm⟩⟩
  · obtain ⟨captures, hmatch⟩ := Option.isSome_iff_exists.mp hsome
    obtain ⟨hassigns, rfl⟩ := (hiff captures).mp hmatch
    conv_rhs => rw [← rooted_templateSegments hacc]
    rw [count_rooted (hassigns.slash_not_mem hfree), count_rooted hfree, List.length_map]

def itemRoute : Model.Route := ⟨⟨.template, ascii "/plans/\x7bplan\x7d/items"⟩, [], none⟩

theorem items_ne_nil : ascii "items" ≠ [] := by decide

def itemCompiler : BlockCompiler :=
  ⟨⟨ascii "items", ascii "items", items_ne_nil, items_ne_nil⟩, ∅, ∅, []⟩

def itemBlock : Model.Block := ⟨ascii "items", [itemRoute], .unset, []⟩

theorem template_matches_item :
    let captures : Captures := Finmap.singleton (ascii "plan") (ascii "7")
    Assigns [ascii "plan"] captures ∧
      substitute (assigned captures) none itemRoute.path.value = ascii "/plans/7/items" :=
  ((template_matches_by_substitution (c := itemCompiler) (b := itemBlock) (r := itemRoute)
    (by unfold Accepted Logged.Free; decide +kernel) rfl _).1 _).mp (by decide +kernel)

end Accepted

end Ratelimit.Match
