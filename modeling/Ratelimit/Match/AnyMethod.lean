import Ratelimit.Compile.References
import Ratelimit.Match.ByPath

/-!
# Targets under any method and hits under one

A request brings into a block the captures of the route that its method picks. The
view that an operator gets of a path, without a method, speaks for all of them.
-/
namespace Ratelimit.Match

open Compile

section Produced

variable {k path method : Text}

theorem mem_matchSegments {l : List (Segment × Text)} {captures out : Captures}
    (h : matchSegments l captures = some out) :
    k ∈ out ↔ k ∈ captures ∨ k ≠ [] ∧ ∃ x ∈ l, x.1.capture = k := by
  induction l generalizing captures with
  | nil =>
    obtain rfl := Option.some.inj h
    simp
  | cons x l ih =>
    obtain ⟨s, part⟩ := x
    rw [matchSegments] at h
    split_ifs at h with hliteral hpart hempty
    · rw [ih h]
      constructor
      · rintro (hmem | ⟨hne, y, hy, hk⟩)
        · exact Or.inl hmem
        · exact Or.inr ⟨hne, y, List.mem_cons_of_mem _ hy, hk⟩
      · rintro (hmem | ⟨hne, y, hy, hk⟩)
        · exact Or.inl hmem
        · rcases List.mem_cons.mp hy with rfl | hy
          · exact absurd (hk.symm.trans hliteral) hne
          · exact Or.inr ⟨hne, y, hy, hk⟩
    · rw [ih h, Finmap.mem_insert]
      constructor
      · rintro ((rfl | hmem) | ⟨hne, y, hy, hk⟩)
        · exact Or.inr ⟨hliteral, _, List.mem_cons_self, rfl⟩
        · exact Or.inl hmem
        · exact Or.inr ⟨hne, y, List.mem_cons_of_mem _ hy, hk⟩
      · rintro (hmem | ⟨hne, y, hy, hk⟩)
        · exact Or.inl (Or.inr hmem)
        · rcases List.mem_cons.mp hy with rfl | hy
          · exact Or.inl (Or.inl hk.symm)
          · exact Or.inr ⟨hne, y, hy, hk⟩

theorem mem_matchPath {r : Route} (hr : r.Placed) {captures : Captures}
    (h : matchPath r path = some captures) :
    k ∈ captures ↔ k ≠ [] ∧ ∃ s ∈ r.segments, s.capture = k := by
  have hplain : r.type ≠ .template → ¬ ∃ s ∈ r.segments, s.capture = k := by
    rintro htype ⟨s, hs, -⟩
    exact htype (hr.template_of_mem s hs)
  unfold matchPath at h
  cases htype : r.type with
  | template =>
    simp only [htype, matchTemplate] at h
    split_ifs at h with hslash hlength
    have hfst : (r.segments.zip (Strings.split (path.drop 1) (byte '/'))).map Prod.fst =
        r.segments := List.map_fst_zip (by omega)
    have hsegments : (∃ s ∈ r.segments, s.capture = k) ↔
        ∃ x ∈ r.segments.zip (Strings.split (path.drop 1) (byte '/')), x.1.capture = k := by
      conv_lhs => rw [← hfst]
      simp
    have hempty : k ∉ (∅ : Captures) := Finmap.notMem_empty
    rw [mem_matchSegments h, hsegments, or_iff_right hempty]
  | other t ht => simp [htype] at h
  | _ =>
    simp only [htype] at h
    split_ifs at h
    obtain rfl := Option.some.inj h
    simp only [Finmap.notMem_empty, false_iff, not_and]
    exact fun _ => hplain (by simp [htype])

/-- What a request brings into a block: captures of the block only, and every capture
that all its routes produce. -/
theorem matchTarget_captures {declared : Text → Prop} {b : Block} (hb : b.Resolved declared)
    {m : Option Route × Text × Captures} (hm : matchTarget b path method = some m) :
    (∀ k ∈ m.2.2, k ∈ b.captures) ∧
      ∀ k ≠ [], b.routes ≠ [] → (∀ r ∈ b.routes, ∃ s ∈ r.segments, s.capture = k) → k ∈ m.2.2 := by
  unfold matchTarget at hm
  split_ifs at hm with hroutes
  · obtain rfl := Option.some.inj hm
    exact ⟨fun k hk => absurd hk Finmap.notMem_empty, fun k _ hne => absurd hroutes hne⟩
  · obtain ⟨route, hroute, rfl⟩ := Option.map_eq_some_iff.mp hm
    obtain ⟨hmem, hpath, -⟩ := matchRoutes_some hroute
    have hiff : ∀ k, k ∈ route.2.2 ↔ k ≠ [] ∧ ∃ s ∈ route.1.segments, s.capture = k :=
      fun k => mem_matchPath (hb.routes _ hmem) hpath
    constructor
    · intro k hk
      obtain ⟨hne, s, hs, rfl⟩ := (hiff k).mp hk
      refine (hb.mem_captures _).mpr ⟨route.1, hmem, ?_⟩
      simpa [Route.captureNames] using ⟨⟨s, hs, rfl⟩, hne⟩
    · intro k hne _ hall
      exact (hiff k).mpr ⟨hne, hall _ hmem⟩

end Produced

section AnyMethod

variable {snap : Snapshot} {path method : Text} {b : Block} {captures : Captures}

theorem mem_hits_iff {hit : Hit} :
    hit ∈ (candidates snap path method).hits ↔ ∃ b ∈ snap.blocks,
      hitOf (Strings.cut path (byte '?')).1 (Strings.cut path (byte '?')).2 method b =
        some hit := by
  simp only [candidates, List.mem_filterMap]

theorem hitOf_some {query : Text} {hit : Hit} (h : hitOf path query method b = some hit) :
    hit.block = b ∧ ∃ m, matchTarget b path method = some m ∧ hit.captures = m.2.2 := by
  obtain ⟨m, hm, rfl⟩ := Option.map_eq_some_iff.mp h
  exact ⟨rfl, m, hm, rfl⟩

/-- The block is targeted under the method, with these captures. -/
def Targeted (snap : Snapshot) (path method : Text) (b : Block) (captures : Captures) : Prop :=
  ∃ hit ∈ (candidates snap path method).hits, hit.block = b ∧ hit.captures = captures

theorem targeted_iff : Targeted snap path method b captures ↔ b ∈ snap.blocks ∧
    ∃ m, matchTarget b (Strings.cut path (byte '?')).1 method = some m ∧ m.2.2 = captures := by
  constructor
  · rintro ⟨hit, hhit, rfl, rfl⟩
    obtain ⟨b, hb, hhitOf⟩ := mem_hits_iff.mp hhit
    obtain ⟨rfl, m, hm, hcaptures⟩ := hitOf_some hhitOf
    exact ⟨hb, m, hm, hcaptures.symm⟩
  · rintro ⟨hb, m, hm, rfl⟩
    exact ⟨_, mem_hits_iff.mpr ⟨b, hb, by rw [hitOf, hm]; rfl⟩, rfl, rfl⟩

theorem exists_targeted_iff (hb : b ∈ snap.blocks) :
    (∃ method, Targeted snap path method b captures) ↔
      captures ∈ decidedBy (Strings.cut path (byte '?')).1 b := by
  simp only [targeted_iff, hb, true_and, mem_decidedBy_iff]

/-- The view under any method agrees with the matching under each: a capture is settled where all the
methods that target the block give it one value, and open where only some of them do. -/
theorem targetsByPath_agrees (namespaceName domain : Text) (p : Option Model.Policy)
    (path : Text) :
    let snap := (compile namespaceName domain p).1
    (∀ b, (∃ t ∈ targetsByPath snap path, t.block = b) ↔
      ∃ method captures, Targeted snap path method b captures) ∧
    ∀ t ∈ targetsByPath snap path,
      (∀ name v, t.captures.lookup name = some v ↔ name ∈ t.block.captures ∧
        ∀ method captures, Targeted snap path method t.block captures →
          captures.lookup name = some v) ∧
      (∀ name, name ∈ t.undecided ↔ name ∈ t.block.captures ∧
        ∃ method captures, Targeted snap path method t.block captures ∧ name ∈ captures ∧
          ∃ method' captures', Targeted snap path method' t.block captures' ∧
            captures'.lookup name ≠ captures.lookup name) ∧
      ∀ name, name ∉ t.captures → name ∉ t.undecided →
        ∀ method captures, Targeted snap path method t.block captures → name ∉ captures := by
  intro snap
  have hresolved : snap.Resolved := compile_resolved namespaceName domain p
  constructor
  · intro b
    constructor
    · rintro ⟨t, ht, rfl⟩
      obtain ⟨b, hb, htarget⟩ := List.mem_filterMap.mp ht
      have hdecided := targetByPath_isSome_iff.mp (Option.isSome_of_eq_some htarget)
      obtain ⟨captures, hcaptures⟩ := List.exists_mem_of_ne_nil _ hdecided
      obtain ⟨method, htargeted⟩ := (exists_targeted_iff hb).mpr hcaptures
      exact ⟨method, captures, (targetByPath_spec htarget).1 ▸ htargeted⟩
    · rintro ⟨method, captures, htargeted⟩
      have hb := (targeted_iff.mp htargeted).1
      have hmem := (exists_targeted_iff hb).mp ⟨method, htargeted⟩
      obtain ⟨t, ht⟩ := Option.isSome_iff_exists.mp
        (targetByPath_isSome_iff.mpr (List.ne_nil_of_mem hmem))
      exact ⟨t, List.mem_filterMap.mpr ⟨b, hb, ht⟩, (targetByPath_spec ht).1⟩
  · intro t ht
    obtain ⟨b, hb, htarget⟩ := List.mem_filterMap.mp ht
    obtain ⟨rfl, hcaptures, hundecided⟩ := targetByPath_spec htarget
    refine ⟨fun name v => ?_, fun name => ?_, fun name hsettled hopen method captures htargeted => ?_⟩
    · rw [hcaptures]
      simp only [← exists_targeted_iff hb, forall_exists_index]
      rw [forall_comm]
    · rw [hundecided]
      simp only [← exists_targeted_iff hb]
      refine and_congr_right fun _ => ?_
      constructor
      · rintro ⟨c, ⟨method, hc⟩, hname, c', ⟨method', hc'⟩, hdiffer⟩
        exact ⟨method, c, hc, hname, method', c', hc', hdiffer⟩
      · rintro ⟨method, c, hc, hname, method', c', hc', hdiffer⟩
        exact ⟨c, ⟨method, hc⟩, hname, c', ⟨method', hc'⟩, hdiffer⟩
    · obtain ⟨-, m, hm, rfl⟩ := targeted_iff.mp htargeted
      intro hname
      have hblock := (matchTarget_captures (hresolved.blocks _ hb) hm).1 name hname
      have hagree := (targetByPath_sound htarget hm).2 name hblock hopen
      rw [Finmap.lookup_eq_none.mpr hsettled] at hagree
      exact Finmap.lookup_eq_none.mp hagree hname

end AnyMethod

end Ratelimit.Match
