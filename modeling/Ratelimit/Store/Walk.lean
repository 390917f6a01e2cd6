import Ratelimit.Library.Sorting
import Ratelimit.Store.Observation

/-!
# Walking the in-memory store

A walk lists the live keys under a prefix in key order. Each step takes some of the
keys above its cursor, and the cursor it hands out is the last of them, so the steps
along the chain of cursors take the keys apart.
-/
namespace Ratelimit.Memory

open Algo Store Library

variable {now : ℕ} {m m' : Entries} {pre cursor k : Text} {limit : ℤ}

theorem sortedLT_above : (above now m pre cursor).SortedLT := Finset.sortedLT_sort _

theorem above_of_live {now' : ℕ}
    (h : ∀ k, cursor < k → pre <+: k → (live now m k).isSome = (live now' m' k).isSome) :
    above now m pre cursor = above now' m' pre cursor := by
  refine sortedLT_above.eq_of_mem_iff sortedLT_above fun k => ?_
  rw [mem_above, mem_above]
  constructor
  · rintro ⟨hlive, hcursor, hpre⟩
    exact ⟨h k hcursor hpre ▸ hlive, hcursor, hpre⟩
  · rintro ⟨hlive, hcursor, hpre⟩
    exact ⟨(h k hcursor hpre).symm ▸ hlive, hcursor, hpre⟩

theorem above_after {before after : List Text}
    (h : above now m pre cursor = before ++ k :: after) : above now m pre k = after := by
  have hsorted : (before ++ k :: after).SortedLT := h ▸ sortedLT_above
  obtain ⟨-, htail, hbefore⟩ := List.pairwise_append.mp hsorted.pairwise
  obtain ⟨hafter, hrest⟩ := List.pairwise_cons.mp htail
  have hcursor : cursor < k := by
    refine (mem_above.mp (?_ : k ∈ above now m pre cursor)).2.1
    rw [h]
    simp
  refine sortedLT_above.eq_of_mem_iff hrest.sortedLT fun j => ?_
  have hmem : j ∈ before ++ k :: after ↔ _ := h ▸ mem_above
  rw [mem_above]
  constructor
  · rintro ⟨hlive, hj, hpre⟩
    rcases List.mem_append.mp (hmem.mpr ⟨hlive, hcursor.trans hj, hpre⟩) with hin | hin
    · exact absurd (hbefore j hin k List.mem_cons_self) (lt_asymm hj)
    · rcases List.mem_cons.mp hin with rfl | hin
      · exact absurd hj (lt_irrefl j)
      · exact hin
  · intro hin
    obtain ⟨hlive, -, hpre⟩ := hmem.mp (List.mem_append_right _ (List.mem_cons_of_mem _ hin))
    exact ⟨hlive, hafter j hin, hpre⟩

theorem above_eq_sortedBy : above now m pre cursor = sortedBy (· ≤ ·) (m.keys.filter fun k =>
    (live now m k).isSome = true ∧ cursor < k ∧ Strings.hasPrefix k pre = true) :=
  sort_eq_sortedBy _

/-- A step of the scan by a sort that computes. -/
def storeScanBy (now : ℕ) (m : Entries) (pre cursor : Text) (limit : ℤ) :
    Entries × Except Message (List Text × Text) :=
  if limit < 1 then
    (m, .error ⟨"memory: scan: limit must be at least 1, got %d", [.number limit]⟩)
  else
    let swept := (sortedBy (· ≤ ·) m.keys).foldl
      (fun s j => if (live now m j).isNone = true then s.erase j else s) m
    let keys := sortedBy (· ≤ ·) (m.keys.filter fun k =>
      (live now m k).isSome = true ∧ cursor < k ∧ Strings.hasPrefix k pre = true)
    if (keys.length : ℤ) ≤ limit then (swept, .ok (keys, []))
    else
      let page := keys.take limit.toNat
      (swept, .ok (page, page.getLastD []))

theorem storeScan_eq_by :
    storeScan now m pre cursor limit = storeScanBy now m pre cursor limit := by
  rw [storeScan, storeScanBy, above_eq_sortedBy, sweepExpired, eraseWhere, sort_eq_sortedBy]

structure ScanStep (now : ℕ) (m : Entries) (pre cursor : Text) (limit : ℤ) (page : List Text)
    (next : Text) : Prop where
  length_le : page.length ≤ limit.toNat
  last : next = [] → above now m pre cursor = page
  onward : next ≠ [] → above now m pre cursor = page ++ above now m pre next
  le_next : next ≠ [] → ∀ k ∈ page, k ≤ next
  next_mem : next ≠ [] → next ∈ page

theorem storeScan_step (hlimit : 1 ≤ limit) : ∃ page next,
    (storeScan now m pre cursor limit).2 = .ok (page, next) ∧
      ScanStep now m pre cursor limit page next := by
  unfold storeScan
  rw [if_neg (by omega)]
  dsimp only
  split_ifs with hfit
  · refine ⟨_, [], rfl, ?_, fun _ => rfl, ?_, ?_, ?_⟩
    · omega
    · exact fun hnext => absurd rfl hnext
    · exact fun hnext => absurd rfl hnext
    · exact fun hnext => absurd rfl hnext
  · have hpage : (above now m pre cursor).take limit.toNat ≠ [] := by
      intro hnil
      have hlength := congrArg List.length hnil
      simp only [List.length_take, List.length_nil] at hlength
      omega
    obtain ⟨before, k, htake⟩ : ∃ before k, (above now m pre cursor).take limit.toNat =
        before ++ [k] := ⟨_, _, (List.dropLast_append_getLast hpage).symm⟩
    have hsplit : above now m pre cursor = before ++ k :: (above now m pre cursor).drop limit.toNat := by
      conv_lhs => rw [← List.take_append_drop limit.toNat (above now m pre cursor), htake]
      simp
    have hmem : k ∈ above now m pre cursor := by
      rw [hsplit]
      simp
    have hsorted : (before ++ [k]).SortedLT := htake ▸ (sortedLT_above.pairwise.take).sortedLT
    have hnext : ((above now m pre cursor).take limit.toNat).getLastD [] = k := by
      rw [htake]
      simp
    have hne : k ≠ [] := by
      rintro rfl
      exact List.not_lt_nil _ (mem_above.mp hmem).2.1
    refine ⟨_, _, rfl, ?_, ?_, ?_, ?_, ?_⟩
    · rw [List.length_take]
      exact Nat.min_le_left _ _
    · rw [hnext]
      exact fun hnil => absurd hnil hne
    · intro _
      rw [hnext, above_after hsplit, List.take_append_drop]
    · intro _ j hj
      rw [hnext]
      rw [htake] at hj
      rcases List.mem_append.mp hj with hin | hin
      · exact ((List.pairwise_append.mp hsorted.pairwise).2.2 j hin k (by simp)).le
      · exact (List.mem_singleton.mp hin).le
    · intro _
      rw [hnext, htake]
      simp

theorem lookup_storePeek_of_not_mem {bs : List Bucket} (h : k ∉ bs.map Bucket.key) :
    (storePeek now m bs).1.lookup k = m.lookup k := by
  unfold storePeek
  cases guardBuckets bs with
  | error e => rfl
  | ok _ => exact lookup_evalAll_of_not_mem h

end Ratelimit.Memory
