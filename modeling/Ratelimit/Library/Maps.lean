import Mathlib.Algebra.BigOperators.Group.Finset.Basic
import Mathlib.Data.Finmap
import Mathlib.Data.Finset.Sort

/-!
# Passes over a finite map

A pass that drops the keys a test selects, one that lists the entries, and one that rewrites
them. The keys are visited in order where it matters, so the passes compute.
-/
namespace Ratelimit.Library

variable {α β : Type*} [LinearOrder α] [DecidableEq α] {k : α}

def eraseWhere (p : α → Bool) (m : Finmap fun _ : α => β) : Finmap fun _ : α => β :=
  (m.keys.sort (· ≤ ·)).foldl (fun s j => if p j then s.erase j else s) m

omit [LinearOrder α] in
theorem lookup_foldl_erase (p : α → Bool) (ks : List α) (m : Finmap fun _ : α => β) :
    (ks.foldl (fun s j => if p j then s.erase j else s) m).lookup k =
      if k ∈ ks ∧ p k = true then none else m.lookup k := by
  induction ks generalizing m with
  | nil => simp
  | cons j ks ih =>
    rw [List.foldl_cons, ih]
    by_cases hmem : k ∈ ks ∧ p k = true
    · simp [hmem]
    · by_cases hjk : k = j
      · subst hjk
        cases hp : p k <;> simp
      · cases hp : p j
        · simp [hmem, hjk]
        · simp [hmem, hjk, Finmap.lookup_erase_ne hjk]

theorem lookup_eraseWhere (p : α → Bool) (m : Finmap fun _ : α => β) :
    (eraseWhere p m).lookup k = if p k then none else m.lookup k := by
  rw [eraseWhere, lookup_foldl_erase]
  by_cases hp : p k = true
  · by_cases hk : k ∈ m
    · simp [hp, hk, Finmap.mem_keys]
    · simp [hp, Finmap.lookup_eq_none.mpr hk]
  · simp [hp]

def entries (m : Finmap fun _ : α => β) : List (α × β) :=
  (m.keys.sort (· ≤ ·)).filterMap fun k => (m.lookup k).map (Prod.mk k)

theorem mem_entries {m : Finmap fun _ : α => β} {e : α × β} :
    e ∈ entries m ↔ m.lookup e.1 = some e.2 := by
  simp only [entries, List.mem_filterMap, Finset.mem_sort, Option.map_eq_some_iff]
  constructor
  · rintro ⟨k, -, v, hv, rfl⟩
    exact hv
  · intro he
    exact ⟨e.1, Finmap.mem_keys.mpr (Finmap.mem_of_lookup_eq_some he), e.2, he, rfl⟩

theorem entries_singleton (k : α) (v : β) : entries (Finmap.singleton k v) = [(k, v)] := by
  simp [entries, Finmap.lookup_singleton_eq]

theorem map_fst_entries (m : Finmap fun _ : α => β) :
    (entries m).map Prod.fst = m.keys.sort (· ≤ ·) := by
  rw [entries, List.map_filterMap]
  conv_rhs => rw [← List.filterMap_some (l := m.keys.sort (· ≤ ·))]
  refine List.filterMap_congr fun k hk => ?_
  obtain ⟨v, hv⟩ := Finmap.mem_iff.mp (Finmap.mem_keys.mp ((Finset.mem_sort _).mp hk))
  rw [hv, Option.map_some, Option.map_some]

theorem entries_injective :
    Function.Injective (entries : (Finmap fun _ : α => β) → List (α × β)) := by
  intro m m' h
  refine Finmap.ext_lookup fun k => Option.ext fun v => ?_
  have hiff : (k, v) ∈ entries m ↔ (k, v) ∈ entries m' := by rw [h]
  exact mem_entries.symm.trans (hiff.trans mem_entries)

omit [LinearOrder α] in
theorem mem_of_lookup_foldl_insert {l : List (α × β)} {m : Finmap fun _ : α => β} {v : β}
    (h : (l.foldl (fun m e => m.insert e.1 e.2) m).lookup k = some v) :
    (k, v) ∈ l ∨ m.lookup k = some v := by
  induction l generalizing m with
  | nil => exact Or.inr h
  | cons e l ih =>
    rcases ih h with hmem | hinsert
    · exact Or.inl (List.mem_cons_of_mem _ hmem)
    · by_cases hk : k = e.1
      · subst hk
        rw [Finmap.lookup_insert] at hinsert
        obtain rfl := Option.some.inj hinsert
        exact Or.inl List.mem_cons_self
      · rw [Finmap.lookup_insert_of_ne _ hk] at hinsert
        exact Or.inr hinsert

section Counts

omit [LinearOrder α] in
theorem keys_insert (v : β) (m : Finmap fun _ : α => β) :
    (m.insert k v).keys = insert k m.keys := by
  ext j
  rw [Finmap.mem_keys, Finmap.mem_insert, Finset.mem_insert, Finmap.mem_keys]

omit [LinearOrder α] in
theorem sum_keys_eq_add_erase {f : α → Option β → ℕ} (hnone : f k none = 0)
    (m : Finmap fun _ : α => β) : ∑ j ∈ m.keys, f j (m.lookup j) =
      f k (m.lookup k) + ∑ j ∈ m.keys.erase k, f j (m.lookup j) := by
  by_cases hk : k ∈ m
  · exact (Finset.add_sum_erase _ _ (Finmap.mem_keys.mpr hk)).symm
  · rw [Finmap.lookup_eq_none.mpr hk, hnone, Finset.erase_eq_of_notMem (mt Finmap.mem_keys.mp hk),
      Nat.zero_add]

omit [LinearOrder α] in
theorem sum_keys_insert {f : α → Option β → ℕ} (hnone : f k none = 0) (v : β)
    (m : Finmap fun _ : α => β) :
    ∑ j ∈ (m.insert k v).keys, f j ((m.insert k v).lookup j) + f k (m.lookup k) =
      ∑ j ∈ m.keys, f j (m.lookup j) + f k (some v) := by
  have hrest : ∑ j ∈ m.keys.erase k, f j ((m.insert k v).lookup j) =
      ∑ j ∈ m.keys.erase k, f j (m.lookup j) := by
    refine Finset.sum_congr rfl fun j hj => ?_
    rw [Finmap.lookup_insert_of_ne _ (Finset.ne_of_mem_erase hj)]
  rw [sum_keys_eq_add_erase hnone m, sum_keys_eq_add_erase hnone (m.insert k v),
    Finmap.lookup_insert, keys_insert, Finset.erase_insert_eq_erase, hrest]
  omega

def total (m : Finmap fun _ : α => ℕ) : ℕ := ∑ j ∈ m.keys, (m.lookup j).getD 0

omit [LinearOrder α] in
theorem total_count (k : α) (m : Finmap fun _ : α => ℕ) :
    total (m.insert k ((m.lookup k).getD 0 + 1)) = total m + 1 := by
  have hinsert := sum_keys_insert (k := k) (f := fun _ n => n.getD 0) rfl
    ((m.lookup k).getD 0 + 1) m
  simp only [Option.getD_some] at hinsert
  unfold total
  omega

end Counts

section Rewriting

variable {γ : Type*}

omit [LinearOrder α] [DecidableEq α] in
theorem nodupKeys_filterMap (f : α → β → Option γ) (s : Multiset (Sigma fun _ : α => β))
    (hs : s.NodupKeys) :
    (s.filterMap fun e => (f e.1 e.2).map (Sigma.mk (β := fun _ : α => γ) e.1)).NodupKeys := by
  induction s using Quotient.inductionOn with
  | h l =>
    refine List.nodupKeys_iff_pairwise.mpr (List.pairwise_filterMap.mpr ?_)
    refine (List.nodupKeys_iff_pairwise.mp hs).imp fun {e e'} hne b hb b' hb' => ?_
    obtain ⟨v, -, rfl⟩ := Option.map_eq_some_iff.mp hb
    obtain ⟨v', -, rfl⟩ := Option.map_eq_some_iff.mp hb'
    exact hne

/-- The map of the entries that a function keeps, as it rewrites them. -/
def filterMapEntries (f : α → β → Option γ) (m : Finmap fun _ : α => β) : Finmap fun _ : α => γ :=
  ⟨m.entries.filterMap fun e => (f e.1 e.2).map (Sigma.mk e.1),
    nodupKeys_filterMap f m.entries m.nodupKeys⟩

omit [LinearOrder α] in
theorem lookup_filterMapEntries (f : α → β → Option γ) (m : Finmap fun _ : α => β) :
    (filterMapEntries f m).lookup k = (m.lookup k).bind (f k) := by
  refine Option.ext fun v => ?_
  simp only [Finmap.lookup_eq_some_iff, Option.bind_eq_some_iff]
  constructor
  · intro h
    obtain ⟨⟨k', b⟩, hmem, hv⟩ := (Multiset.mem_filterMap _ _).mp h
    obtain ⟨v', hv', heq⟩ := Option.map_eq_some_iff.mp hv
    cases heq
    exact ⟨b, hmem, hv'⟩
  · rintro ⟨b, hmem, hv⟩
    exact (Multiset.mem_filterMap _ _).mpr ⟨⟨k, b⟩, hmem, by simp [hv]⟩

variable {δ : Type*} [DecidableEq δ]

omit [LinearOrder α] [DecidableEq α] [DecidableEq δ] in
theorem nodupKeys_rename {f : α → δ} (hf : Function.Injective f)
    (s : Multiset (Sigma fun _ : α => β)) (hs : s.NodupKeys) :
    (s.map fun e => Sigma.mk (β := fun _ : δ => β) (f e.1) e.2).NodupKeys := by
  induction s using Quotient.inductionOn with
  | h l =>
    refine List.nodupKeys_iff_pairwise.mpr (List.pairwise_map.mpr ?_)
    exact (List.nodupKeys_iff_pairwise.mp hs).imp fun {e e'} hne heq => hne (hf heq)

def renameKeys (f : α → δ) (hf : Function.Injective f) (m : Finmap fun _ : α => β) :
    Finmap fun _ : δ => β :=
  ⟨m.entries.map fun e => ⟨f e.1, e.2⟩, nodupKeys_rename hf m.entries m.nodupKeys⟩

omit [LinearOrder α] in
theorem lookup_renameKeys {f : α → δ} (hf : Function.Injective f) (m : Finmap fun _ : α => β) :
    (renameKeys f hf m).lookup (f k) = m.lookup k := by
  refine Option.ext fun v => ?_
  simp only [Finmap.lookup_eq_some_iff]
  constructor
  · intro h
    obtain ⟨⟨k', v'⟩, hmem, heq⟩ := Multiset.mem_map.mp h
    obtain ⟨hkey, rfl⟩ : f k' = f k ∧ v' = v := by simpa using heq
    rwa [hf hkey] at hmem
  · intro h
    exact Multiset.mem_map.mpr ⟨⟨k, v⟩, h, rfl⟩

end Rewriting

end Ratelimit.Library
