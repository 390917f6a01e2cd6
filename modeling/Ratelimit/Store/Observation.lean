import Ratelimit.Store.MemorySpec
import Ratelimit.Library.Runs

/-!
# What callers can observe of the in-memory store

Entries past their deadline linger until they are touched, so two maps can differ and still
answer alike. Stores that agree on the live entries of a set of keys answer every later call
on those keys alike.
-/
namespace Ratelimit.Memory

open Algo Store Library

/-- A call of the `Store` interface or of the `Inspector` one. -/
inductive Ask where
  | store (op : Op)
  | scan (pre cursor : Text) (limit : ℤ)

structure Probe where
  now : ℕ
  ask : Ask

inductive Reply where
  | verdicts (answer : Answer)
  | listed (answer : Except Message (List Text × Text))

def probe (m : Entries) (p : Probe) : Entries × Reply :=
  match p.ask with
  | .store op =>
    let r := storeCall m ⟨p.now, op⟩
    (r.1, .verdicts r.2)
  | .scan pre cursor limit =>
    let r := storeScan p.now m pre cursor limit
    (r.1, .listed r.2)

def Probe.buckets (p : Probe) : List Bucket :=
  match p.ask with
  | .store op => op.buckets
  | .scan _ _ _ => []

/-- The live entries of the keys in `K` are the same. -/
def AgreeOn (K : Set Text) (now : ℤ) (m m' : Entries) : Prop :=
  ∀ k ∈ K, live now m k = live now m' k

section Agreement

variable {K : Set Text} {now now' : ℤ} {m m' : Entries} {b : Bucket} {bs : List Bucket} {k : Text}

theorem live_of_lookup (h : m.lookup k = m'.lookup k) : live now m k = live now m' k := by
  simp [live, h]

theorem live_eq_some {e : Entry} (hl : m.lookup k = some e) (h : now < e.deadline) :
    live now m k = some e := by
  simp [live, hl, Option.filter, h]

theorem live_later (h : now ≤ now') :
    live now' m k = (live now m k).filter fun e => now' < e.deadline := by
  unfold live
  cases m.lookup k with
  | none => rfl
  | some e =>
    by_cases hlate : now' < e.deadline
    · have : now < e.deadline := by omega
      simp [Option.filter, hlate, this]
    · by_cases hnow : now < e.deadline <;> simp [Option.filter, hlate, hnow]

theorem AgreeOn.later (h : AgreeOn K now m m') (hle : now ≤ now') : AgreeOn K now' m m' := by
  intro k hk
  rw [live_later hle, live_later hle, h k hk]

theorem AgreeOn.held_eq (h : AgreeOn K now m m') (hb : b.key ∈ K) :
    held now m b = held now m' b := by
  simp [held, h b.key hb]

theorem live_insert_self {e : Entry} :
    live now (m.insert k e) k = if now < e.deadline then some e else none := by
  simp [live, Option.filter]

theorem live_insert_of_ne {e : Entry} {j : Text} (h : k ≠ j) :
    live now (m.insert j e) k = live now m k := by
  simp [live, Finmap.lookup_insert_of_ne _ h]

theorem AgreeOn.insert (h : AgreeOn K now m m') (j : Text) (e : Entry) :
    AgreeOn K now (m.insert j e) (m'.insert j e) := by
  intro k hk
  by_cases hkj : k = j
  · subst hkj
    rw [live_insert_self, live_insert_self]
  · rw [live_insert_of_ne hkj, live_insert_of_ne hkj, h k hk]

theorem agreeOn_fetch (h : AgreeOn K now m m') :
    AgreeOn K now (fetch now m b).1 (fetch now m' b).1 := by
  intro k hk
  by_cases hkb : k = b.key
  · subst hkb
    apply live_of_lookup
    rw [lookup_fetch_self, lookup_fetch_self, h.held_eq hk]
  · rw [live_of_lookup (lookup_fetch_of_ne hkb), live_of_lookup (lookup_fetch_of_ne hkb), h k hk]

theorem agreeOn_evalAll (h : AgreeOn K now m m') (hbs : ∀ b ∈ bs, b.key ∈ K) :
    (evalAll now m bs).2 = (evalAll now m' bs).2 ∧
      AgreeOn K now (evalAll now m bs).1 (evalAll now m' bs).1 := by
  induction bs generalizing m m' with
  | nil => exact ⟨rfl, h⟩
  | cons b bs ih =>
    have hb := hbs b List.mem_cons_self
    have hf := @agreeOn_fetch K now m m' b h
    obtain ⟨hout, hrest⟩ := ih hf fun c hc => hbs c (List.mem_cons_of_mem _ hc)
    simp only [evalAll_cons, fetch_snd, h.held_eq hb]
    cases evalBucket now (held now m' b) b with
    | error msg => exact ⟨rfl, hf⟩
    | ok o => exact ⟨by rw [hout], hrest⟩

theorem agreeOn_commit {admitting : Bool} {pairs : List (Bucket × Outcome)}
    (h : AgreeOn K now m m') :
    AgreeOn K now (commit admitting m pairs).1 (commit admitting m' pairs).1 := by
  induction pairs generalizing m m' with
  | nil => exact h
  | cons p rest ih =>
    rw [commit_cons, commit_cons]
    split_ifs
    · exact ih (h.insert _ _)
    · exact ih h

/-- What is stored under the key was written by this algorithm. -/
def TaggedAt (a : ID) (k : Text) (m : Entries) : Prop :=
  ∀ e, m.lookup k = some e → e.algorithm = a

theorem TaggedAt.of_lookup {a : ID} (h : TaggedAt a k m)
    (hl : m'.lookup k = m.lookup k ∨ m'.lookup k = none) : TaggedAt a k m' := by
  intro e he
  rcases hl with hk | hk
  · exact h e (hk ▸ he)
  · simp [hk] at he

theorem TaggedAt.held_eq_live (h : TaggedAt b.algorithm b.key m) :
    held now m b = live now m b.key := by
  unfold held live
  cases hl : m.lookup b.key with
  | none => rfl
  | some e =>
    have halg : e.algorithm = b.algorithm := h e hl
    by_cases hlive : now < e.deadline <;> simp [Option.filter, hlive, halg]

/-- Evaluation drops expired entries only, where a key keeps its algorithm. -/
theorem TaggedAt.live_evalAll {a : ID} (h : TaggedAt a k m)
    (hbs : ∀ b ∈ bs, b.key = k → b.algorithm = a) :
    live now (evalAll now m bs).1 k = live now m k := by
  induction bs generalizing m with
  | nil => rfl
  | cons b bs ih =>
    have hfetch : live now (fetch now m b).1 k = live now m k := by
      by_cases hk : k = b.key
      · subst hk
        have hb := hbs b List.mem_cons_self rfl
        rw [live, lookup_fetch_self, (hb ▸ h : TaggedAt b.algorithm b.key m).held_eq_live,
          ← live_later le_rfl]
      · exact live_of_lookup (lookup_fetch_of_ne hk)
    have htag : TaggedAt a k (fetch now m b).1 := by
      apply h.of_lookup
      by_cases hk : k = b.key
      · subst hk
        rw [lookup_fetch_self]
        exact held_cases
      · exact Or.inl (lookup_fetch_of_ne hk)
    have hrest := ih htag fun c hc => hbs c (List.mem_cons_of_mem _ hc)
    cases he : evalBucket now (fetch now m b).2 b with
    | error msg => simpa [he] using hfetch
    | ok o =>
      simp only [evalAll_cons, he]
      exact hrest.trans hfetch

theorem taggedAt_storeCall {a : ID} {c : Call} (h : TaggedAt a k m)
    (hc : ∀ b ∈ c.op.buckets, b.key = k → b.algorithm = a) : TaggedAt a k (storeCall m c).1 := by
  intro e he
  refine entry_storeCall h (fun bs b hb hmem hkey => ?_) he
  obtain ⟨a, ha⟩ := hb.registered b hb.mem
  rw [outcome_next_algorithm ha hb.allowed]
  exact hc b hmem hkey

theorem agreeOn_storeDecide {now : ℕ} (h : AgreeOn K now m m') (hbs : ∀ b ∈ bs, b.key ∈ K) :
    (storeDecide now m bs).2 = (storeDecide now m' bs).2 ∧
      AgreeOn K now (storeDecide now m bs).1 (storeDecide now m' bs).1 := by
  obtain ⟨hout, hstate⟩ := agreeOn_evalAll h hbs
  unfold storeDecide
  cases guardBuckets bs with
  | error msg => exact ⟨rfl, h⟩
  | ok u =>
    simp only [hout]
    cases (evalAll now m' bs).2 with
    | error msg => exact ⟨rfl, hstate⟩
    | ok outs =>
      refine ⟨?_, agreeOn_commit hstate⟩
      simp only [commit_snd]

theorem agreeOn_storePeek {now : ℕ} (h : AgreeOn K now m m') (hbs : ∀ b ∈ bs, b.key ∈ K) :
    (storePeek now m bs).2 = (storePeek now m' bs).2 ∧
      AgreeOn K now (storePeek now m bs).1 (storePeek now m' bs).1 := by
  obtain ⟨hout, hstate⟩ := agreeOn_evalAll h hbs
  unfold storePeek
  cases guardBuckets bs with
  | error msg => exact ⟨rfl, h⟩
  | ok u => exact ⟨congrArg (Except.map _) hout, hstate⟩

theorem agreeOn_storeReset {ks : List Text} (h : AgreeOn K now m m') :
    AgreeOn K now (storeReset m ks) (storeReset m' ks) := by
  intro k hk
  by_cases hmem : k ∈ ks
  · simp [live, lookup_storeReset, hmem]
  · simpa [live, lookup_storeReset, hmem] using h k hk

theorem agreeOn_storeCall {c : Call} (h : AgreeOn K c.now m m')
    (hc : ∀ b ∈ c.op.buckets, b.key ∈ K) :
    (storeCall m c).2 = (storeCall m' c).2 ∧
      AgreeOn K c.now (storeCall m c).1 (storeCall m' c).1 := by
  obtain ⟨now, op⟩ := c
  cases op with
  | decide bs => exact agreeOn_storeDecide h hc
  | peek bs => exact agreeOn_storePeek h hc
  | reset ks => exact ⟨rfl, agreeOn_storeReset h⟩

end Agreement

section Scan

variable {K : Set Text} {now : ℕ} {m m' : Entries} {pre cursor k : Text} {limit : ℤ}

theorem lookup_sweepExpired : (sweepExpired now m).lookup k = live now m k := by
  rw [sweepExpired, lookup_eraseWhere]
  cases hl : m.lookup k with
  | none => simp [live, hl]
  | some e => by_cases hlive : now < e.deadline <;> simp [live, hl, hlive, Option.filter]

theorem live_live : live now (sweepExpired now m) k = live now m k := by
  rw [live, lookup_sweepExpired, ← live_later le_rfl]

theorem mem_above :
    k ∈ above now m pre cursor ↔ (live now m k).isSome = true ∧ cursor < k ∧ pre <+: k := by
  have hkey : (live now m k).isSome = true → k ∈ m.keys := by
    intro h
    rw [Finmap.mem_keys, ← Finmap.lookup_isSome]
    unfold live at h
    cases hl : m.lookup k with
    | none => simp [hl] at h
    | some e => rfl
  simp only [above, Finset.mem_sort, Finset.mem_filter, Strings.hasPrefix_iff]
  constructor
  · exact fun h => h.2
  · exact fun h => ⟨hkey h.1, h⟩

theorem above_congr (h : AgreeOn Set.univ now m m') :
    above now m pre cursor = above now m' pre cursor := by
  have hset : ∀ k, k ∈ above now m pre cursor ↔ k ∈ above now m' pre cursor := by
    intro k
    rw [mem_above, mem_above, h k trivial]
  simp only [above, Finset.mem_sort] at hset ⊢
  exact congrArg (Finset.sort · (· ≤ ·)) (Finset.ext hset)

theorem storeScan_fst :
    (storeScan now m pre cursor limit).1 = if limit < 1 then m else sweepExpired now m := by
  unfold storeScan
  split_ifs
  · rfl
  · dsimp only
    split_ifs <;> rfl

theorem lookup_storeScan_cases :
    (storeScan now m pre cursor limit).1.lookup k = m.lookup k ∨
      (storeScan now m pre cursor limit).1.lookup k = none := by
  rw [storeScan_fst]
  split_ifs
  · exact Or.inl rfl
  · rw [lookup_sweepExpired, live]
    cases m.lookup k with
    | none => exact Or.inl rfl
    | some e => by_cases hlive : now < e.deadline <;> simp [Option.filter, hlive]

theorem live_storeScan : live now (storeScan now m pre cursor limit).1 k = live now m k := by
  rw [storeScan_fst]
  split_ifs
  · rfl
  · exact live_live

theorem agreeOn_storeScan (h : AgreeOn K now m m') :
    AgreeOn K now (storeScan now m pre cursor limit).1 (storeScan now m' pre cursor limit).1 := by
  intro k hk
  rw [live_storeScan, live_storeScan, h k hk]

theorem storeScan_snd_congr (h : AgreeOn Set.univ now m m') :
    (storeScan now m pre cursor limit).2 = (storeScan now m' pre cursor limit).2 := by
  unfold storeScan
  simp only [above_congr h]
  split_ifs <;> rfl

/-- A step lists the smallest keys above the cursor, at most `limit` of them. -/
theorem storeScan_page (hlimit : 1 ≤ limit) :
    ∃ next, (storeScan now m pre cursor limit).2 =
      .ok ((above now m pre cursor).take limit.toNat, next) := by
  unfold storeScan
  rw [if_neg (by omega)]
  dsimp only
  split_ifs with hfit
  · refine ⟨[], ?_⟩
    rw [List.take_of_length_le (by omega)]
  · exact ⟨_, rfl⟩

theorem storeScan_next {page : List Text} {next : Text} (hlimit : 1 ≤ limit)
    (h : (storeScan now m pre cursor limit).2 = .ok (page, next)) :
    next = [] ∨ next ∈ above now m pre cursor := by
  unfold storeScan at h
  rw [if_neg (by omega)] at h
  dsimp only at h
  split_ifs at h with hfit
  · simp only [Except.ok.injEq, Prod.mk.injEq] at h
    exact Or.inl h.2.symm
  · simp only [Except.ok.injEq, Prod.mk.injEq] at h
    obtain ⟨-, rfl⟩ := h
    have hpage : (above now m pre cursor).take limit.toNat ≠ [] := by
      intro hnil
      have hlength := congrArg List.length hnil
      simp only [List.length_take, List.length_nil] at hlength
      omega
    rw [List.getLastD_eq_getLast?, List.getLast?_eq_getLast_of_ne_nil hpage]
    exact Or.inr (List.mem_of_mem_take (List.getLast_mem hpage))

theorem length_above_lt {next : Text} (h : next ∈ above now m pre cursor) :
    (above now m pre next).length < (above now m pre cursor).length := by
  have hnext := (mem_above.mp h).2.1
  simp only [above, Finset.mem_sort] at h
  simp only [above, Finset.length_sort]
  apply Finset.card_lt_card
  rw [Finset.ssubset_iff_of_subset]
  · refine ⟨next, h, fun hin => ?_⟩
    exact lt_irrefl next (Finset.mem_filter.mp hin).2.2.1
  · intro j hj
    simp only [Finset.mem_filter] at hj ⊢
    exact ⟨hj.1, hj.2.1, hnext.trans hj.2.2.1, hj.2.2.2⟩

theorem le_of_isPrefix {p t : Text} (h : p <+: t) : p ≤ t := by
  induction p generalizing t with
  | nil => exact not_lt.mp (List.not_lt_nil t)
  | cons c p ih =>
    obtain ⟨u, rfl⟩ := h
    rw [List.cons_append]
    exact List.cons_le_cons c (ih (List.prefix_append p u))

theorem filter_take_above (n : ℕ) (hn : 1 ≤ n) :
    ((above now m k cursor).take n).filter (· = k) =
      if (live now m k).isSome = true ∧ cursor < k then [k] else [] := by
  have hsorted : (above now m k cursor).Pairwise (· ≤ ·) := Finset.pairwise_sort _ _
  have hnodup : (above now m k cursor).Nodup := Finset.sort_nodup _ _
  have hmem : k ∈ above now m k cursor ↔ (live now m k).isSome = true ∧ cursor < k := by
    rw [mem_above]
    exact ⟨fun h => ⟨h.1, h.2.1⟩, fun h => ⟨h.1, h.2, List.prefix_rfl⟩⟩
  have hpre : ∀ j ∈ above now m k cursor, k ≤ j := fun j hj => le_of_isPrefix (mem_above.mp hj).2.2
  by_cases hin : k ∈ above now m k cursor
  · rw [if_pos (hmem.mp hin)]
    cases hl : above now m k cursor with
    | nil => simp [hl] at hin
    | cons j rest =>
      rw [hl] at hsorted hnodup hpre hin
      have hjk : j = k := by
        rcases List.mem_cons.mp hin with he | hrest
        · exact he.symm
        · exact le_antisymm ((List.pairwise_cons.mp hsorted).1 k hrest) (hpre j List.mem_cons_self)
      subst hjk
      obtain ⟨n, rfl⟩ : ∃ i, n = i + 1 := ⟨n - 1, by omega⟩
      have hrest : j ∉ rest.take n :=
        fun h => (List.nodup_cons.mp hnodup).1 (List.mem_of_mem_take h)
      rw [List.take_succ_cons, List.filter_cons_of_pos (by simp), List.filter_eq_nil_iff.mpr]
      intro i hi he
      exact hrest (of_decide_eq_true he ▸ hi)
  · rw [if_neg (fun h => hin (hmem.mpr h)), List.filter_eq_nil_iff]
    intro j hj he
    rw [of_decide_eq_true he] at hj
    exact hin (List.mem_of_mem_take hj)

end Scan

section Futures

variable {now : ℕ} {m m' : Entries} {k : Text}

/-- No later run of calls tells the two stores apart. -/
def Indistinguishable (now : ℕ) (m m' : Entries) : Prop :=
  ∀ ps, MonotoneFrom Probe.now now ps → (runs probe m ps).2 = (runs probe m' ps).2

/-- A call that judges buckets of one key only, or lists the keys under it. -/
def Probe.About (k : Text) (p : Probe) : Prop :=
  match p.ask with
  | .store op => ∀ b ∈ op.buckets, b.key = k
  | .scan pre _ _ => pre = k

/-- The part of a reply that is about one key. A page keeps that key, if listed. -/
def Reply.about (k : Text) : Reply → Reply
  | .verdicts a => .verdicts a
  | .listed a => .listed (a.map fun page => (page.1.filter (· = k), []))

/-- No later run of calls about the key tells the two stores apart. -/
def IndistinguishableAt (k : Text) (now : ℕ) (m m' : Entries) : Prop :=
  ∀ ps, MonotoneFrom Probe.now now ps → (∀ p ∈ ps, p.About k) →
    (runs probe m ps).2.map (Reply.about k) = (runs probe m' ps).2.map (Reply.about k)

theorem agreeOn_probe {p : Probe} (h : AgreeOn Set.univ p.now m m') :
    (probe m p).2 = (probe m' p).2 ∧ AgreeOn Set.univ p.now (probe m p).1 (probe m' p).1 := by
  obtain ⟨now, ask⟩ := p
  cases ask with
  | store op =>
    obtain ⟨hout, hstate⟩ := agreeOn_storeCall (c := ⟨now, op⟩) h fun _ _ => trivial
    exact ⟨congrArg Reply.verdicts hout, hstate⟩
  | scan pre cursor limit =>
    exact ⟨congrArg Reply.listed (storeScan_snd_congr h), agreeOn_storeScan h⟩

theorem agreeOn_probe_about {p : Probe} (hp : p.About k) (h : AgreeOn {k} p.now m m') :
    (probe m p).2.about k = (probe m' p).2.about k ∧
      AgreeOn {k} p.now (probe m p).1 (probe m' p).1 := by
  obtain ⟨now, ask⟩ := p
  cases ask with
  | store op =>
    obtain ⟨hout, hstate⟩ := agreeOn_storeCall (c := ⟨now, op⟩) h hp
    exact ⟨congrArg Reply.verdicts hout, hstate⟩
  | scan pre cursor limit =>
    obtain rfl : pre = k := hp
    refine ⟨?_, agreeOn_storeScan h⟩
    simp only [probe, Reply.about, Reply.listed.injEq]
    by_cases hlimit : 1 ≤ limit
    · obtain ⟨next, hpage⟩ := @storeScan_page now m pre cursor limit hlimit
      obtain ⟨next', hpage'⟩ := @storeScan_page now m' pre cursor limit hlimit
      rw [hpage, hpage']
      simp only [Except.map]
      rw [filter_take_above _ (by omega), filter_take_above _ (by omega), h pre rfl]
    · have hlt : limit < 1 := by omega
      simp [storeScan, hlt]

theorem indistinguishable_of_agreeOn (h : AgreeOn Set.univ now m m') :
    Indistinguishable now m m' := by
  intro ps hclock
  apply answers_eq_of_simulation (R := fun t m m' => AgreeOn Set.univ t m m')
    (P := fun _ => True) _ _ hclock (fun _ _ => trivial) h
  · intro t t' m m' hle hm
    exact hm.later (by exact_mod_cast hle)
  · intro m m' p _ hm
    exact agreeOn_probe hm

theorem indistinguishableAt_of_live (h : live now m k = live now m' k) :
    IndistinguishableAt k now m m' := by
  intro ps hclock habout
  have hstart : AgreeOn {k} now m m' := by
    rintro j rfl
    exact h
  have hlater : ∀ (t t' : ℕ) m m', t ≤ t' → AgreeOn {k} t m m' → AgreeOn {k} t' m m' :=
    fun t t' m m' hle hm => hm.later (by exact_mod_cast hle)
  have hstep : ∀ m m' (p : Probe), p.About k → AgreeOn {k} p.now m m' →
      (probe m p).2.about k = (probe m' p).2.about k ∧
        AgreeOn {k} p.now (probe m p).1 (probe m' p).1 :=
    fun m m' p hp hm => agreeOn_probe_about hp hm
  have hrun := (simulation_runs (Q := fun r r' : Reply => r.about k = r'.about k) hlater hstep
    ps now m m' hclock habout hstart).1
  rw [← List.forall₂_eq_eq_eq, List.forall₂_map_left_iff, List.forall₂_map_right_iff]
  exact hrun

end Futures

end Ratelimit.Memory
