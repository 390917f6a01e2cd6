import Ratelimit.Store.Observation

/-!
# Deletions and the counters they do not name

A run of the counter store with some deletions left out. A counter that none of
them names answers as in the whole run, as long as no decision charges it together
with a deleted one: a decision is all or nothing over its buckets.
-/
namespace Ratelimit.Store

open Algo Library Memory

/-- What an answer says about the counters outside `deleted`. -/
def verdictsOff (deleted : List Text) (op : Op) : Answer → Option (List (Bucket × Verdict))
  | .ok verdicts => some ((op.buckets.zip verdicts).filter fun p => p.1.key ∉ deleted)
  | .error _ => none

def callOff (deleted : List Text) (m : Entries) (c : Call) :
    Entries × Option (List (Bucket × Verdict)) :=
  ((storeCall m c).1, verdictsOff deleted c.op (storeCall m c).2)

def Op.deletions : Op → List Text
  | .reset ks => ks
  | _ => []

/-- A decision charges counters that are gone, or others, not both. -/
def Apart (gone : List Text) (op : Op) : Prop :=
  ∀ bs, op = .decide bs → (∀ b ∈ bs, b.key ∈ gone) ∨ ∀ b ∈ bs, b.key ∉ gone

/-- The same along a run, in which the marked calls delete. -/
def ApartFrom : List Text → List (Bool × Call) → Prop
  | _, [] => True
  | gone, (true, c) :: log => ApartFrom (c.op.deletions ++ gone) log
  | gone, (false, c) :: log => Apart gone c.op ∧ ApartFrom gone log

section Steps

variable {deleted gone ks : List Text} {now : ℕ} {m m' : Entries} {bs : List Bucket} {c : Call}

theorem filter_zip_map {f g : Bucket → Verdict} (h : ∀ b ∈ bs, b.key ∉ deleted → f b = g b) :
    ((bs.zip (bs.map f)).filter fun p => p.1.key ∉ deleted) =
      (bs.zip (bs.map g)).filter fun p => p.1.key ∉ deleted := by
  induction bs with
  | nil => rfl
  | cons b bs ih =>
    have hrest := ih fun c hc => h c (List.mem_cons_of_mem _ hc)
    rw [List.map_cons, List.map_cons, List.zip_cons_cons, List.zip_cons_cons]
    by_cases hb : b.key ∈ deleted
    · rw [List.filter_cons_of_neg (by simpa using hb), List.filter_cons_of_neg (by simpa using hb), hrest]
    · rw [List.filter_cons_of_pos (by simpa using hb), List.filter_cons_of_pos (by simpa using hb), hrest,
        h b List.mem_cons_self hb]

theorem verdictsOff_peek (h : AgreeOn {k | k ∉ deleted} now m m') :
    verdictsOff deleted (.peek bs) (storePeek now m bs).2 =
      verdictsOff deleted (.peek bs) (storePeek now m' bs).2 := by
  cases hg : guardBuckets bs with
  | error msg => simp [storePeek, hg]
  | ok u =>
    by_cases hreg : Registered bs
    · rw [storePeek_snd hg hreg, storePeek_snd hg hreg]
      refine congrArg some (filter_zip_map fun b _ hb => ?_)
      rw [outcome, outcome, h.held_eq hb]
    · obtain ⟨msg, hmsg⟩ := evalAll_snd_of_not_registered (m := m) now hreg
      obtain ⟨msg', hmsg'⟩ := evalAll_snd_of_not_registered (m := m') now hreg
      simp [storePeek, hg, hmsg, hmsg', verdictsOff, Except.map]

theorem verdictsOff_decide (h : ∀ b ∈ bs, b.key ∈ deleted) :
    verdictsOff deleted (.decide bs) (storeDecide now m bs).2 =
      verdictsOff deleted (.decide bs) (storeDecide now m' bs).2 := by
  cases hg : guardBuckets bs with
  | error msg => simp [storeDecide, hg]
  | ok u =>
    by_cases hreg : Registered bs
    · rw [storeDecide_snd hg hreg, storeDecide_snd hg hreg]
      exact congrArg some (filter_zip_map fun b hb hfree => absurd (h b hb) hfree)
    · obtain ⟨msg, hmsg⟩ := evalAll_snd_of_not_registered (m := m) now hreg
      obtain ⟨msg', hmsg'⟩ := evalAll_snd_of_not_registered (m := m') now hreg
      simp [storeDecide, hg, hmsg, hmsg', verdictsOff]

theorem agreeOn_evalAll_any {K : Set Text} (h : AgreeOn K now m m') :
    AgreeOn K now (evalAll now m bs).1 (evalAll now m' bs).1 := by
  induction bs generalizing m m' with
  | nil => exact h
  | cons b bs ih =>
    have hfetch := @agreeOn_fetch K now m m' b h
    -- whether a bucket is judged depends on its algorithm alone
    cases halg : b.algorithm with
    | gcraID => simpa only [evalAll_cons, evalBucket, halg] using ih hfetch
    | fixedWindowID => simpa only [evalAll_cons, evalBucket, halg] using ih hfetch
    | unregistered code hfree => simpa only [evalAll_cons, evalBucket, halg] using hfetch

theorem agreeOn_callOff (hc : Apart gone c.op) (hgone : gone ⊆ deleted)
    (h : AgreeOn {k | k ∉ gone} c.now m m') :
    (callOff deleted m c).2 = (callOff deleted m' c).2 ∧
      AgreeOn {k | k ∉ gone} c.now (callOff deleted m c).1 (callOff deleted m' c).1 := by
  obtain ⟨now, op⟩ := c
  cases op with
  | reset ks => exact ⟨rfl, agreeOn_storeReset h⟩
  | peek bs =>
    have hsub : AgreeOn {k | k ∉ deleted} now m m' := fun k hk => h k fun hmem => hk (hgone hmem)
    refine ⟨verdictsOff_peek hsub, ?_⟩
    simp only [callOff, storeCall]
    unfold storePeek
    cases guardBuckets bs with
    | error msg => exact h
    | ok u => exact agreeOn_evalAll_any h
  | decide bs =>
    rcases hc bs rfl with hall | hnone
    · refine ⟨verdictsOff_decide fun b hb => hgone (hall b hb), fun k hk => ?_⟩
      have hfree : k ∉ bs.map Bucket.key := by
        intro hmem
        obtain ⟨b, hb, rfl⟩ := List.mem_map.mp hmem
        exact hk (hall b hb)
      have hsame : ∀ m : Entries, live now (storeDecide now m bs).1 k = live now m k :=
        fun m => live_of_lookup (lookup_storeDecide_of_not_mem hfree)
      exact (hsame m).trans ((h k hk).trans (hsame m').symm)
    · obtain ⟨hanswer, hstate⟩ := agreeOn_storeDecide h hnone
      exact ⟨congrArg (verdictsOff deleted (.decide bs)) hanswer, hstate⟩

theorem agreeOn_deletions (hc : c.op = .reset ks) (h : AgreeOn {k | k ∉ gone} c.now m m') :
    AgreeOn {k | k ∉ ks ++ gone} c.now (storeCall m c).1 m' := by
  obtain ⟨now, op⟩ := c
  obtain rfl : op = .reset ks := hc
  intro k hk
  obtain ⟨hks, hgone⟩ := not_or.mp fun hmem => hk (List.mem_append.mpr hmem)
  have hlookup : (storeReset m ks).lookup k = m.lookup k := by rw [lookup_storeReset, if_neg hks]
  exact (live_of_lookup hlookup).trans (h k hgone)

end Steps

/-- Deletions left out of a run change no answer about the counters they do not
name, where no decision charges a counter that is gone together with another. -/
theorem answers_without_deletions {deleted : List Text} (log : List (Bool × Call)) :
    ∀ {gone : List Text} {t : ℕ} {m m' : Entries}, MonotoneFrom (fun x => x.2.now) t log →
      (∀ x ∈ log, x.1 = true → ∃ ks, x.2.op = .reset ks ∧ ks ⊆ deleted) → gone ⊆ deleted →
      ApartFrom gone log → AgreeOn {k | k ∉ gone} t m m' →
      answersUnmarked log (runs (callOff deleted) m (log.map Prod.snd)).2 =
        (runs (callOff deleted) m' ((log.filter fun x => !x.1).map Prod.snd)).2 := by
  induction log with
  | nil => intro gone t m m' _ _ _ _ _; rfl
  | cons x log ih =>
    obtain ⟨mark, c⟩ := x
    intro gone t m m' hclock hmarked hgone hapart hagree
    have hnow : AgreeOn {k | k ∉ gone} c.now m m' := hagree.later (by exact_mod_cast hclock.1)
    have hrest := fun x hx => hmarked x (List.mem_cons_of_mem _ hx)
    cases mark with
    | true =>
      obtain ⟨ks, hop, hks⟩ := hmarked _ List.mem_cons_self rfl
      have hapart' : ApartFrom (ks ++ gone) log := by
        have hkeys : c.op.deletions = ks := by rw [hop]; rfl
        rw [← hkeys]
        exact hapart
      have hnext : AgreeOn {k | k ∉ ks ++ gone} c.now (callOff deleted m c).1 m' :=
        agreeOn_deletions hop hnow
      have htail := ih hclock.2 hrest (List.append_subset.mpr ⟨hks, hgone⟩) hapart' hnext
      simpa [answersUnmarked] using htail
    | false =>
      obtain ⟨hanswer, hnext⟩ := agreeOn_callOff hapart.1 hgone hnow
      have htail := ih hclock.2 hrest hgone hapart.2 hnext
      simpa [answersUnmarked, hanswer] using htail

end Ratelimit.Store
