import Ratelimit.Store.Observation

/-!
# A decision is all-or-nothing

As long as a key is only ever used with one algorithm, the entries that evaluation drops are
the expired ones, so a refused decision cannot be noticed later. An admitted one acts on each
of its keys as deciding that bucket alone would.
-/
namespace Ratelimit.Memory

open Algo Store Library

variable {alg : Text → ID} {now : ℕ} {m : Entries} {b : Bucket} {bs : List Bucket} {k : Text}

/-- Every entry was written by the algorithm its key is used with. -/
def Tagged (alg : Text → ID) (m : Entries) : Prop := ∀ k, TaggedAt (alg k) k m

/-- The call uses every key with the algorithm assigned to it. -/
def Probe.Uses (alg : Text → ID) (p : Probe) : Prop := ∀ b ∈ p.buckets, b.algorithm = alg b.key

theorem tagged_storeCall {c : Call} (h : Tagged alg m)
    (hc : ∀ b ∈ c.op.buckets, b.algorithm = alg b.key) : Tagged alg (storeCall m c).1 :=
  fun k => taggedAt_storeCall (h k) fun b hb he => he ▸ hc b hb

theorem tagged_probe {p : Probe} (h : Tagged alg m) (hp : p.Uses alg) :
    Tagged alg (probe m p).1 := by
  obtain ⟨now, ask⟩ := p
  cases ask with
  | store op => exact tagged_storeCall h hp
  | scan pre cursor limit =>
    exact fun k => (h k).of_lookup lookup_storeScan_cases

theorem tagged_runs {history : List Probe} {t : ℕ} (hclock : MonotoneFrom Probe.now t history)
    (huses : ∀ p ∈ history, p.Uses alg) : Tagged alg (runs probe ∅ history).1 := by
  apply invariant_runs (fun _ m => Tagged alg m) _ _ history t ∅ hclock huses
  · intro k e he
    simp at he
  · intro t t' m _ hm
    exact hm
  · intro m p hp hm
    exact tagged_probe hm hp

theorem Tagged.at_bucket (h : Tagged alg m) (hb : b.algorithm = alg b.key) :
    TaggedAt b.algorithm b.key m := hb ▸ h b.key

theorem Tagged.evalAll_agreeOn (h : Tagged alg m) (hbs : ∀ b ∈ bs, b.algorithm = alg b.key) :
    AgreeOn Set.univ now (evalAll now m bs).1 m :=
  fun k _ => (h k).live_evalAll fun b hb he => he ▸ hbs b hb

/-- Every call but an admitted decision leaves the live entries as they were. -/
theorem Tagged.storeDecide_agreeOn (h : Tagged alg m) (hbs : ∀ b ∈ bs, b.algorithm = alg b.key)
    (hno : ∀ vs, (storeDecide now m bs).2 = .ok vs → admitted bs vs = false) :
    AgreeOn Set.univ now (storeDecide now m bs).1 m := by
  have heval : AgreeOn Set.univ now (evalAll now m bs).1 m := h.evalAll_agreeOn hbs
  cases hg : guardBuckets bs with
  | error msg =>
    intro k _
    simp [storeDecide, hg]
  | ok u =>
    by_cases hreg : Registered bs
    · have hrefused := hno _ (storeDecide_snd hg hreg)
      rw [admitted_answered] at hrefused
      simpa [storeDecide_eq hg hreg, hrefused, commit_false] using heval
    · obtain ⟨msg, hmsg⟩ := evalAll_snd_of_not_registered (m := m) now hreg
      simpa [storeDecide, hg, hmsg] using heval

/-- A bucket of an admitted decision: charged as if it were decided alone where
its own verdict allows, untouched otherwise. -/
structure ChargedAlone (now : ℕ) (m m' : Entries) (b : Bucket) (v : Verdict) : Prop where
  enforced : b.shadow = false → v.allowed = true
  verdict : v.allowed = true → (storeDecide now m [b]).2 = .ok [v]
  charged : v.allowed = true → IndistinguishableAt b.key now m' (storeDecide now m [b]).1
  spared : v.allowed = false → IndistinguishableAt b.key now m' m

theorem chargedAlone_storeDecide (htag : Tagged alg m) (halg : b.algorithm = alg b.key)
    (hg : guardBuckets bs = .ok ()) (hreg : Registered bs) (hb : b ∈ bs)
    (hadmits : admits now m bs = true) :
    ChargedAlone now m (storeDecide now m bs).1 b
      (answered (admits now m bs) (outcome now m b)) := by
  have hcharges : (outcome now m b).allowed = true → Charges now m bs b :=
    fun h => ⟨hg, hreg, hb, hadmits, h⟩
  constructor
  · intro hshadow
    rw [answered_allowed]
    have hall := List.all_eq_true.mp hadmits b hb
    simpa [hshadow] using hall
  · intro h
    rw [answered_allowed] at h
    have halone := (hcharges h).alone
    rw [storeDecide_snd halone.guard halone.registered, halone.admitted, hadmits]
    rfl
  · intro h
    rw [answered_allowed] at h
    apply indistinguishableAt_of_live
    apply live_of_lookup
    rw [(hcharges h).lookup_eq, (hcharges h).alone.lookup_eq]
  · intro h
    rw [answered_allowed] at h
    apply indistinguishableAt_of_live
    rw [live, lookup_storeDecide_of_mem hg hreg hb, h, Bool.and_false, if_neg Bool.false_ne_true,
      (htag.at_bucket halg).held_eq_live, ← live_later le_rfl]

/-- A decision that fails or is refused cannot be noticed by any later call. One that is admitted charges
every enforcing bucket, and every shadow bucket its verdict allows, as deciding that bucket alone
does, and touches no other key. -/
theorem storeDecide_allOrNothing (alg : Text → ID) (history : List Probe)
    (hclock : MonotoneFrom Probe.now 0 history) (huses : ∀ p ∈ history, p.Uses alg) (now : ℕ)
    (bs : List Bucket) (hguard : guardBuckets bs = .ok ())
    (halg : ∀ b ∈ bs, b.algorithm = alg b.key) :
    let m := (runs probe ∅ history).1
    let r := storeDecide now m bs
    (∀ msg, r.2 = .error msg → Indistinguishable now r.1 m) ∧
    (∀ vs, r.2 = .ok vs → admitted bs vs = false → Indistinguishable now r.1 m) ∧
    (∀ vs, r.2 = .ok vs → admitted bs vs = true →
      List.Forall₂ (ChargedAlone now m r.1) bs vs ∧
      ∀ k ∉ bs.map Bucket.key, r.1.lookup k = m.lookup k ∧ IndistinguishableAt k now r.1 m) := by
  intro m r
  have htag : Tagged alg m := tagged_runs hclock huses
  refine ⟨?_, ?_, ?_⟩
  · intro msg herr
    apply indistinguishable_of_agreeOn
    apply htag.storeDecide_agreeOn halg
    intro vs hvs
    rw [herr] at hvs
    cases hvs
  · intro vs hvs hrefused
    apply indistinguishable_of_agreeOn
    apply htag.storeDecide_agreeOn halg
    intro vs' hvs'
    rw [hvs, Except.ok.injEq] at hvs'
    exact hvs' ▸ hrefused
  · intro vs hvs hadmitted
    obtain ⟨-, hreg, rfl⟩ := storeDecide_ok hvs
    rw [admitted_answered] at hadmitted
    constructor
    · rw [List.forall₂_map_right_iff, List.forall₂_same]
      intro b hb
      exact chargedAlone_storeDecide htag (halg b hb) hguard hreg hb hadmitted
    · intro k hk
      have hlookup : r.1.lookup k = m.lookup k := lookup_storeDecide_of_not_mem hk
      exact ⟨hlookup, indistinguishableAt_of_live (live_of_lookup hlookup)⟩

theorem storeDecide_allOrNothing_spent :
    let b : Bucket := ⟨ascii "spent", .fixedWindowID, ⟨1, second, 0⟩, false, 1⟩
    let c : Bucket := ⟨ascii "beside", .gcraID, ⟨1, second, 1⟩, true, 1⟩
    let m := (runs probe ∅ [⟨5, .store (.decide [b])⟩]).1
    guardBuckets [b, c] = .ok () ∧ Indistinguishable 7 (storeDecide 7 m [b, c]).1 m := by
  intro b c m
  refine ⟨rfl, ?_⟩
  apply (storeDecide_allOrNothing (fun k => if k = ascii "spent" then .fixedWindowID else .gcraID)
    [⟨5, .store (.decide [b])⟩] (by decide) ?_ 7 [b, c] rfl ?_).2.1 _ rfl rfl
  · simp [Probe.Uses, Probe.buckets, Op.buckets, b]
  · decide

end Ratelimit.Memory
