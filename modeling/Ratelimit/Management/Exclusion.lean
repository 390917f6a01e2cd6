import Ratelimit.Management.Service

/-!
# Sweeps of one domain exclude each other

Every batch that takes effect does so between its own command's acceptance and the next one of
the domain. The instants at which two commands delete are therefore apart, and a batch that
arrives after its command lost the lease changes nothing.
-/
namespace Ratelimit.Management

open Library Records

structure SweepsExclude (w : Replicas) : Prop where
  within : ∀ c pre b, RanFor w c pre (.batch b) .ok →
    (after pre).holder (leaseKey c.scope) = some c.fencing ∧
    ∃ pre₀ x token, RanFor w c pre₀ (.accept x) (.accepted token) ∧ pre₀.length < pre.length ∧
      ∀ c' pre' x' token', c'.scope = c.scope →
        RanFor w c' pre' (.accept x') (.accepted token') →
        pre'.length ≤ pre₀.length ∨ pre.length ≤ pre'.length
  apart : ∀ c c' pre₁ pre₂ pre₃ b₁ b₂ b₃, c'.scope = c.scope → c'.fencing ≠ c.fencing →
    RanFor w c pre₁ (.batch b₁) .ok → RanFor w c' pre₂ (.batch b₂) .ok →
    RanFor w c pre₃ (.batch b₃) .ok → ¬ (pre₁.length < pre₂.length ∧ pre₂.length < pre₃.length)
  late : ∀ c pre₀ x token pre₁ pre b v, RanFor w c pre₀ (.accept x) (.accepted token) →
    pre₀.length < pre₁.length → pre₁ <+: pre →
    (after pre₁).holder (leaseKey c.scope) ≠ some c.fencing → RanFor w c pre (.batch b) v →
    v = .lost ∧ (batchScript (after pre) b).1 = after pre

section Batches

variable {std : Stdlib} {cs : Schedule} {c : BulkCall} {pre : List Ev}

theorem lease_of_admitted {a : Admitted} (h : admitBulk std a.call = .ok a) :
    a.keys.lease = leaseKey a.call.scope := by
  rw [(admitBulk_ok h).2.keys]
  rfl

theorem RanFor.acceptance {x : Acceptance} {v : AcceptVerdict}
    (h : RanFor (serve std cs) c pre (.accept x) v) :
    x.fencing = c.fencing ∧ x.keys.lease = leaseKey c.scope := by
  obtain ⟨i, late, o, post, t, a, τ, rfl, -, hsent⟩ := h.sent rfl
  obtain ⟨rfl, -⟩ : x = a.acceptance std ∧ _ := hsent.permitted
  exact ⟨rfl, lease_of_admitted hsent.admitted⟩

theorem RanFor.batch {b : Batch} {v : WriteVerdict} (h : RanFor (serve std cs) c pre (.batch b) v) :
    b.fencing = c.fencing ∧ b.keys.lease = leaseKey c.scope := by
  obtain ⟨i, late, o, post, t, a, τ, rfl, -, hsent⟩ := h.sent rfl
  obtain ⟨hkeys, hfencing, -⟩ := hsent.permitted
  exact ⟨hfencing, by rw [hkeys, lease_of_admitted hsent.admitted]⟩

theorem batch_within (hunique : (fencings cs).Nodup) {b : Batch}
    (h : RanFor (serve std cs) c pre (.batch b) .ok) :
    (after pre).holder (leaseKey c.scope) = some c.fencing ∧
    ∃ pre₀ x token, RanFor (serve std cs) c pre₀ (.accept x) (.accepted token) ∧
      pre₀.length < pre.length ∧ ∀ c' pre' x' token', c'.scope = c.scope →
        RanFor (serve std cs) c' pre' (.accept x') (.accepted token') →
        pre'.length ≤ pre₀.length ∨ pre.length ≤ pre'.length := by
  obtain ⟨hfencing, hlease⟩ := h.batch
  obtain ⟨i, late, o, post, t, a, τ, rfl, hsplit, hsent⟩ := h.sent rfl
  obtain ⟨hheld, x, hclaim, hF⟩ :=
    (serve_run hunique (hsplit.trans (List.append_cons ..))).claim_of_advanced rfl
  rw [hlease, hfencing] at hheld
  obtain ⟨p, ev, q, rfl, hbound, hq⟩ := split_of_lastClaim hclaim
  obtain ⟨j, late', o', token, rfl⟩ := mark_bound hbound
  rw [List.append_assoc, List.cons_append] at hsplit
  obtain ⟨t', a', τ', hsent'⟩ := bulk_ran hsplit rfl
  obtain ⟨rfl, -⟩ : x = a'.acceptance std ∧ _ := hsent'.permitted
  obtain ⟨-, rfl, rfl⟩ := hsent'.unique hunique hsent (hF.trans hfencing)
  refine ⟨hheld, p, _, token, ⟨j, late', o', _, t', hsplit, hsent'.thread, hsent'.call⟩, by simp, ?_⟩
  intro c' pre' x' token' hscope h'
  by_contra hbetween
  obtain ⟨hafter, hbefore⟩ := not_or.mp hbetween
  have hx' := h'.acceptance
  obtain ⟨k, late'', o'', post', t'', hsplit', -, -⟩ := h'
  have hmem := mem_between (hsplit.symm.trans hsplit') (not_le.mp hafter) (by
    rw [List.length_append, List.length_cons] at hbefore
    omega)
  exact hq _ hmem ⟨x', rfl, by rw [hx'.2, hscope, hlease]⟩

theorem accepted_once (hunique : (fencings cs).Nodup) {c' : BulkCall} {pre' : List Ev}
    {x x' : Acceptance} {v v' : AcceptVerdict} (h : RanFor (serve std cs) c pre (.accept x) v)
    (h' : RanFor (serve std cs) c' pre' (.accept x') v') (hF : c.fencing = c'.fencing) :
    pre = pre' := by
  obtain ⟨i, late, o, post, t, a, τ, rfl, hsplit, hsent⟩ := h.sent rfl
  obtain ⟨i', late', o', post', t', a', τ', rfl, hsplit', hsent'⟩ := h'.sent rfl
  obtain ⟨howner, -⟩ := hsent.unique hunique hsent' hF
  exact ((serve_traced std cs).ran_unique accepts_once hsplit hsplit' rfl rfl howner).1

theorem batches_apart (hunique : (fencings cs).Nodup) {c' : BulkCall} {pre₁ pre₂ pre₃ : List Ev}
    {b₁ b₂ b₃ : Batch} (hscope : c'.scope = c.scope) (hF : c'.fencing ≠ c.fencing)
    (h₁ : RanFor (serve std cs) c pre₁ (.batch b₁) .ok)
    (h₂ : RanFor (serve std cs) c' pre₂ (.batch b₂) .ok)
    (h₃ : RanFor (serve std cs) c pre₃ (.batch b₃) .ok) :
    ¬ (pre₁.length < pre₂.length ∧ pre₂.length < pre₃.length) := by
  rintro ⟨hlt₁, hlt₂⟩
  obtain ⟨-, p, x, token, hp, hp₁, -⟩ := batch_within hunique h₁
  obtain ⟨-, p', x', token', hp', hp₂, hnone'⟩ := batch_within hunique h₂
  obtain ⟨-, p'', x'', token'', hp'', hp₃, hnone⟩ := batch_within hunique h₃
  -- both batches of `c` have the one acceptance, before the batch of `c'`
  obtain rfl := accepted_once hunique hp hp'' rfl
  have hwithin := hnone c' p' x' token' hscope hp'
  have hwithin' := hnone' c p x token hscope.symm hp
  have heq : p.length = p'.length := by omega
  obtain ⟨i, late, o, post, t, hsplit, -, -⟩ := id hp
  obtain ⟨i', late', o', post', t', hsplit', -, -⟩ := id hp'
  have hev := (List.append_inj (hsplit.symm.trans hsplit') heq).2
  cases hev
  exact hF (hp'.acceptance.1.symm.trans hp.acceptance.1)

theorem batch_late (hunique : (fencings cs).Nodup) {pre₀ pre₁ : List Ev} {x : Acceptance}
    {token : Option TokenDocument} {b : Batch} {v : WriteVerdict}
    (h₀ : RanFor (serve std cs) c pre₀ (.accept x) (.accepted token))
    (hlt : pre₀.length < pre₁.length) (hle : pre₁ <+: pre)
    (hlost : (after pre₁).holder (leaseKey c.scope) ≠ some c.fencing)
    (h : RanFor (serve std cs) c pre (.batch b) v) :
    v = .lost ∧ (batchScript (after pre) b).1 = after pre := by
  have hfencing := h.batch.1
  obtain ⟨hF, hlease⟩ := h₀.acceptance
  obtain ⟨i₀, late₀, o₀, post₀, t₀, hsplit₀, -, -⟩ := h₀
  obtain ⟨i, late, o, post, t, hsplit, -, -⟩ := h
  have hreply := ((serve_traced std cs).ran _ _ _ hsplit).1
  have hrun := serve_run hunique hsplit
  obtain ⟨mid, rfl⟩ := hle
  have hmem : x ∈ acceptances pre₁ := by
    rw [hsplit, List.append_assoc] at hsplit₀
    exact List.mem_filterMap.mpr
      ⟨_, (prefix_of_lt hsplit₀.symm hlt).subset (List.mem_append_right _ (List.mem_singleton_self _)), rfl⟩
  rw [← hlease, ← hF] at hlost
  have hdead := hrun.dead_append (hrun.of_append.dead_of_lost hmem hlost)
  have hnothing := batchScript_of_dead hdead (hfencing.trans hF.symm)
  exact ⟨hreply.trans (congrArg Prod.snd hnothing), congrArg Prod.fst hnothing⟩

end Batches

/-- Whatever the replicas do, the sweeps of one domain exclude each other, as long
as no two calls share a fencing value. -/
theorem sweeps_exclude (std : Stdlib) (cs : Schedule) (hunique : (fencings cs).Nodup) :
    SweepsExclude (serve std cs) := by
  constructor
  · intro c pre b h
    exact batch_within hunique h
  · intro c c' pre₁ pre₂ pre₃ b₁ b₂ b₃ hscope hF h₁ h₂ h₃
    exact batches_apart hunique hscope hF h₁ h₂ h₃
  · intro c pre₀ x token pre₁ pre b v h₀ hlt hle hlost h
    exact batch_late hunique h₀ hlt hle hlost h

theorem sweeps_exclude_rivals :
    (fencings tenantsDeleted).Nodup ∧ (serve sampleStdlib tenantsDeleted).history.length = 48 ∧
      SweepsExclude (serve sampleStdlib tenantsDeleted) :=
  ⟨by decide +kernel, by decide +kernel, sweeps_exclude _ _ (by decide +kernel)⟩

end Ratelimit.Management
