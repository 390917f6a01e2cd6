import Ratelimit.Management.Service

/-!
# A bulk command runs at most once and ends in one outcome

Replicas serve calls in any order, requests fail and may still be executed later, leases and
records expire. While the record of a command is retained, one acceptance has bound it, a
terminal outcome stays, and a command that has ended or lost its lease changes nothing.
-/
namespace Ratelimit.Management

open Library Records

structure RunsOnce (std : Stdlib) (w : Replicas) : Prop where
  binds_once : ∀ pre ev mid ev' post x x', w.history = pre ++ ev :: (mid ++ ev' :: post) →
    mark ev = .bound x → mark ev' = .bound x' → x'.keys.record = x.keys.record →
    ¬ RetainedThrough x.keys.record (pre ++ [ev]) mid
  outcome_stays : ∀ k pre mid post f, w.history = pre ++ mid ++ post →
    (after pre).fields k = some f → f.terminal = true → RetainedThrough k pre mid →
    (after (pre ++ mid)).fields k = some f
  batch_lost : ∀ pre mid post i late o b v,
    w.history = pre ++ mid ++ .ran ⟨i, late, o, .batch b, v⟩ :: post → Ended b.fencing pre →
    v = .lost ∧ (exec (after (pre ++ mid)) (.batch b) o).1 = after (pre ++ mid)
  commit_lost : ∀ pre mid post i late o c v,
    w.history = pre ++ mid ++ .ran ⟨i, late, o, .commit c, v⟩ :: post → Ended c.fencing pre →
    v = .lost ∧ (exec (after (pre ++ mid)) (.commit c) o).1 = after (pre ++ mid)
  /-- A call that started with the outcome recorded either fails to read the record
  or answers that outcome. -/
  retried : ∀ pre mid f outcome (i : ℕ) (t : Replica) c a r, w.history = pre ++ mid →
    w.threads[i]? = some t → pre.length ≤ t.since → t.call = .bulk c → admitBulk std c = .ok a →
    (after pre).fields a.keys.record = some f → f.command = some (a.hash std) →
    f.terminal = true → f.outcome = some outcome → RetainedThrough a.keys.record pre mid →
    t.rest = .done (.bulk r) →
    r = replay outcome a.domain a.command ∨
      r = .refused notAccepted ∧ ∃ x ∈ t.transcript, x.2.isNone = true

section Retry

variable {std : Stdlib} {cs : Schedule}

theorem failed_of_looked_none {fields : Option (Option Fields)} {holder : Option (Option Text)}
    {ttl : Option ℤ} (h : looked fields holder ttl = none) :
    fields.isNone = true ∨ holder.isNone = true ∨ ttl.isNone = true := by
  cases fields with
  | none => exact Or.inl rfl
  | some fields =>
    cases holder with
    | none => exact Or.inr (Or.inl rfl)
    | some holder =>
      cases ttl with
      | none => exact Or.inr (Or.inr rfl)
      | some ttl => cases holder <;> cases h

/-- A call that started after `pre` reads the record as it is at some later instant. -/
theorem read_during {pre mid : List Ev} {k : Text} {i : ℕ} {t : Replica}
    (h : (serve std cs).history = pre ++ mid) (ht : (serve std cs).threads[i]? = some t)
    (hsince : pre.length ≤ t.since) {v : Option Fields} (hv : ⟨.fields k, some v⟩ ∈ t.transcript) :
    ∃ q, q <+: mid ∧ v = (after (pre ++ q)).fields k := by
  obtain ⟨p, o, post, hsplit, hp, hreply⟩ := (serve_traced std cs).executed_of_mem ht hv
  have hle : pre <+: (serve std cs).history := ⟨mid, h.symm⟩
  obtain ⟨q, rfl⟩ := List.prefix_of_prefix_length_le hle ⟨_, hsplit.symm⟩ (hsince.trans hp)
  rw [hsplit, List.append_assoc] at h
  exact ⟨q, ⟨_, List.append_cancel_left h⟩, hreply⟩

/-- A call that can only read an ended record answers its outcome. -/
theorem answer_of_ended {f : Fields} {outcome : Outcome} {i : ℕ} {t : Replica} {c : BulkCall}
    {a : Admitted} {r : Response BulkResult} (ht : (serve std cs).threads[i]? = some t)
    (hcall : t.call = .bulk c) (hadmits : admitBulk std c = .ok a)
    (hread : ∀ v, ⟨.fields a.keys.record, some v⟩ ∈ t.transcript → v = some f)
    (hcommand : f.command = some (a.hash std)) (hterminal : f.terminal = true)
    (houtcome : f.outcome = some outcome) (hrest : t.rest = .done (.bulk r)) :
    r = replay outcome a.domain a.command ∨
      r = .refused notAccepted ∧ ∃ x ∈ t.transcript, x.2.isNone = true := by
  have hgives := (serve_traced std cs).obeys i t ht
  rw [hrest, hcall] at hgives
  rcases hgives with ⟨e, herror, -⟩ | ⟨a', hadmits', -, fields, holder, ttl, hlooks, hnone, hended⟩
  · rw [hadmits] at herror
    cases herror
  obtain rfl := Except.ok.inj (hadmits.symm.trans hadmits')
  have hmem : ∀ x ∈ looks a [] fields holder ttl, x ∈ t.transcript := fun x hx => hlooks.subset hx
  cases hlooked : looked fields holder ttl with
  | none =>
    refine Or.inr ⟨hnone hlooked, ?_⟩
    rcases failed_of_looked_none hlooked with hfailed | hfailed | hfailed
    · exact ⟨_, hmem ⟨.fields a.keys.record, fields⟩ (by simp [looks]), hfailed⟩
    · exact ⟨_, hmem ⟨.holder a.keys.lease, holder⟩ (by simp [looks]), hfailed⟩
    · exact ⟨_, hmem ⟨.pttl a.keys.lease, ttl⟩ (by simp [looks]), hfailed⟩
  | some record =>
    left
    cases fields with
    | none => cases hlooked
    | some v =>
      obtain rfl := hread v (hmem ⟨.fields a.keys.record, some v⟩ (by simp [looks]))
      cases holder with
      | none => cases hlooked
      | some holder =>
        obtain ⟨_, _, rfl⟩ := withLease_eq hlooked
        rw [hended _ hlooked rfl (by simp [recordOf, hcommand]) hterminal]
        simp [recordOf, houtcome]

end Retry

/-- Whatever the replicas do, a bulk command runs at most once and ends in one
outcome, as long as no two calls share a fencing value. -/
theorem bulk_runs_once (std : Stdlib) (cs : Schedule) (hunique : (fencings cs).Nodup) :
    RunsOnce std (serve std cs) := by
  constructor
  · intro pre ev mid ev' post x x' h hbound hbound' hrecord hkept
    have hsplit : (serve std cs).history = (pre ++ ev :: mid) ++ [ev'] ++ post := by
      rw [h]
      simp
    have hgone := (serve_run hunique hsplit).absent_of_bound hbound'
    have hthere := hkept mid List.prefix_rfl
    rw [hrecord] at hgone
    rw [List.append_assoc, List.singleton_append, hgone] at hthere
    cases hthere
  · intro k pre mid post f h hf hterminal hkept
    exact (serve_run hunique h).fields_kept hf hterminal hkept
  · intro pre mid post i late o b v h hended
    have hreply := ((serve_traced std cs).ran _ _ _ h).1
    have hrun := serve_run hunique h
    have hdead := hrun.dead_append (hrun.of_append.dead_of_ended hended)
    have hlost := batchScript_of_dead hdead rfl
    exact ⟨hreply.trans (congrArg Prod.snd hlost), congrArg Prod.fst hlost⟩
  · intro pre mid post i late o c v h hended
    have hreply := ((serve_traced std cs).ran _ _ _ h).1
    have hrun := serve_run hunique h
    have hdead := hrun.dead_append (hrun.of_append.dead_of_ended hended)
    have hlost := commitScript_of_dead hdead rfl
    exact ⟨hreply.trans (congrArg Prod.snd hlost), congrArg Prod.fst hlost⟩
  · intro pre mid f outcome i t c a r h ht hsince hcall hadmits hf hcommand hterminal houtcome hkept
    apply answer_of_ended ht hcall hadmits _ hcommand hterminal houtcome
    intro v hv
    obtain ⟨q, hq, rfl⟩ := read_during h ht hsince hv
    obtain ⟨rest, rfl⟩ := hq
    rw [← List.append_assoc] at h
    exact (serve_run hunique h).fields_kept hf hterminal hkept.of_append

theorem bulk_runs_once_retried :
    (fencings retriedPreview).Nodup ∧ (serve sampleStdlib retriedPreview).history.length = 13 ∧
      RunsOnce sampleStdlib (serve sampleStdlib retriedPreview) :=
  ⟨by decide +kernel, by decide +kernel, bulk_runs_once _ _ (by decide +kernel)⟩

end Ratelimit.Management
