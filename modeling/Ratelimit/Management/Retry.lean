import Ratelimit.Management.AtMostOnce

/-!
# When a retry of a finished command is answered from its record

The checks in front of the record depend on the rule set enforced now in one place: a retry
whose values the domain lowercases by now is refused before its record is read; any other is
answered from the record.
-/
namespace Ratelimit.Management

open Library Records Compile

/-- The second call asks for the command of the first. -/
structure SameCommand (c₀ c : BulkCall) : Prop where
  scope : c.scope = c₀.scope
  subject : c.subject = c₀.subject
  idempotencyKey : c.idempotencyKey = c₀.idempotencyKey
  body : c.body = c₀.body

/-- The values of a selection are in the normal form of a rule set. -/
def Normalized (std : Stdlib) (snapshot : Snapshot) (s : Selector) : Prop :=
  ∀ e ∈ snapshot.extraction, e.normalization = .lowercase →
    e.key ∉ capturedKeys snapshot s.ruleIDs →
    ∀ value ∈ (s.axes.lookup e.key).getD [], std.toLower value = value

section Checks

variable {std : Stdlib} {snapshot : Snapshot} {values : Text → List Text} {captured : List Text}
  {field : Text → Text}

theorem unnormalized_eq_none_iff : unnormalized std snapshot values captured field = none ↔
    ∀ e ∈ snapshot.extraction, e.normalization = .lowercase → e.key ∉ captured →
      ∀ value ∈ values e.key, std.toLower value = value := by
  unfold unnormalized
  rw [List.findSome?_eq_none_iff]
  refine forall₂_congr fun e _ => ?_
  by_cases hlower : e.normalization = .lowercase
  · by_cases hcaptured : e.key ∈ captured
    · simp [hcaptured]
    · simp [hlower, hcaptured, List.findSome?_eq_none_iff]
  · simp [hlower]

theorem normalized_iff {s : Selector} : Normalized std snapshot s ↔
    unnormalized std snapshot (fun k => (s.axes.lookup k).getD [])
      (capturedKeys snapshot s.ruleIDs) (fun _ => fieldSelectorAxes) = none := by
  rw [unnormalized_eq_none_iff]
  rfl

theorem code_of_unnormalized {e : ApiError}
    (h : unnormalized std snapshot values captured field = some e) : e.code = .invalidRequest := by
  obtain ⟨extraction, -, h⟩ := List.exists_of_findSome?_eq_some h
  split_ifs at h
  obtain ⟨value, -, h⟩ := List.exists_of_findSome?_eq_some h
  split_ifs at h
  obtain rfl := Option.some.inj h
  rfl

theorem replay_ne_invalid {outcome : Outcome} {domain : Text} {c : BulkCommand} {e : ApiError}
    (he : e.code = .invalidRequest) : replay outcome domain c ≠ .refused e := by
  intro h
  unfold replay at h
  by_cases hdone : outcome.failed = false
  · rw [if_pos hdone] at h
    cases h
  · rw [if_neg hdone] at h
    have hcode := congrArg ApiError.code (Response.refused.inj h)
    rw [he] at hcode
    by_cases hlimit : outcome.code = Code.workLimit.text <;> simp [hlimit, replayOf, errorf] at hcode

end Checks

section Retries

variable {std : Stdlib} {c₀ c : BulkCall} {a₀ : Admitted} {served : Served c.scope.domain}

/-- The checks in front of the record, at a retry: only the normalization can refuse
what was admitted before. -/
theorem admitBulk_retry (hadmits : admitBulk std c₀ = .ok a₀) (hsame : SameCommand c₀ c)
    (hserved : c.served = some served) :
    admitBulk std c = match unnormalized std served.snapshot
        (fun k => (a₀.command.selector.axes.lookup k).getD [])
        (capturedKeys served.snapshot a₀.command.selector.ruleIDs) (fun _ => fieldSelectorAxes) with
      | some e => .error e
      | none => .ok ⟨c, served, a₀.command, a₀.keys⟩ := by
  obtain ⟨rfl, hadmission⟩ := admitBulk_ok hadmits
  obtain ⟨request, hbody, hparse⟩ := hadmission.command
  have hdomain : served.snapshot.domain = a₀.served.snapshot.domain := by
    rw [served.domain_eq, a₀.served.domain_eq, hsame.scope]
  have hkeys : commandKeys c.scope (recordKey std c.scope endpointResets c.subject c.idempotencyKey)
      a₀.command = a₀.keys := by
    rw [hadmission.keys, hsame.scope, hsame.subject, hsame.idempotencyKey]
    rfl
  unfold admitBulk
  rw [hserved, hsame.idempotencyKey, hadmission.idempotencyKey, hsame.body, hbody]
  simp only [servedOf, bind, Except.bind, hdomain, hparse]
  cases unnormalized std served.snapshot (fun k => (a₀.command.selector.axes.lookup k).getD [])
    (capturedKeys served.snapshot a₀.command.selector.ruleIDs) (fun _ => fieldSelectorAxes) with
  | some e => rfl
  | none =>
    rw [← hkeys, hsame.idempotencyKey]
    rfl

variable {cs : Schedule}

/-- A retry of a finished command answers the recorded outcome, or could not read it,
exactly when the values it selects are in the normal form of the rule set enforced
at the retry. -/
theorem retry_replayed_iff {pre mid : List Ev} {f : Fields} {outcome : Outcome} {i : ℕ}
    {t : Replica} {r : Response BulkResult} (hadmits : admitBulk std c₀ = .ok a₀)
    (hsame : SameCommand c₀ c) (hserved : c.served = some served)
    (h : (serve std cs).history = pre ++ mid) (ht : (serve std cs).threads[i]? = some t)
    (hcall : t.call = .bulk c) (hsince : pre.length ≤ t.since)
    (hkept : ∀ q, q <+: mid → (after (pre ++ q)).fields a₀.keys.record = some f)
    (hcommand : f.command = some (a₀.hash std)) (hterminal : f.terminal = true)
    (houtcome : f.outcome = some outcome) (hrest : t.rest = .done (.bulk r)) :
    (r = replay outcome a₀.domain a₀.command ∨
        r = .refused notAccepted ∧ ∃ x ∈ t.transcript, x.2.isNone = true) ↔
      Normalized std served.snapshot a₀.command.selector := by
  have hadmits' := admitBulk_retry hadmits hsame hserved
  rw [normalized_iff]
  cases hchecked : unnormalized std served.snapshot
      (fun k => (a₀.command.selector.axes.lookup k).getD [])
      (capturedKeys served.snapshot a₀.command.selector.ruleIDs) (fun _ => fieldSelectorAxes) with
  | some e =>
    rw [hchecked] at hadmits'
    have hgives := (serve_traced std cs).obeys i t ht
    rw [hrest, hcall] at hgives
    rcases hgives with ⟨e', herror, hnothing, rfl⟩ | ⟨a, hok, -⟩
    · obtain rfl := Except.error.inj (hadmits'.symm.trans herror)
      constructor
      · rintro (heq | ⟨-, x, hx, -⟩)
        · exact absurd heq.symm (replay_ne_invalid (code_of_unnormalized hchecked))
        · rw [hnothing] at hx
          cases hx
      · intro hnone
        cases hnone
    · cases hadmits'.symm.trans hok
  | none =>
    rw [hchecked] at hadmits'
    have hdomain : a₀.domain = c.scope.domain := by
      rw [Admitted.domain, (admitBulk_ok hadmits).1, hsame.scope]
    refine ⟨fun _ => rfl, fun _ => ?_⟩
    rw [Admitted.hash, hdomain] at hcommand
    rw [hdomain]
    refine answer_of_ended ht hcall hadmits' (fun v hv => ?_) hcommand hterminal houtcome hrest
    obtain ⟨q, hq, rfl⟩ := read_during h ht hsince hv
    exact hkept q hq

def tenantPreview (tenant : Text) : BulkCommand :=
  ⟨⟨[], [], 0, Finmap.singleton (ascii "tenant") [tenant], false⟩, false, true, []⟩

def previewedShop : Admitted where
  call := previewTenant (ascii "acme") (ascii "k-1") 0
  served := tenantShop
  command := tenantPreview (ascii "acme")
  keys := commandKeys shopScope
    (recordKey sampleStdlib shopScope endpointResets (ascii "alice") (ascii "k-1"))
    (tenantPreview (ascii "acme"))

theorem previewedShop_admitted : admitBulk sampleStdlib previewedShop.call = .ok previewedShop := by
  have hcommand : ((admitBulk sampleStdlib previewedShop.call).toOption.map Admitted.command) =
      some previewedShop.command := by
    decide +kernel
  cases hok : admitBulk sampleStdlib previewedShop.call with
  | error e =>
    rw [hok] at hcommand
    cases hcommand
  | ok a =>
    rw [hok] at hcommand
    obtain ⟨hcall, hadmission⟩ := admitBulk_ok hok
    obtain ⟨call, served, command, keys⟩ := a
    obtain rfl : call = previewedShop.call := hcall
    obtain rfl : previewedShop.command = command := (Option.some.inj hcommand).symm
    obtain rfl : tenantShop = served := Option.some.inj hadmission.served
    rw [show keys = previewedShop.keys from hadmission.keys]
    rfl

def recordedPreview : Outcome :=
  { Outcome.zero with
    token := ascii "ct-0123456789ab", tokenExpiresAt := some (confirmationTTL * millisecond) }

def previewedFields : Fields :=
  ⟨some (previewedShop.hash sampleStdlib), some (ascii "1f"), none, some recordedPreview, true, none,
    none⟩

theorem retriedPreview_length : 1 < (serve sampleStdlib retriedPreview).threads.length := by
  decide +kernel

def retrying : Replica :=
  (serve sampleStdlib retriedPreview).threads.get ⟨1, retriedPreview_length⟩

theorem retry_replayed_unchanged :
    retrying.rest = .done (.bulk (replay recordedPreview (ascii "shop") previewedShop.command)) ∧
      Normalized sampleStdlib tenantShop.snapshot previewedShop.command.selector := by
  have ht : (serve sampleStdlib retriedPreview).threads[1]? = some retrying :=
    List.getElem?_eq_getElem retriedPreview_length
  have hkept : ∀ q ∈ ((serve sampleStdlib retriedPreview).history.drop 10).inits,
      (after ((serve sampleStdlib retriedPreview).history.take 10 ++ q)).fields
        previewedShop.keys.record = some previewedFields := by
    decide +kernel
  have hrest : retrying.rest =
      .done (.bulk (replay recordedPreview (ascii "shop") previewedShop.command)) :=
    Prog.result_eq_some.mp (by decide +kernel)
  have hcall : some retrying.call = some (.bulk (previewTenant (ascii "acme") (ascii "k-1") 1)) :=
    (call_spawned ht).symm
  have hiff := @retry_replayed_iff sampleStdlib previewedShop.call
    (previewTenant (ascii "acme") (ascii "k-1") 1) previewedShop tenantShop retriedPreview
    _ _ previewedFields recordedPreview 1 retrying _ previewedShop_admitted ⟨rfl, rfl, rfl, rfl⟩ rfl
    (List.take_append_drop 10 _).symm ht (Option.some.inj hcall) (by decide +kernel)
    (fun q hq => hkept q ((List.mem_inits q _).mpr hq)) rfl rfl rfl hrest
  exact ⟨hrest, hiff.mp (Or.inl rfl)⟩

def renormalizedPreview : Schedule :=
  .spawn (.bulk (shopCall (policyShop (tenantPolicy .unset [ascii "tenant"]) (ascii "v1"))
    (resetTenant (ascii "Acme") (some true) []) (ascii "k-1") 0)) :: turns 0 10 idle ++
    [.spawn (.bulk (shopCall (policyShop (tenantPolicy .lowercase [ascii "tenant"]) (ascii "v2"))
      (resetTenant (ascii "Acme") (some true) []) (ascii "k-1") 1))]

/-- The later rule set has no problem, the record holds a terminal outcome, and the
retry is refused. -/
theorem retry_replayed_renormalized :
    let w := serve sampleStdlib renormalizedPreview
    (compileShop (tenantPolicy .lowercase [ascii "tenant"])).2 = [] ∧
      ((after w.history).fields previewedShop.keys.record).map (fun f => (f.terminal, f.outcome)) =
        some (true, some recordedPreview) ∧
      w.threads.map (fun t => t.rest.result) =
        [some (.bulk (replay recordedPreview (ascii "shop") (tenantPreview (ascii "Acme")))),
          some (.bulk (.refused (invalid
            ⟨"the %s value %q addresses no counter and no identity a request carries: the domain lowercases %s, so use %q",
              [.text (ascii "tenant"), .text (ascii "Acme"), .text (ascii "tenant"),
                .text (ascii "acme")]⟩
            [fieldSelectorAxes])))] := by
  decide +kernel

end Retries

end Ratelimit.Management
