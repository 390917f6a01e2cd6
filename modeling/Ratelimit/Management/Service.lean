import Ratelimit.Library.Executions
import Ratelimit.Management.ResetContract
import Ratelimit.Records.Fencing

/-!
# Every schedule of the replicas is a run of the store

Both contracts hold of every thread of every schedule. Where no two calls share a fencing
value, what the store executed is a run of the record protocol.
-/
namespace Ratelimit.Management

open Library Records

section Admission

variable {std : Stdlib} {c : BulkCall} {a : Admitted}

structure Admission (std : Stdlib) (a : Admitted) : Prop where
  served : a.call.served = some a.served
  idempotencyKey : idempotencyKeyOf a.call.idempotencyKey = .ok a.call.idempotencyKey
  command : ∃ request, a.call.body = .ok request ∧
    parseBulk std a.served.snapshot.domain request = .ok a.command
  normalized : unnormalized std a.served.snapshot
    (fun k => (a.command.selector.axes.lookup k).getD [])
    (capturedKeys a.served.snapshot a.command.selector.ruleIDs) (fun _ => fieldSelectorAxes) = none
  keys : a.keys = commandKeys a.scope
    (recordKey std a.scope endpointResets a.call.subject a.call.idempotencyKey) a.command

theorem parseBulk_wide {std : Stdlib} {domain : Text} {request : BulkResetRequest} {c : BulkCommand}
    (h : parseBulk std domain request = .ok c) (hwide : c.domainWide = true) :
    c.selector = .empty := by
  obtain ⟨dryRun, -, h⟩ := passed_iff.mp h
  obtain ⟨-, -, h⟩ := passed_iff.mp h
  split at h
  · split_ifs at h
    obtain ⟨selector, -, h⟩ := passed_iff.mp h
    cases h
    cases hwide
  · split_ifs at h
    cases h
    rfl

theorem servedOf_ok {domain : Text} {o : Option (Served domain)} {served : Served domain}
    (h : servedOf o = .ok served) : o = some served := by
  unfold servedOf at h
  split at h
  · rw [Except.ok.inj h]
  · cases h

theorem idempotencyKeyOf_ok {key key' : Text} (h : idempotencyKeyOf key = .ok key') : key' = key := by
  unfold idempotencyKeyOf at h
  split_ifs at h
  exact (Except.ok.inj h).symm

theorem admitBulk_ok (h : admitBulk std c = .ok a) : a.call = c ∧ Admission std a := by
  obtain ⟨served, hserved, h⟩ := passed_iff.mp h
  obtain ⟨key, hkey, h⟩ := passed_iff.mp h
  obtain ⟨request, hbody, h⟩ := passed_iff.mp h
  obtain ⟨command, hcommand, h⟩ := passed_iff.mp h
  split at h
  · cases h
  · next hnormalized =>
    obtain rfl := idempotencyKeyOf_ok hkey
    cases h
    exact ⟨rfl, servedOf_ok hserved, hkey, ⟨request, hbody, hcommand⟩, hnormalized, rfl⟩

def address (std : Stdlib) (c : ResetCall) : Except ApiError Addressing :=
  (admitReset std c).map fun admitted => ⟨c, admitted.1, admitted.2⟩

end Admission

section Contract

variable {std : Stdlib}

def Allows (std : Stdlib) : Call → Seen → Req → Prop
  | .bulk c, τ, r => ∃ a, admitBulk std c = .ok a ∧ Permits std a τ r
  | .reset c, τ, r => ∃ a, address std c = .ok a ∧ a.Permits std τ r

def Gives (std : Stdlib) : Call → Seen → Answer → Prop
  | .bulk c, τ, .bulk r =>
    (∃ e, admitBulk std c = .error e ∧ τ = [] ∧ r = .refused e) ∨
      ∃ a, admitBulk std c = .ok a ∧ Answers std a τ r
  | .reset c, τ, .reset r =>
    (∃ e, r = .refused e) ∨ ∃ a, address std c = .ok a ∧ a.Answers std τ r
  | _, _, _ => False

theorem obeys_handle (c : Call) : Obeys (Allows std c) (Gives std c) [] (handle std c) := by
  cases c with
  | bulk c =>
    refine obeys_bind.mpr ?_
    unfold handleBulkReset
    cases hadmits : admitBulk std c with
    | error e => exact Or.inl ⟨e, hadmits, rfl, rfl⟩
    | ok a =>
      refine (@obeys_resolve std a).imp (fun τ r hr => ⟨a, hadmits, hr⟩) fun τ r hr => ?_
      exact Or.inr ⟨a, hadmits, hr⟩
  | reset c =>
    refine obeys_bind.mpr ?_
    unfold handleReset
    cases hadmits : admitReset std c with
    | error e => exact Or.inl ⟨e, rfl⟩
    | ok admitted =>
      have haddress : address std c = .ok ⟨c, admitted.1, admitted.2⟩ := by
        rw [address, hadmits]
        rfl
      refine (@obeys_resolveReset std ⟨c, admitted.1, admitted.2⟩).imp
        (fun τ r hr => ⟨_, haddress, hr⟩) fun τ r hr => ?_
      exact Or.inr ⟨_, haddress, hr⟩

theorem serve_traced (std : Stdlib) (cs : Schedule) :
    Traced redis Db.empty (Allows std) (Gives std) (serve std cs) :=
  traced_steps obeys_handle Db.empty cs

end Contract

section Owners

variable {std : Stdlib} {cs : Schedule} {pre post : List Ev} {e : Entry Reply Oracle}

def fencingOf : Call → Option Text
  | .bulk c => some c.fencing
  | .reset _ => none

/-- The fencing values the calls of a schedule bring. -/
def fencings (cs : Schedule) : List Text := (spawned cs).filterMap fencingOf

abbrev Replica := Thread Call Reply Answer

def bulkOnly : Req → Bool
  | .fields _ | .holder _ | .pttl _ | .peek _ | .reset _ => false
  | _ => true

theorem bulkOnly_of_addressing {a : Addressing} {τ : Seen} {r : Req} (h : a.Permits std τ r) :
    bulkOnly r = false := by
  cases r <;> first | rfl | exact h.elim

/-- An executed request of a bulk call: who sent it, and what it had seen by then. -/
structure SentFor (std : Stdlib) (w : Replicas) (pre : List Ev) (e : Entry Reply Oracle)
    (t : Replica) (a : Admitted) (τ : Seen) : Prop where
  thread : w.threads[e.owner]? = some t
  call : t.call = .bulk a.call
  since : t.since ≤ pre.length
  sent : τ ++ [⟨e.request, if e.late then none else some e.reply⟩] <+: t.transcript
  answered : answeredCalls τ <+: served e.owner pre
  admitted : admitBulk std a.call = .ok a
  permitted : Permits std a τ e.request

theorem bulk_ran (h : (serve std cs).history = pre ++ .ran e :: post)
    (hr : bulkOnly e.request = true) : ∃ t a τ, SentFor std (serve std cs) pre e t a τ := by
  have htraced := serve_traced std cs
  obtain ⟨-, t, ht, hsince, τ, hτ, hanswered⟩ := htraced.ran pre e post h
  have hallowed := htraced.sent e.owner t ht τ _ hτ
  cases hcall : t.call with
  | bulk c =>
    rw [hcall] at hallowed
    obtain ⟨a, hadmits, hpermits⟩ := hallowed
    obtain ⟨rfl, -⟩ := admitBulk_ok hadmits
    exact ⟨t, a, τ, ht, hcall, hsince, hτ, hanswered, hadmits, hpermits⟩
  | reset c =>
    rw [hcall] at hallowed
    obtain ⟨a, -, hpermits⟩ := hallowed
    rw [bulkOnly_of_addressing hpermits] at hr
    cases hr

theorem calls_serve : (serve std cs).threads.map Thread.call = spawned cs :=
  calls_steps Db.empty cs

theorem call_spawned {i : ℕ} {t : Replica} (ht : (serve std cs).threads[i]? = some t) :
    (spawned cs)[i]? = some t.call := by
  rw [← calls_serve, List.getElem?_map, ht]
  rfl

theorem owner_of_mark {f : Call → Option Text} (hunique : ((spawned cs).filterMap f).Nodup)
    {i j : ℕ} {t t' : Replica} {z : Text} (ht : (serve std cs).threads[i]? = some t)
    (ht' : (serve std cs).threads[j]? = some t') (hz : f t.call = some z)
    (hz' : f t'.call = some z) : i = j :=
  position_unique hunique (call_spawned ht) (call_spawned ht') hz hz'

theorem owner_unique (hunique : (fencings cs).Nodup) {i j : ℕ} {t t' : Replica} {c c' : BulkCall}
    (ht : (serve std cs).threads[i]? = some t) (ht' : (serve std cs).threads[j]? = some t')
    (hc : t.call = .bulk c) (hc' : t'.call = .bulk c') (hF : c.fencing = c'.fencing) : i = j := by
  apply owner_of_mark hunique ht ht' (z := c.fencing)
  · rw [hc]
    rfl
  · rw [hc', hF]
    rfl

theorem SentFor.unique (hunique : (fencings cs).Nodup) {pre' : List Ev} {e' : Entry Reply Oracle}
    {t t' : Replica} {a a' : Admitted} {τ τ' : Seen} (h : SentFor std (serve std cs) pre e t a τ)
    (h' : SentFor std (serve std cs) pre' e' t' a' τ') (hF : a.call.fencing = a'.call.fencing) :
    e.owner = e'.owner ∧ t = t' ∧ a = a' := by
  have howner := owner_unique hunique h.thread h'.thread h.call h'.call hF
  have ht := h.thread
  rw [howner, h'.thread] at ht
  obtain rfl := Option.some.inj ht
  have hcall : a.call = a'.call := Call.bulk.inj (h.call.symm.trans h'.call)
  have hadmits := h.admitted
  rw [hcall, h'.admitted] at hadmits
  exact ⟨howner, rfl, (Except.ok.inj hadmits).symm⟩

theorem accepts_once (c : Call) (τ : Seen) (r : Req) (h : Allows std c τ r)
    (hr : isAccept r = true) : made isAccept τ = 0 := by
  cases r <;> cases hr
  cases c <;> obtain ⟨a, -, hpermits⟩ := h
  · exact hpermits.2.1
  · exact hpermits.elim

/-- The request ran for the bulk call after so much of the history. -/
def RanFor (w : Replicas) (c : BulkCall) (pre : List Ev) (r : Req) (v : Reply r) : Prop :=
  ∃ i late o post, ∃ t : Replica, w.history = pre ++ .ran ⟨i, late, o, r, v⟩ :: post ∧
    w.threads[i]? = some t ∧ t.call = .bulk c

theorem RanFor.sent {c : BulkCall} {r : Req} {v : Reply r} (h : RanFor (serve std cs) c pre r v)
    (hr : bulkOnly r = true) : ∃ i late o post t a τ, a.call = c ∧
      (serve std cs).history = pre ++ .ran ⟨i, late, o, r, v⟩ :: post ∧
      SentFor std (serve std cs) pre ⟨i, late, o, r, v⟩ t a τ := by
  obtain ⟨i, late, o, post, t, hsplit, ht, hc⟩ := h
  obtain ⟨t', a, τ, hsent⟩ := bulk_ran hsplit hr
  obtain rfl := Option.some.inj (ht.symm.trans hsent.thread)
  exact ⟨i, late, o, post, t, a, τ, Call.bulk.inj (hsent.call.symm.trans hc), hsplit, hsent⟩

end Owners

section Runs

variable {std : Stdlib} {cs : Schedule} {pre post : List Ev}

theorem recordTag_append_inj {s s' : Key.Scope} {t t' : Text}
    (h : recordTag s ++ t = recordTag s' ++ t') : s = s' ∧ t = t' := by
  simp only [recordTag, List.append_assoc, List.append_cancel_left_eq] at h
  obtain ⟨hs, htail⟩ := Key.domainTag_append_inj h
  exact ⟨hs, List.append_cancel_left htail⟩

theorem scope_of_recordKey {s s' : Key.Scope} {endpoint endpoint' subject subject' key key' : Text}
    (h : recordKey std s endpoint subject key = recordKey std s' endpoint' subject' key') : s = s' := by
  simp only [recordKey, List.append_assoc] at h
  exact (recordTag_append_inj h).1

theorem bound_earlier (h : (serve std cs).history = pre ++ post) {x : Acceptance}
    (hx : x ∈ acceptances pre) : ∃ pre' late o token t a τ i,
      .ran ⟨i, late, o, .accept x, .accepted token⟩ ∈ pre ∧ x = a.acceptance std ∧
      SentFor std (serve std cs) pre' ⟨i, late, o, .accept x, .accepted token⟩ t a τ := by
  obtain ⟨ev, hev, hm⟩ := List.mem_filterMap.mp hx
  have hbound : mark ev = .bound x := by
    cases hmark : mark ev <;> rw [hmark] at hm <;> cases hm
    rfl
  obtain ⟨i, late, o, token, rfl⟩ := mark_bound hbound
  obtain ⟨pre', mid, rfl⟩ := List.append_of_mem hev
  rw [List.append_assoc, List.cons_append] at h
  obtain ⟨t, a, τ, hsent⟩ := bulk_ran h rfl
  exact ⟨pre', late, o, token, t, a, τ, i, hev, hsent.permitted.1, hsent⟩

theorem leaseTTL_le_retention : leaseTTL ≤ retention := by decide

theorem keys_of_fencing (hunique : (fencings cs).Nodup) (h : (serve std cs).history = pre ++ post)
    {pre' : List Ev} {e : Entry Reply Oracle} {t : Replica} {a : Admitted} {τ : Seen}
    (hsent : SentFor std (serve std cs) pre' e t a τ) {keys : Keys} {F : Text}
    (hkeys : keys = a.keys) (hfencing : F = a.call.fencing) {x : Acceptance}
    (hx : x ∈ acceptances pre) (hF : x.fencing = F) :
    x.keys.record = keys.record ∧ x.keys.lease = keys.lease := by
  obtain ⟨_, late, o, token, t', a', τ', j, -, rfl, hsent'⟩ := bound_earlier h hx
  obtain ⟨-, -, rfl⟩ := hsent'.unique hunique hsent (hF.trans hfencing)
  exact ⟨congrArg Keys.record hkeys.symm, congrArg Keys.lease hkeys.symm⟩

theorem lawful_serve (hunique : (fencings cs).Nodup) {ev : Ev}
    (h : (serve std cs).history = pre ++ ev :: post) : Lawful pre (mark ev) := by
  cases hm : mark ev with
  | none => trivial
  | bound x =>
    obtain ⟨i, late, o, token, rfl⟩ := mark_bound hm
    obtain ⟨t, a, τ, hsent⟩ := bulk_ran h rfl
    obtain ⟨rfl, -⟩ : x = a.acceptance std ∧ _ := hsent.permitted
    refine ⟨a.call.fencing_ne, leaseTTL_le_retention, fun x' hx' hF => ?_⟩
    obtain ⟨_, late', o', token', t', a', τ', j, hmem, rfl, hsent'⟩ := bound_earlier h hx'
    -- two acceptances of one thread
    have howner := (hsent'.unique hunique hsent hF).1
    cases (serve_traced std cs).ran_once accepts_once h rfl hmem howner
  | advanced b =>
    obtain ⟨i, late, o, rfl⟩ := mark_advanced hm
    obtain ⟨t, a, τ, hsent⟩ := bulk_ran h rfl
    obtain ⟨hkeys, hfencing, -⟩ := hsent.permitted
    exact fun x hx => keys_of_fencing hunique h hsent hkeys hfencing hx
  | committed c =>
    obtain ⟨i, late, o, rfl⟩ := mark_committed hm
    obtain ⟨t, a, τ, hsent⟩ := bulk_ran h rfl
    obtain ⟨hkeys, hfencing, -⟩ := hsent.permitted
    exact fun x hx => keys_of_fencing hunique h hsent hkeys hfencing hx
  | finalized f =>
    obtain ⟨i, late, o, rfl⟩ := mark_finalized hm
    obtain ⟨t, a, τ, hsent⟩ := bulk_ran h rfl
    obtain ⟨hkeys, -⟩ : f.keys = a.keys ∧ _ := hsent.permitted
    intro x hx hrecord
    obtain ⟨_, late', o', token', t', a', τ', j, -, rfl, hsent'⟩ := bound_earlier h hx
    have hown := (admitBulk_ok hsent.admitted).2.keys
    have hown' := (admitBulk_ok hsent'.admitted).2.keys
    rw [hkeys] at hrecord ⊢
    change a'.keys.record = a.keys.record at hrecord
    change a'.keys.lease = a.keys.lease
    rw [hown, hown'] at hrecord ⊢
    exact congrArg leaseKey (scope_of_recordKey hrecord)

theorem genuine_serve : Genuine (serve std cs).history := by
  rintro pre ev post h
  cases ev with
  | env e => trivial
  | ran e => exact ((serve_traced std cs).ran pre e post h).1

theorem serve_run (hunique : (fencings cs).Nodup) (h : (serve std cs).history = pre ++ post) :
    Run pre := by
  induction pre using List.reverseRecOn generalizing post with
  | nil => exact .start
  | append_singleton pre ev ih =>
    rw [List.append_assoc, List.singleton_append] at h
    exact .step (ih h) (lawful_serve hunique h) (genuine_serve pre ev post h)

end Runs

end Ratelimit.Management
