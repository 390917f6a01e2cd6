import Ratelimit.Management.LimitedSweep
import Ratelimit.Management.ResetFrame

/-!
# A key that a scan returns twice

The walk of a store may return a key again. The candidates of a page, or of a batch
under the limited filter, are judged by one peek, and a peek refuses a key it is
given twice.
-/
namespace Ratelimit.Management

open Library Records Store

section Harmless

/-- A page comes out with every counter on it once exactly where no admitted key of its steps is
repeated, and a limited sweep completes exactly where no key is repeated within a batch. -/
theorem repeated_keys_harmless_iff (std : Stdlib) {S T : Type}
    {ask : S → (r : CounterReq) → S × Option (CounterReply r)}
    {answer : T → (r : Req) → T × Option (Reply r)} {left : T → ℕ} (hask : AnswersListing ask)
    (hanswer : AnswersSweep answer left) (s : S) (t : T) (l : Listing) (start : Text) (now : ℤ)
    (a : Admitted) (p q : Option Model.Policy)
    (hl : l.snapshot = (Compile.compile l.scope.namespaceName l.scope.domain p).1)
    (ha : a.served.snapshot = (Compile.compile a.scope.namespaceName a.scope.domain q).1)
    (hlimited : a.command.selector.limitedOnly = true) (hfuel : left t < a.call.fuel) :
    (∃ s' τ r, (listCounters std l start now).against ask s = (s', τ, some r) ∧
      (ListsOnce r ↔ (((keysIn τ).filterMap l.admits).map EnforcedCandidate.key).Nodup)) ∧
    ∃ t' τ r, (sweep std a).against answer t = (t', τ, some r) ∧
      (Completes τ ↔ BatchesDiffer (candidateKeys a.sweep (pagesIn τ))) := by
  constructor
  · have hsound : l.snapshot.Sound l.scope := hl ▸ Compile.compile_sound_in l.scope p
    refine yields_iff.mp ((listCounters_yields std hask hsound start now).mono ?_)
    rintro s' τ r ⟨page, hrun⟩
    exact hrun.candidates ▸ hrun.once_iff
  · refine yields_iff.mp (sweep_yields hanswer ?_ hlimited hfuel)
    rw [ha]
    exact Compile.compile_sound_in a.scope q

open Memory

def listsKeys (keys : List Text) (m : Entries) :
    (r : CounterReq) → Entries × Option (CounterReply r)
  | .scan _ _ _ => (m, some (.page keys []))
  | .peek buckets =>
    let peeked := storePeek 0 m buckets
    (peeked.1, some peeked.2)

/-- The same store as a sweep sees it, with the record of an accepted command. -/
def sweepsKeys (keys : List Text) (m : Entries) : (r : Req) → Entries × Option (Reply r)
  | .clock => (m, some (0 : ℤ))
  | .scan _ _ _ => (m, some (keys, []))
  | .peek buckets =>
    let peeked := storePeek 0 m buckets
    (peeked.1, some peeked.2)
  | .batch b => (storeReset m b.delete, some .ok)
  | .put _ _ _ => (m, some ())
  | .commit _ => (m, some .ok)
  | .fields _ => (m, some (some Fields.empty))
  | .holder _ => (m, some none)
  | _ => (m, none)

theorem listsKeys_answers (keys : List Text) : AnswersListing (listsKeys keys) where
  scan _ _ _ _ _ := ⟨keys, [], rfl⟩
  peek m buckets := judged_storePeek 0 m buckets

theorem sweepsKeys_answers (keys : List Text) : AnswersSweep (sweepsKeys keys) fun _ => 0 where
  clock _ := ⟨0, rfl⟩
  timely _ _ t t' ht ht' := by
    obtain rfl := Option.some.inj ht
    obtain rfl := Option.some.inj ht'
    decide
  scan _ _ _ _ := ⟨keys, [], rfl, fun hnext => absurd rfl hnext⟩
  peek m buckets := judged_storePeek 0 m buckets
  batch _ _ := rfl
  put _ _ _ _ := rfl
  commit _ _ := rfl
  keeps _ _ := le_rfl

def listedPolicy : Model.Policy := tenantPolicy .unset []

def ordersListing : Listing :=
  ⟨shopScope, (policyShop listedPolicy (ascii "v1")).snapshot, .empty, 100⟩

def limitedPreview : Admitted where
  call := shopCall (policyShop listedPolicy (ascii "v1"))
    ⟨some ⟨[], [], [], ∅, some true⟩, [], some true, []⟩ (ascii "k-1") 0
  served := policyShop listedPolicy (ascii "v1")
  command := ⟨{ Selector.empty with limitedOnly := true }, false, true, []⟩
  keys := commandKeys shopScope
    (recordKey sampleStdlib shopScope endpointResets (ascii "alice") (ascii "k-1"))
    ⟨{ Selector.empty with limitedOnly := true }, false, true, []⟩

def spentCounter : Entries := Finmap.singleton ordersCounter ⟨.gcraID, 60000000, 0, 0, 60000000⟩

theorem repeated_keys_harmless_once :
    (∃ m τ r, (listCounters sampleStdlib ordersListing [] 0).against (listsKeys [ordersCounter])
      spentCounter = (m, τ, some r) ∧ ListsOnce r) ∧
    ∃ m τ r, (sweep sampleStdlib limitedPreview).against (sweepsKeys [ordersCounter]) spentCounter =
      (m, τ, some r) ∧ Completes τ := by
  have hlisted : keysIn ((listCounters sampleStdlib ordersListing [] 0).against
      (listsKeys [ordersCounter]) spentCounter).2.1 = [ordersCounter] := by
    decide +kernel
  have hswept : pagesIn ((sweep sampleStdlib limitedPreview).against (sweepsKeys [ordersCounter])
      spentCounter).2.1 = [ordersCounter] := by
    decide +kernel
  obtain ⟨⟨m, τ, r, heq, hlists⟩, m', τ', r', heq', hcompletes⟩ :=
    repeated_keys_harmless_iff sampleStdlib (listsKeys_answers [ordersCounter])
      (sweepsKeys_answers [ordersCounter]) spentCounter spentCounter ordersListing [] 0 limitedPreview
      (some listedPolicy) (some listedPolicy) rfl rfl rfl (by decide)
  rw [heq] at hlisted
  rw [heq'] at hswept
  refine ⟨⟨m, τ, r, heq, hlists.mpr ?_⟩, m', τ', r', heq', hcompletes.mpr ?_⟩
  · rw [hlisted]
    decide +kernel
  · rw [hswept, batchesDiffer_short (by decide +kernel)]
    decide +kernel

/-- The key of the counter twice in one step: the page is refused as an outage, and the
preview is recorded as interrupted. -/
theorem repeated_key_refused :
    AnswersListing (listsKeys [ordersCounter, ordersCounter]) ∧
      AnswersSweep (sweepsKeys [ordersCounter, ordersCounter]) (fun _ => 0) ∧
      ((listCounters sampleStdlib ordersListing [] 0).against
        (listsKeys [ordersCounter, ordersCounter]) spentCounter).2.2 =
        some (.error (storeDown "the counter store did not answer the read")) ∧
      ((commitsIn ((sweep sampleStdlib limitedPreview).against
        (sweepsKeys [ordersCounter, ordersCounter]) spentCounter).2.1).map fun c =>
        (c.outcome.failed, c.outcome.code)) = [(true, Code.interrupted.text)] :=
  ⟨listsKeys_answers _, sweepsKeys_answers _, by decide +kernel, by decide +kernel⟩

end Harmless

end Ratelimit.Management
