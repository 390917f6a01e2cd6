import Ratelimit.Config.Applied

/-!
# When a refusal is reported

A refusal is published once per manifest, by comparing its bytes with those of the
last refusal. Where there was none, what is compared with is a nil slice, which is
equal to an empty one: the refusal of an empty manifest file is not published then.
-/
namespace Ratelimit.Config

open Api Library

def Reading.found : Reading → Bool
  | .refused _ => true
  | .valid _ => true
  | _ => false

def Reading.isRefused : Reading → Bool
  | .refused _ => true
  | _ => false

/-- The last of the calls that found a manifest was refused. -/
def lastRefused (c : Codec) (visits : List Visit) : Bool :=
  (((visits.map fun v => read c v.dir).filter Reading.found).getLast?.map Reading.isRefused).getD
    false

def Trace.refusing (t : Trace) : Bool := t.watcher.applier.report.refusal.isSome

def Reading.emptyRefused : Reading → Bool
  | .refused refusal => decide (refusal.raw = [])
  | _ => false

/-- Each refused reading of an empty manifest file comes after a refused one. -/
def EmptyAfterRefused (c : Codec) (visits : List Visit) : Prop :=
  ∀ before v, before ++ [v] <+: visits → (read c v.dir).emptyRefused = true →
    lastRefused c before = true

variable {c : Codec} {namespaceName : Text} {visits : List Visit} {v : Visit} {t : Trace}

theorem lastRefused_snoc : lastRefused c (visits ++ [v]) =
    if (read c v.dir).found then (read c v.dir).isRefused else lastRefused c visits := by
  unfold lastRefused
  rw [List.map_append, List.filter_append]
  by_cases hfound : (read c v.dir).found = true
  · simp [hfound]
  · simp [hfound]

/-- The bytes that were refused last are kept exactly while a refusal is reported. -/
def Trace.Marked (t : Trace) : Prop := t.watcher.refused.isSome = t.refusing

theorem Watcher.present_refusal (w : Watcher) :
    w.present.applier.report.refusal = w.applier.report.refusal := by
  unfold Watcher.present Applier.setAbsent Applier.report
  split_ifs <;> rfl

/-- What one call does to the refusal that is reported. -/
def refusingAfter (refusing : Bool) : Reading → Bool
  | .refused refusal => refusing || !decide (refusal.raw = [])
  | .valid _ => false
  | _ => refusing

theorem Trace.refusing_visit (h : t.Marked) :
    (t.visit c v).Marked ∧ (t.visit c v).refusing = refusingAfter t.refusing (read c v.dir) := by
  have hpresent : t.watcher.present.applier.report.refusal.isSome = t.refusing :=
    congrArg Option.isSome t.watcher.present_refusal
  unfold Trace.Marked at h ⊢
  -- the watcher that only found the directory again
  have hsame : ∀ w : Watcher, w.refused = t.watcher.refused →
      w.applier.report.refusal.isSome = t.refusing →
      w.refused.isSome = w.applier.report.refusal.isSome := by
    rintro w hrefused hreport
    rw [hrefused, hreport, h]
  have hstep : (t.visit c v).refusing =
      (t.watcher.read c v.now v.dir).applier.report.refusal.isSome := rfl
  rw [hstep]
  unfold Trace.visit Watcher.read
  cases hread : read c v.dir with
  | absent =>
    dsimp only
    split_ifs
    · exact ⟨h, rfl⟩
    · exact ⟨h, rfl⟩
  | unreadable err => exact ⟨hsame _ rfl hpresent, hpresent⟩
  | refused refusal =>
    dsimp only
    split_ifs with hskip
    · refine ⟨hsame _ rfl hpresent, hpresent.trans ?_⟩
      -- nothing is published: a refusal stands, or the file is empty
      cases hrefused : t.watcher.refused with
      | none =>
        have hempty : refusal.raw = [] := by
          rw [hskip]
          exact congrArg (Option.getD · []) hrefused
        simp [refusingAfter, hempty]
      | some raw =>
        rw [hrefused] at h
        simp [refusingAfter, ← h]
    · refine ⟨rfl, ?_⟩
      cases hrefused : t.watcher.refused with
      | none =>
        have hne : refusal.raw ≠ [] := by
          intro hempty
          refine hskip (hempty.trans ?_)
          exact (congrArg (Option.getD · []) hrefused).symm
        simp [refusingAfter, hne, Applier.report, Applier.refuse]
      | some raw =>
        rw [hrefused] at h
        simp [refusingAfter, ← h, Applier.report, Applier.refuse]
  | valid cfg =>
    dsimp only
    split_ifs with hskip
    · have hnone : t.watcher.refused.isNone = true := (Bool.and_eq_true_iff.mp hskip).2
      have hrefusing : t.refusing = false := by
        rw [← h, Option.isNone_iff_eq_none.mp hnone]
        rfl
      exact ⟨hsame _ rfl hpresent, hpresent.trans hrefusing⟩
    · exact ⟨rfl, rfl⟩

theorem marked_after : (Trace.after c namespaceName visits).Marked := by
  induction visits using List.reverseRecOn with
  | nil => exact rfl
  | append_singleton visits v ih =>
    rw [Trace.after, List.foldl_append]
    exact (Trace.refusing_visit ih).1

theorem refusing_after_snoc : (Trace.after c namespaceName (visits ++ [v])).refusing =
    refusingAfter (Trace.after c namespaceName visits).refusing (read c v.dir) := by
  rw [Trace.after, List.foldl_append]
  exact (Trace.refusing_visit marked_after).2

/-- After each of the calls a refusal is reported exactly if the last one that found a
manifest was refused. -/
def RefusalStands (c : Codec) (namespaceName : Text) (visits : List Visit) : Prop :=
  ∀ done, done <+: visits → (Trace.after c namespaceName done).refusing = lastRefused c done

/-- A refusal is reported as long as it stands, exactly if no empty manifest file is
refused that does not come after another refusal. -/
theorem refusalStands_iff :
    RefusalStands c namespaceName visits ↔ EmptyAfterRefused c visits := by
  constructor
  · intro hstands before v hbefore hempty
    have hafter := hstands _ hbefore
    rw [refusing_after_snoc, lastRefused_snoc,
      hstands before ((List.prefix_append before [v]).trans hbefore)] at hafter
    cases hread : read c v.dir with
    | absent => simp [hread, Reading.emptyRefused] at hempty
    | unreadable err => simp [hread, Reading.emptyRefused] at hempty
    | refused refusal =>
      rw [hread] at hempty
      have hraw : refusal.raw = [] := of_decide_eq_true hempty
      simpa [hread, refusingAfter, Reading.found, Reading.isRefused, hraw] using hafter
    | valid cfg => simp [hread, Reading.emptyRefused] at hempty
  · intro hempty done
    induction done using List.reverseRecOn with
    | nil => exact fun _ => rfl
    | append_singleton done v ih =>
      intro hdone
      rw [refusing_after_snoc, lastRefused_snoc,
        ih ((List.prefix_append done [v]).trans hdone)]
      cases hread : read c v.dir with
      | absent => rfl
      | unreadable err => rfl
      | refused refusal =>
        by_cases hraw : refusal.raw = []
        · have hlast := hempty done v hdone (by simp [hread, Reading.emptyRefused, hraw])
          simp [refusingAfter, Reading.found, Reading.isRefused, hlast]
        · simp [refusingAfter, Reading.found, Reading.isRefused, hraw]
      | valid cfg => rfl

/-- An empty manifest file as the first one is refused and not reported. -/
theorem refusalStands_emptied :
    lastRefused limitCodec [⟨1, emptiedDirectory⟩] = true ∧
      ¬RefusalStands limitCodec (ascii "prod") [⟨1, emptiedDirectory⟩] := by
  refine ⟨by decide +kernel, fun hstands => ?_⟩
  exact absurd (hstands _ (List.prefix_refl _)) (by decide +kernel)

end Ratelimit.Config
