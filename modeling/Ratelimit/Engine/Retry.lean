import Ratelimit.Engine.Reachable
import Ratelimit.Engine.Strictest
import Ratelimit.Store.Later

/-!
# The retry hint is exact

Left alone, a bucket that a request can fit admits it from one moment on, and the
wait it reports is the time to that moment. A decision waits for all of its
enforcing buckets, so its moment is the latest of theirs, which is the one the
headers report.
-/
namespace Ratelimit.Engine

open Algo Store Match Compile Identity Library Memory

section Later

variable {t t' : ℕ} {m m' : Entries} {b : Bucket} {scope : Key.Scope} {snap : Snapshot}
  {block : Block} {rule : Rule} {rate : Rate} {axes : List Text}

theorem Kept.lastsFor (hkept : Kept t m) (hb : CountedBy scope snap b block rule rate axes) :
    LastsFor m b := by
  intro e he
  obtain ⟨hcount, -, hgcra, hfixed⟩ := hkept _ e he
  refine ⟨hcount, hgcra, fun hid => ?_⟩
  rw [hb.window_eq]
  exact hfixed hid _ _ _ _ (second_dvd_period hb.checked) hb.key_eq

theorem Kept.begun (hkept : Kept t m) : Begun t m b := fun e he _ => (hkept _ e he).start_le

theorem counted_later (hkept : Kept t m) (hb : CountedBy scope snap b block rule rate axes)
    (hle : t ≤ t') (hcurable : (outcome t m b).costExceeds = false) :
    (outcome t' m b).allowed = true ↔
      (outcome t m b).allowed = true ∨ (outcome t m b).retryAfter ≤ microsDuration (t' - t) :=
  outcome_later (hkept.lastsFor hb) hkept.begun hb.algorithm_eq hb.checked_window hle hcurable

end Later

section Refusal

variable {rules : List MatchedRule} {t : ℕ} {m : Entries}

/-- The refusing bucket that the headers report. -/
structure Binds (t : ℕ) (m : Entries) (bs : List Bucket) (b : Bucket) : Prop where
  mem : b ∈ bs
  enforcing : b.shadow = false
  refusing : (outcome t m b).allowed = false
  longest : (∀ c ∈ bs, c.shadow = false → (outcome t m c).costExceeds = false) →
    ∀ c ∈ bs, c.shadow = false → (outcome t m c).allowed = false →
      (outcome t m c).retryAfter ≤ (outcome t m b).retryAfter

/-- A refusal carries headers, and they come from the bucket that waits longest. -/
theorem respond_refused (hnodup : ((bucketsOf rules).map Bucket.key).Nodup)
    (hrefused : admits t m (bucketsOf rules) = false) :
    ∃ b exceeds h, Binds t m (bucketsOf rules) b ∧ respond t m rules = ⟨false, exceeds, some h⟩ ∧
      (exceeds = true ↔
        ∃ c ∈ bucketsOf rules, c.shadow = false ∧ (outcome t m c).costExceeds = true) ∧
      h.retryAfter = if exceeds then -1 else (outcome t m b).retryAfter := by
  have hverdict := verdictOf_refused hrefused
  have hincurable : incurable rules (verdictOf t m (bucketsOf rules)) false = true ↔
      ∃ c ∈ bucketsOf rules, c.shadow = false ∧ (outcome t m c).costExceeds = true := by
    simp [incurable, hverdict, currentVerdict]
  obtain ⟨hshadow, -⟩ | ⟨owner, x, hleast, hrespond⟩ := respond_cases t m rules
  · obtain ⟨b, hb, henforcing, -⟩ := exists_refusing hrefused
    rw [hshadow b hb] at henforcing
    cases henforcing
  · obtain ⟨b, v⟩ := x
    rw [hrefused] at hleast hrespond
    obtain ⟨hr, hbr, hv, hshadow, hno⟩ := mem_contenders.mp (least_mem hleast)
    dsimp only at hr hbr hv hshadow hno
    rw [hverdict] at hv
    subst hv
    refine ⟨b, _, _, ?_, hrespond, hincurable, rfl⟩
    refine ⟨mem_bucketsOf.mpr ⟨owner, hr, hbr⟩, hshadow, by simpa [currentVerdict] using hno, ?_⟩
    intro hcurable c hc hcs hcno
    have hbx := hcurable b (mem_bucketsOf.mpr ⟨owner, hr, hbr⟩) hshadow
    have hcx := hcurable c hc hcs
    obtain ⟨r, hr', hcr⟩ := mem_bucketsOf.mp hc
    have hmem : (r, c, currentVerdict (outcome t m c)) ∈
        contenders rules (verdictOf t m (bucketsOf rules)) false :=
      mem_contenders.mpr ⟨hr', hcr, (hverdict c).symm, hcs, Or.inr hcno⟩
    by_cases hsame : (r, c, currentVerdict (outcome t m c)) =
        (owner, b, currentVerdict (outcome t m b))
    · simp only [Prod.mk.injEq] at hsame
      rw [hsame.2.1]
    · have hrank := refusalRank_least hnodup hleast _ hmem hsame
      simp only [refusalRank, currentVerdict, hbx, hcx, Prod.Lex.toLex_lt_toLex, Bool.not_false,
        lt_self_iff_false, false_or, true_and, Bool.false_eq_true, if_false] at hrank
      omega

end Refusal

section Retry

variable {codec : Codec} {snap : Snapshot} {scope : Key.Scope} {req : Request} {t t' : ℕ}
  {m m' : Entries}

def SameHeld (bs : List Bucket) (m : Entries) (t : ℕ) (m' : Entries) : Prop :=
  ∀ b ∈ bs, ∀ u : ℕ, t ≤ u → held u m' b = held u m b

theorem admits_of_sameHeld {bs : List Bucket} (h : SameHeld bs m t m') (hle : t ≤ t') :
    admits t' m' bs = admits t' m bs := by
  unfold admits
  rw [Bool.eq_iff_iff, List.all_eq_true, List.all_eq_true]
  refine forall₂_congr fun b hb => ?_
  rw [outcome_of_held (h b hb t' hle)]

theorem sameHeld_refused (ha : Answerable codec snap req)
    (h : SameHeld (requestBuckets codec snap req) m t m')
    (hrefused : admits t m (requestBuckets codec snap req) = false) :
    SameHeld (requestBuckets codec snap req) m t (decideStep codec snap m' (t, req)).1 := by
  intro b hb u hle
  obtain ⟨d, hd, -⟩ := decideRequest_eq t m' ha
  unfold decideStep
  rw [hd, ← h b hb u hle]
  have hkeep : (storeDecide t m' (requestBuckets codec snap req)).1.lookup b.key =
      held t m' b := by
    rw [lookup_storeDecide_of_mem ha.guard ha.registered hb, admits_of_sameHeld h le_rfl, hrefused]
    rfl
  exact held_of_lookup_held (by exact_mod_cast hle) hkeep

def retried (codec : Codec) (snap : Snapshot) (m : Entries) (req : Request) (before : List ℕ)
    (now : ℕ) : Except Failure Bool :=
  (decideStep codec snap
    (runs (decideStep codec snap) m (before.map fun u => (u, req))).1 (now, req)).2.map
      Decision.allowed

theorem retried_eq (ha : Answerable codec snap req) {before : List ℕ}
    (hclock : MonotoneFrom id t (before ++ [t']))
    (hrefused : ∀ u ∈ before, admits u m (requestBuckets codec snap req) = false) :
    retried codec snap m req before t' =
      .ok (admits t' m (requestBuckets codec snap req)) := by
  obtain ⟨hbefore, hlast⟩ := monotoneFrom_append.mp hclock
  have hstep : ∀ (s : Entries) (call : ℕ × Request),
      (call.2 = req ∧ admits call.1 m (requestBuckets codec snap req) = false) →
      SameHeld (requestBuckets codec snap req) m call.1 s →
        SameHeld (requestBuckets codec snap req) m call.1 (decideStep codec snap s call).1 := by
    rintro s ⟨u, req'⟩ ⟨rfl, hno⟩ h
    exact sameHeld_refused ha h hno
  have hcalls : ∀ call ∈ before.map fun u => (u, req),
      call.2 = req ∧ admits call.1 m (requestBuckets codec snap req) = false := by
    intro call hcall
    obtain ⟨u, hu, rfl⟩ := List.mem_map.mp hcall
    exact ⟨rfl, hrefused u hu⟩
  have hrun := invariant_runs (SameHeld (requestBuckets codec snap req) m)
    (fun u u' s hle h b hb v hv => h b hb v (hle.trans hv)) hstep
    (before.map fun u => (u, req)) t m (monotoneFrom_map.mpr hbefore) hcalls
    (fun b hb u hu => rfl)
  rw [lastClock_map] at hrun
  obtain ⟨d, hd, hresponse⟩ := decideRequest_eq t'
    (runs (decideStep codec snap) m (before.map fun u => (u, req))).1 ha
  have hlate : lastClock id t before ≤ t' := hlast.1
  unfold retried
  rw [decideStep, hd, ← admits_of_sameHeld hrun hlate]
  exact congrArg Except.ok (congrArg Response.allowed hresponse)

theorem admits_later (hsnap : snap.Sound scope) (hkept : Kept t m) (hle : t ≤ t') {b : Bucket}
    (hb : Binds t m (requestBuckets codec snap req) b)
    (hcurable : ∀ c ∈ requestBuckets codec snap req, c.shadow = false →
      (outcome t m c).costExceeds = false) :
    admits t' m (requestBuckets codec snap req) = true ↔
      (outcome t m b).retryAfter ≤ microsDuration (t' - t) := by
  unfold admits
  rw [List.all_eq_true]
  constructor
  · intro hall
    obtain ⟨block, rule, rate, axes, hcounted⟩ := exists_countedBy hsnap hb.mem
    have hallowed : (outcome t' m b).allowed = true := by
      have hside := hall b hb.mem
      rwa [hb.enforcing, Bool.false_or] at hside
    rw [counted_later hkept hcounted hle (hcurable b hb.mem hb.enforcing), hb.refusing] at hallowed
    exact hallowed.resolve_left Bool.false_ne_true
  · intro hwait c hc
    cases hshadow : c.shadow with
    | true => rfl
    | false =>
      obtain ⟨block, rule, rate, axes, hcounted⟩ := exists_countedBy hsnap hc
      rw [Bool.false_or, counted_later hkept hcounted hle (hcurable c hc hshadow)]
      cases hallowed : (outcome t m c).allowed with
      | true => exact Or.inl rfl
      | false => exact Or.inr ((hb.longest hcurable c hc hshadow hallowed).trans hwait)

theorem admits_incurable (hsnap : snap.Sound scope) (hkept : Kept t m) {c : Bucket}
    (hc : c ∈ requestBuckets codec snap req) (hshadow : c.shadow = false)
    (hexceeds : (outcome t m c).costExceeds = true) (u : ℕ) :
    admits u m (requestBuckets codec snap req) = false := by
  obtain ⟨block, rule, rate, axes, hcounted⟩ := exists_countedBy hsnap hc
  rw [Bool.eq_false_iff]
  intro hall
  have hside := (List.all_eq_true.mp hall) c hc
  rw [hshadow, outcome_incurable (hkept.lastsFor hcounted) hcounted.algorithm_eq
    hcounted.checked_window hexceeds u] at hside
  cases hside

theorem refusal_waits (hsnap : snap.Sound scope) (hkept : Kept t m) {d : Decision}
    (hd : (decideRequest codec snap t m req).2 = .ok d) (hrefused : d.allowed = false) :
    admits t m (requestBuckets codec snap req) = false ∧ ∃ h, d.headers = some h ∧
      (d.costExceedsCapacity = false → ∀ u : ℕ, t ≤ u →
        (admits u m (requestBuckets codec snap req) = true ↔
          h.retryAfter ≤ microsDuration (u - t))) ∧
      (d.costExceedsCapacity = true → h.retryAfter < 0 ∧
        ∀ u : ℕ, admits u m (requestBuckets codec snap req) = false) := by
  have ha := Answerable.of_ok hsnap hd
  obtain ⟨d', hd', hresponse⟩ := decideRequest_eq t m ha
  obtain rfl : d' = d := Except.ok.inj ((congrArg Prod.snd hd').symm.trans hd)
  have hadmits : admits t m (requestBuckets codec snap req) = false :=
    (congrArg Response.allowed hresponse).symm.trans hrefused
  have hnodup : ((requestBuckets codec snap req).map Bucket.key).Nodup :=
    (guardBuckets_ok_iff.mp ha.guard).2
  obtain ⟨b, exceeds, h, hb, hrespond, hexceeds, hretry⟩ := respond_refused hnodup hadmits
  rw [hrespond] at hresponse
  have hcapacity : d'.costExceedsCapacity = exceeds :=
    congrArg Response.costExceedsCapacity hresponse
  rw [hcapacity]
  refine ⟨hadmits, h, congrArg Response.headers hresponse, ?_, ?_⟩
  · intro hcurable u hle
    rw [hcurable, if_neg Bool.false_ne_true] at hretry
    have hnone : ∀ c ∈ requestBuckets codec snap req, c.shadow = false →
        (outcome t m c).costExceeds = false := by
      intro c hc hshadow
      rw [Bool.eq_false_iff]
      intro hc'
      rw [hexceeds.mpr ⟨c, hc, hshadow, hc'⟩] at hcurable
      cases hcurable
    rw [hretry]
    exact admits_later hsnap hkept hle hb hnone
  · intro hincurable
    obtain ⟨c, hc, hshadow, hc'⟩ := hexceeds.mp hincurable
    rw [hincurable, if_pos rfl] at hretry
    exact ⟨by omega, admits_incurable hsnap hkept hc hshadow hc'⟩

/-- The retry hint is exact: repeated with no other traffic between, a refused request is refused before
the hint is over and admitted from then on; a negative hint means it is refused at every later time. -/
theorem retryAfter_exact (namespaceName domain : Text) (p : Option Model.Policy) (codec : Codec)
    (req : Request) {t : ℕ} {m : Entries} (hreach : Reachable t m) {d : Decision}
    (hd : (decideRequest codec (compile namespaceName domain p).1 t m req).2 = .ok d)
    (hrefused : d.allowed = false) :
    ∃ h, d.headers = some h ∧
      (d.costExceedsCapacity = false → ∀ (polls : List ℕ) (t' : ℕ),
        MonotoneFrom id t (polls ++ [t']) →
        (∀ u ∈ polls, microsDuration (u - t) < h.retryAfter) →
          retried codec (compile namespaceName domain p).1 m req (t :: polls) t' =
            .ok (decide (h.retryAfter ≤ microsDuration (t' - t)))) ∧
      (d.costExceedsCapacity = true → h.retryAfter < 0 ∧ ∀ (polls : List ℕ) (t' : ℕ),
        MonotoneFrom id t (polls ++ [t']) →
          retried codec (compile namespaceName domain p).1 m req (t :: polls) t' = .ok false) := by
  obtain ⟨scope, hsnap⟩ := compile_sound namespaceName domain p
  have ha := Answerable.of_ok hsnap hd
  obtain ⟨hadmits, h, hheaders, hcurable, hincurable⟩ :=
    refusal_waits hsnap hreach.kept hd hrefused
  refine ⟨h, hheaders, fun hcured polls t' hclock hpolls => ?_, fun hexceeds => ?_⟩
  · have hlater := hcurable hcured
    have hbefore : ∀ u ∈ t :: polls,
        admits u m (requestBuckets codec (compile namespaceName domain p).1 req) = false := by
      intro u hu
      rcases List.mem_cons.mp hu with rfl | hu
      · exact hadmits
      · have hle : t ≤ u := le_of_mem_monotoneFrom hclock (List.mem_append_left _ hu)
        rw [Bool.eq_false_iff, ne_eq, hlater u hle]
        exact not_le.mpr (hpolls u hu)
    have hle : t ≤ t' := le_of_mem_monotoneFrom hclock (List.mem_append_right _ List.mem_cons_self)
    have hstart : MonotoneFrom id t ((t :: polls) ++ [t']) := ⟨le_rfl, hclock⟩
    rw [retried_eq ha hstart hbefore]
    apply congrArg Except.ok
    rw [Bool.eq_iff_iff, hlater t' hle, decide_eq_true_eq]
  · obtain ⟨hnegative, hnever⟩ := hincurable hexceeds
    refine ⟨hnegative, fun polls t' hclock => ?_⟩
    have hstart : MonotoneFrom id t ((t :: polls) ++ [t']) := ⟨le_rfl, hclock⟩
    rw [retried_eq ha hstart fun u _ => hnever u, hnever t']

def burstRequest : Request :=
  { path := ascii "/x", method := ascii "GET", token := [], keys := ∅, cost := 100 }

def spentStore : Entries :=
  (decideRequest .inert (compileShop shopPolicy).1 0 ∅
    burstRequest).1

theorem retryAfter_exact_spent :
    retried .inert (compileShop shopPolicy).1 spentStore
        burstRequest [0] 999999 = .ok false ∧
      retried .inert (compileShop shopPolicy).1 spentStore
        burstRequest [0, 999999] 1000000 = .ok true := by
  have hresponse :
      (decideRequest .inert (compileShop shopPolicy).1 0 spentStore burstRequest).2.map
          Decision.response =
        .ok ⟨false, false, some
          { block := ascii "edge", rule := ascii "path", limit := 100, remaining := 0
            retryAfter := 1000000000, resetAfter := 1000000000, cost := 100
            effectiveWindow := 10000000, algorithm := ascii "gcra", periodSeconds := 1 }⟩ := by
    decide +kernel
  cases hd : (decideRequest .inert (compileShop shopPolicy).1 0 spentStore burstRequest).2 with
  | error e =>
    rw [hd] at hresponse
    cases hresponse
  | ok d =>
    rw [hd] at hresponse
    have hd' := Except.ok.inj hresponse
    obtain ⟨h, hh, hcurable, -⟩ := retryAfter_exact (ascii "prod") (ascii "shop")
      (some shopPolicy) .inert burstRequest ((Reachable.empty 0).decide _ _ _ _ _) hd
      (congrArg Response.allowed hd')
    have hhint : h.retryAfter = 1000000000 := by
      rw [Option.some.inj (hh.symm.trans (congrArg Response.headers hd'))]
    have hverdict := hcurable (congrArg Response.costExceedsCapacity hd')
    rw [hhint] at hverdict
    exact ⟨hverdict [] 999999 (by decide) (by decide),
      hverdict [999999] 1000000 (by decide) (by decide)⟩

end Retry

end Ratelimit.Engine
