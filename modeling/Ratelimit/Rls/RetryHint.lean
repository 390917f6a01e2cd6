import Mathlib.Data.List.MinMax
import Ratelimit.Engine.Peek
import Ratelimit.Engine.Retry
import Ratelimit.Rls.Verdict

/-!
# The retry hint of a check with several descriptors

Within one decision a refusal that no waiting cures beats every other one. Across the decisions
of a check the server compares the waits as numbers, so such a refusal loses. The hint is right
where the refused decisions are of one kind.
-/
namespace Ratelimit.Rls

open Library Engine Store Memory Compile Identity

section Strictest

def refusedWait (d : Decision) : Option ℤ :=
  if d.allowed then none else d.headers.map Headers.retryAfter

def refusedWaits (ds : List Decision) : List ℤ := ds.filterMap refusedWait

def Held (best : Decision) : Prop := best.headers = none ∨ best.allowed = false

theorem keepStricter_wait {best : Decision} (h : Held best) (d : Decision) :
    Held (keepStricter false best d) ∧ (refusedWait (keepStricter false best d)).toList.maximum =
      max (refusedWait best).toList.maximum (refusedWait d).toList.maximum := by
  unfold keepStricter
  cases hd : d.headers with
  | none =>
    refine ⟨h, ?_⟩
    have hnone : refusedWait d = none := by simp [refusedWait, hd]
    rw [hnone]
    exact (max_bot_right _).symm
  | some g =>
    cases hallowed : d.allowed with
    | true =>
      have hnone : refusedWait d = none := by simp [refusedWait, hallowed]
      rw [hnone]
      exact ⟨h, (max_bot_right _).symm⟩
    | false =>
      have hwait : refusedWait d = some g.retryAfter := by simp [refusedWait, hallowed, hd]
      rw [hwait]
      cases hbest : best.headers with
      | none =>
        have hnone : refusedWait best = none := by simp [refusedWait, hbest]
        rw [hnone]
        simp [Held, hallowed, hwait]
      | some b =>
        have hrefused : best.allowed = false := h.resolve_left (by simp [hbest])
        have hbwait : refusedWait best = some b.retryAfter := by simp [refusedWait, hrefused, hbest]
        rw [hbwait]
        by_cases hlonger : b.retryAfter < g.retryAfter
        · simp [Held, hallowed, hwait, hlonger, hlonger.le]
        · simp [Held, hrefused, hbwait, hlonger, not_lt.mp hlonger]

theorem foldl_keepStricter_wait {best : Decision} (h : Held best) (ds : List Decision) :
    Held (ds.foldl (keepStricter false) best) ∧
      (refusedWait (ds.foldl (keepStricter false) best)).toList.maximum =
        max (refusedWait best).toList.maximum (refusedWaits ds).maximum := by
  induction ds generalizing best with
  | nil => exact ⟨h, (max_bot_right _).symm⟩
  | cons d ds ih =>
    obtain ⟨hheld, hwait⟩ := keepStricter_wait h d
    obtain ⟨hlast, hmax⟩ := ih hheld
    refine ⟨hlast, ?_⟩
    have hcons : (refusedWaits (d :: ds)).maximum =
        max (refusedWait d).toList.maximum (refusedWaits ds).maximum := by
      unfold refusedWaits
      rw [List.filterMap_cons]
      cases refusedWait d with
      | none => exact (max_bot_left _).symm
      | some w => exact List.maximum_cons w _
    rw [List.foldl_cons, hmax, hwait, max_assoc, hcons]

def retryAfterOf (hs : List HeaderValue) : Option Text :=
  (hs.find? fun h => h.key = ascii "retry-after").map HeaderValue.value

theorem retryAfterOf_responseHeaders (ietf : Bool) {d : Decision} {h : Headers}
    (hd : d.headers = some h) (hrefused : d.allowed = false) :
    retryAfterOf (responseHeaders ietf d) =
      if 0 ≤ h.retryAfter then some (Strconv.formatInt (ceilSeconds h.retryAfter)) else none := by
  have hlimit : ascii "x-ratelimit-limit" ≠ ascii "retry-after" := by decide
  have hremaining : ascii "x-ratelimit-remaining" ≠ ascii "retry-after" := by decide
  have hreset : ascii "x-ratelimit-reset" ≠ ascii "retry-after" := by decide
  have hpolicy : ascii "ratelimit-policy" ≠ ascii "retry-after" := by decide
  have hquota : ascii "ratelimit" ≠ ascii "retry-after" := by decide
  unfold responseHeaders
  rw [hd]
  by_cases hwait : 0 ≤ h.retryAfter
  · simp [retryAfterOf, header, hrefused, hwait, hlimit, hremaining, hreset]
  · cases ietf <;> simp [retryAfterOf, header, ietfFields, hrefused, hwait, hlimit, hremaining,
      hreset, hpolicy, hquota]

/-- The hint of a refused check, from the decisions it made. -/
def hint (ietf : Bool) (ds : List Decision) : Option Text :=
  retryAfterOf (responseHeaders ietf (strictestDecision ds false))

/-- The hint is the longest wait of the refused decisions, where that is one. -/
theorem hint_cases (ietf : Bool) (ds : List Decision) :
    (refusedWaits ds = [] ∧ hint ietf ds = none) ∨
      ∃ w : ℤ, (refusedWaits ds).maximum = w ∧ hint ietf ds =
        if 0 ≤ w then some (Strconv.formatInt (ceilSeconds w)) else none := by
  have hstart : Held noDecision := Or.inl rfl
  obtain ⟨hheld, hmax⟩ := foldl_keepStricter_wait hstart ds
  have hnone : (refusedWait noDecision).toList.maximum = ⊥ := rfl
  rw [hnone, max_bot_left] at hmax
  unfold hint strictestDecision
  dsimp only
  generalize ds.foldl (keepStricter false) noDecision = best at hheld hmax
  cases hbest : best.headers with
  | none =>
    left
    have hwait : refusedWait best = none := by simp [refusedWait, hbest]
    rw [hwait] at hmax
    refine ⟨List.maximum_eq_bot.mp hmax.symm, ?_⟩
    simp [responseHeaders, retryAfterOf]
  | some h =>
    right
    have hrefused : best.allowed = false := hheld.resolve_left (by simp [hbest])
    have hwait : refusedWait best = some h.retryAfter := by simp [refusedWait, hrefused, hbest]
    rw [hwait] at hmax
    exact ⟨h.retryAfter, hmax.symm, retryAfterOf_responseHeaders ietf hbest hrefused⟩

theorem hint_perm (ietf : Bool) {ds ds' : List Decision} (h : ds.Perm ds') :
    hint ietf ds = hint ietf ds' := by
  have hwaits : (refusedWaits ds).maximum = (refusedWaits ds').maximum :=
    (h.filterMap refusedWait).maximum_eq
  rcases hint_cases ietf ds with ⟨hnil, hhint⟩ | ⟨w, hw, hhint⟩
  · rcases hint_cases ietf ds' with ⟨-, hhint'⟩ | ⟨w, hw', -⟩
    · rw [hhint, hhint']
    · rw [hnil, hw'] at hwaits
      cases hwaits
  · rcases hint_cases ietf ds' with ⟨hnil, -⟩ | ⟨w', hw', hhint'⟩
    · rw [hnil, hw] at hwaits
      cases hwaits
    · rw [hw, hw', WithBot.coe_inj] at hwaits
      rw [hhint, hhint', hwaits]

end Strictest

section Answers

variable {S : Type}

def decided (made : List (Attempt S)) : List Decision := made.filterMap fun x => x.outcome.toOption

def OverBudget (made : List (Attempt S)) : Prop :=
  ∃ x ∈ made, ∃ n, x.outcome = .error (.tooManyBuckets n)

variable {srv : Server} {eng : Decider S} {cs : List Check}

/-- Over the budget a check says nothing; otherwise a refused one speaks for all
decisions it made. -/
theorem decideAll_refused : ∀ {s : S} {ds : List Decision},
    (OverBudget (attempts eng s cs) →
      (srv.decideAll eng s cs ds (ds.all Decision.allowed)).2 = .ok ⟨.overLimit, []⟩) ∧
    (¬ OverBudget (attempts eng s cs) →
      (∃ d ∈ ds ++ decided (attempts eng s cs), d.allowed = false) →
      (srv.decideAll eng s cs ds (ds.all Decision.allowed)).2 = .ok ⟨.overLimit, responseHeaders
        srv.ietfHeaders (strictestDecision (ds ++ decided (attempts eng s cs)) false)⟩) := by
  induction cs with
  | nil =>
    intro s ds
    constructor
    · rintro ⟨x, hx, -⟩
      cases hx
    · rintro - ⟨d, hd, hrefused⟩
      rw [attempts, decided, List.filterMap_nil, List.append_nil] at hd ⊢
      have hall : ds.all Decision.allowed = false :=
        List.all_eq_false.mpr ⟨d, hd, by simp [hrefused]⟩
      rw [hall]
      rfl
  | cons c cs ih =>
    intro s ds
    rcases h : eng.attempt s c with ⟨s', (n | e) | d⟩ <;> rw [Server.decideAll, h]
    · rw [attempts_of_error h]
      exact ⟨fun _ => rfl, fun hwithin => absurd ⟨_, List.mem_singleton_self _, n, rfl⟩ hwithin⟩
    · rw [attempts_of_error h]
      constructor
      · rintro ⟨x, hx, n, hn⟩
        obtain rfl := List.mem_singleton.mp hx
        cases hn
      · rintro - ⟨d, hd, hrefused⟩
        have hnone : decided [(⟨c, s, s', .error (.store e)⟩ : Attempt S)] = [] := rfl
        rw [hnone, List.append_nil] at hd ⊢
        have hall : ds.all Decision.allowed = false :=
          List.all_eq_false.mpr ⟨d, hd, by simp [hrefused]⟩
        simp [hall]
    · rw [attempts_of_ok h]
      have hall : (ds.all Decision.allowed && d.allowed) = (ds ++ [d]).all Decision.allowed := by
        simp
      have hdecided : ds ++ decided (⟨c, s, s', .ok d⟩ :: attempts eng s' cs) =
          (ds ++ [d]) ++ decided (attempts eng s' cs) := by
        simp [decided, Except.toOption]
      have hbudget : OverBudget (⟨c, s, s', .ok d⟩ :: attempts eng s' cs) ↔
          OverBudget (attempts eng s' cs) := by
        simp [OverBudget]
      dsimp only
      rw [hall, hdecided, hbudget]
      exact ih

def Reply.hint : Reply → Option Text
  | .ok response => retryAfterOf response.responseHeadersToAdd
  | .error _ => none

/-- The hint of a check: none where a refused decision is one that no waiting cures,
and else, where decisions alone refused it, the longest of their waits. -/
structure HintRight (ietf : Bool) (made : List (Attempt S)) (reply : Reply) : Prop where
  incurable : (∃ d ∈ decided made, d.allowed = false ∧ d.costExceedsCapacity = true) →
    reply.hint = none
  longest : (∀ d ∈ decided made, d.allowed = false → d.costExceedsCapacity = false) →
    (∃ d ∈ decided made, d.allowed = false) → (∀ x ∈ made, ∃ d, x.outcome = .ok d) →
    ∃ w : ℤ, (refusedWaits (decided made)).maximum = w ∧
      reply.hint = some (Strconv.formatInt (ceilSeconds w))
  order : ∀ ds, ds.Perm (decided made) → hint ietf ds = hint ietf (decided made)

/-- A refusal of the engine: its headers tell by the sign of the wait whether waiting
cures it. -/
structure Refusal (d : Decision) (h : Headers) : Prop where
  headers : d.headers = some h
  incurable : d.costExceedsCapacity = true → h.retryAfter < 0
  curable : d.costExceedsCapacity = false → 0 < h.retryAfter

theorem Refusal.mem_waits {d : Decision} {h : Headers} (hd : Refusal d h) {ds : List Decision}
    (hmem : d ∈ ds) (hrefused : d.allowed = false) : h.retryAfter ∈ refusedWaits ds := by
  refine List.mem_filterMap.mpr ⟨d, hmem, ?_⟩
  simp [refusedWait, hrefused, hd.headers]

theorem exists_of_mem_waits {ds : List Decision} {w : ℤ} (h : w ∈ refusedWaits ds) :
    ∃ d ∈ ds, d.allowed = false ∧ ∃ g, d.headers = some g ∧ g.retryAfter = w := by
  obtain ⟨d, hd, hwait⟩ := List.mem_filterMap.mp h
  unfold refusedWait at hwait
  split_ifs at hwait with hallowed
  obtain ⟨g, hg, hw⟩ := Option.map_eq_some_iff.mp hwait
  exact ⟨d, hd, by simpa using hallowed, g, hg, hw⟩

theorem hint_kinds (ietf : Bool) {ds : List Decision}
    (hds : ∀ d ∈ ds, d.allowed = false → ∃ h, Refusal d h) :
    ((∀ d ∈ ds, d.allowed = false → d.costExceedsCapacity = true) → hint ietf ds = none) ∧
      ((∃ d ∈ ds, d.allowed = false ∧ d.costExceedsCapacity = false) →
        ∃ w : ℤ, (refusedWaits ds).maximum = w ∧
          hint ietf ds = some (Strconv.formatInt (ceilSeconds w))) := by
  constructor
  · intro hall
    rcases hint_cases ietf ds with ⟨-, hhint⟩ | ⟨w, hw, hhint⟩
    · exact hhint
    · obtain ⟨d, hd, hrefused, g, hg, rfl⟩ :=
        exists_of_mem_waits (List.maximum_eq_coe_iff.mp hw).1
      obtain ⟨h, hrefusal⟩ := hds d hd hrefused
      obtain rfl := Option.some.inj (hg.symm.trans hrefusal.headers)
      rw [hhint, if_neg (not_le.mpr (hrefusal.incurable (hall d hd hrefused)))]
  · rintro ⟨d, hd, hrefused, hcurable⟩
    obtain ⟨h, hrefusal⟩ := hds d hd hrefused
    have hmem := hrefusal.mem_waits hd hrefused
    rcases hint_cases ietf ds with ⟨hnil, -⟩ | ⟨w, hw, hhint⟩
    · rw [hnil] at hmem
      cases hmem
    · have hle := (List.maximum_eq_coe_iff.mp hw).2 _ hmem
      have hpos := hrefusal.curable hcurable
      exact ⟨w, hw, by rw [hhint, if_pos (by omega)]⟩

/-- No waiting cures the refused decisions, or waiting cures them all. -/
def OneKind (ds : List Decision) : Prop :=
  (∀ d ∈ ds, d.allowed = false → d.costExceedsCapacity = false) ∨
    ∀ d ∈ ds, d.allowed = false → d.costExceedsCapacity = true

/-- The hint of a whole check is right exactly where it went over the budget or its
refused decisions are of one kind. -/
theorem hintRight_iff {made : List (Attempt S)} {reply : Reply} {ietf : Bool}
    (hgenuine : ∀ d ∈ decided made, d.allowed = false → ∃ h, Refusal d h)
    (hover : OverBudget made → reply.hint = none)
    (hwithin : ¬ OverBudget made → (∃ d ∈ decided made, d.allowed = false) →
      reply.hint = hint ietf (decided made)) :
    HintRight ietf made reply ↔ OverBudget made ∨ OneKind (decided made) := by
  obtain ⟨hnone, hsome⟩ := hint_kinds ietf hgenuine
  constructor
  · intro hright
    by_contra hmixed
    unfold OneKind at hmixed
    push Not at hmixed
    obtain ⟨hbudget, ⟨d, hd, hrefused, hincurable⟩, ⟨d', hd', hrefused', hcurable⟩⟩ := hmixed
    obtain ⟨w, -, hhint⟩ := hsome ⟨d', hd', hrefused', by simpa using hcurable⟩
    have hno := hright.incurable ⟨d, hd, hrefused, by simpa using hincurable⟩
    rw [hwithin hbudget ⟨d, hd, hrefused⟩, hhint] at hno
    cases hno
  · intro hkinds
    refine ⟨fun hincurable => ?_, fun hcurable hrefused hall => ?_, fun ds hds => hint_perm ietf hds⟩
    · obtain ⟨d, hd, hrefused, hexceeds⟩ := hincurable
      rcases hkinds with hbudget | hcurable | hall
      · exact hover hbudget
      · rw [hcurable d hd hrefused] at hexceeds
        cases hexceeds
      · by_cases hbudget : OverBudget made
        · exact hover hbudget
        · rw [hwithin hbudget ⟨d, hd, hrefused⟩]
          exact hnone hall
    · have hbudget : ¬ OverBudget made := by
        rintro ⟨x, hx, n, hn⟩
        obtain ⟨d, hd⟩ := hall x hx
        rw [hd] at hn
        cases hn
      rw [hwithin hbudget hrefused]
      obtain ⟨d, hd, hrefused⟩ := hrefused
      exact hsome ⟨d, hd, hrefused, hcurable d hd hrefused⟩

theorem hintRight_shouldRateLimit {engines : Text → Option (Decider S)} {req : RateLimitRequest}
    (hbound : engines req.domain = some eng) (s : S)
    (hgenuine : ∀ d ∈ decided (srv.attempted eng s req), d.allowed = false → ∃ h, Refusal d h) :
    HintRight srv.ietfHeaders (srv.attempted eng s req) (srv.shouldRateLimit engines s req).2 ↔
      OverBudget (srv.attempted eng s req) ∨ OneKind (decided (srv.attempted eng s req)) := by
  cases hviolates : req.violates with
  | true =>
    have hnone : srv.attempted eng s req = [] := by rw [Server.attempted, if_pos hviolates]
    rw [hnone]
    refine hintRight_iff (by simp [decided]) ?_ ?_
    · rintro ⟨x, hx, -⟩
      cases hx
    · rintro - ⟨d, hd, -⟩
      cases hd
  | false =>
    have hmade : srv.attempted eng s req = attempts eng s (srv.toDecide req) := by
      rw [Server.attempted, hviolates, if_neg Bool.false_ne_true]
    rw [shouldRateLimit_of_sound hbound hviolates]
    rw [hmade] at hgenuine ⊢
    obtain ⟨hover, hwithin⟩ := @decideAll_refused S srv eng (srv.toDecide req) s []
    refine hintRight_iff hgenuine (fun hbudget => ?_) (fun hbudget hrefused => ?_)
    · exact congrArg Reply.hint (hover hbudget)
    · exact congrArg Reply.hint (hwithin hbudget hrefused)

end Answers

section Waits

variable {codec : Codec} {snap : Snapshot} {scope : Key.Scope} {req : Request} {t u : ℕ}
  {m m' : Entries} {d : Decision}

/-- What one refusal of the engine promises: the requests are admitted once the wait
of its headers is over. -/
structure Promises (codec : Codec) (snap : Snapshot) (req : Request) (t : ℕ) (m : Entries)
    (d : Decision) (h : Headers) : Prop extends Refusal d h where
  answerable : Answerable codec snap req
  refuses : admits t m (requestBuckets codec snap req) = false
  later : d.costExceedsCapacity = false → ∀ u : ℕ, t ≤ u → h.retryAfter ≤ microsDuration (u - t) →
    admits u m (requestBuckets codec snap req) = true

theorem promises_of_decide (hsnap : snap.Sound scope) (hkept : Kept t m)
    (hd : (decideRequest codec snap t m req).2 = .ok d) (hrefused : d.allowed = false) :
    ∃ h, Promises codec snap req t m d h := by
  obtain ⟨hadmits, h, hheaders, hcurable, hincurable⟩ := refusal_waits hsnap hkept hd hrefused
  refine ⟨h, ⟨hheaders, fun hexceeds => (hincurable hexceeds).1, fun hcured => ?_⟩,
    Answerable.of_ok hsnap hd, hadmits, fun hcured u hle hwait => (hcurable hcured u hle).mpr hwait⟩
  have hnow := hcurable hcured t le_rfl
  rw [hadmits, Int.sub_self] at hnow
  have hzero : microsDuration 0 = 0 := rfl
  rw [hzero] at hnow
  exact not_le.mp fun hle => Bool.false_ne_true (hnow.mpr hle)

theorem promises_of_peek (hsnap : snap.Sound scope) (hkept : Kept t m)
    (hd : (peekRequest codec snap t m req).2 = .ok d) (hrefused : d.allowed = false) :
    ∃ h, Promises codec snap req t m d h := by
  have hforecast := @forecasts_request codec snap scope req t m hsnap hkept.countsNonneg
  rw [hd] at hforecast
  cases hd' : (decideRequest codec snap t m req).2 with
  | error e =>
    rw [hd'] at hforecast
    exact hforecast.elim
  | ok d' =>
    rw [hd'] at hforecast
    have hpredicts : Predicts snap d d' := hforecast
    have hrefused' : d'.allowed = false := hpredicts.allowed.symm.trans hrefused
    obtain ⟨h, ⟨hheaders, hincurable, hcurable⟩, hanswerable, hrefuses, hlater⟩ :=
      promises_of_decide hsnap hkept hd' hrefused'
    rw [← hpredicts.costExceedsCapacity] at hincurable hcurable hlater
    exact ⟨h, ⟨(hpredicts.refused hrefused').trans hheaders, hincurable, hcurable⟩, hanswerable,
      hrefuses, hlater⟩

theorem admitted_of_admits (hsnap : snap.Sound scope) (hkept : Kept u m')
    (ha : Answerable codec snap req) (hadmits : admits u m' (requestBuckets codec snap req) = true) :
    (∃ d, (decideRequest codec snap u m' req).2 = .ok d ∧ d.allowed = true) ∧
      ∃ d, (peekRequest codec snap u m' req).2 = .ok d ∧ d.allowed = true := by
  obtain ⟨d, hd, hresponse⟩ := decideRequest_eq u m' ha
  have hdecided : (decideRequest codec snap u m' req).2 = .ok d := congrArg Prod.snd hd
  have hallowed : d.allowed = true := (congrArg Response.allowed hresponse).trans hadmits
  refine ⟨⟨d, hdecided, hallowed⟩, ?_⟩
  have hforecast := @forecasts_request codec snap scope req u m' hsnap hkept.countsNonneg
  rw [hdecided] at hforecast
  cases hd' : (peekRequest codec snap u m' req).2 with
  | error e =>
    rw [hd'] at hforecast
    exact hforecast.elim
  | ok d' =>
    rw [hd'] at hforecast
    have hpredicts : Predicts snap d' d := hforecast
    exact ⟨d', rfl, hpredicts.allowed.trans hallowed⟩

theorem sameHeld_decide {h : Headers} (hpromise : Promises codec snap req t m d h) :
    SameHeld (requestBuckets codec snap req) m t (decideRequest codec snap t m req).1 :=
  sameHeld_refused hpromise.answerable (fun _ _ _ _ => rfl) hpromise.refuses

theorem sameHeld_peek (hsnap : snap.Sound scope) (hreach : Reachable t m) :
    SameHeld (requestBuckets codec snap req) m t (peekRequest codec snap t m req).1 := by
  intro b _ u hle
  have hagree := @agreeOn_peek codec snap scope req t m hsnap hreach
  exact (hagree.later (by exact_mod_cast hle)).held_eq (Set.mem_univ b.key)

theorem ceilSeconds_le {w : ℤ} : w ≤ ceilSeconds w * Algo.second := by
  unfold ceilSeconds
  split_ifs with hneg
  · omega
  · rw [Int.tdiv_eq_ediv_of_nonneg (by unfold Algo.second; omega)]
    unfold Algo.second
    omega

/-- The descriptor of a call, asked again with nothing else in between, is admitted. -/
def AdmittedAt (codec : Codec) (snap : Snapshot) (u : ℕ) (x : Attempt (Entries × ℕ)) : Prop :=
  ∃ d, ((memoryEngine codec snap fun _ => ⟨[], u, none⟩).attempt x.after x.check).2 = .ok d ∧
    d.allowed = true

theorem promise_kept {namespaceName domain : Text} {p : Option Model.Policy} {moments : ℕ → Moment}
    {x : Attempt (Entries × ℕ)}
    (hfound : Reachable (moments x.before.2).now ((moments x.before.2).store x.before.1))
    (hleft : Reachable (moments x.before.2).now x.after.1)
    (hown : (memoryEngine codec (compile namespaceName domain p).1 moments).attempt x.before x.check =
      (x.after, .ok d)) (hrefused : d.allowed = false) :
    ∃ h, Refusal d h ∧ (d.costExceedsCapacity = false → ∀ u : ℕ, (moments x.before.2).now ≤ u →
      h.retryAfter ≤ microsDuration (u - (moments x.before.2).now) →
        AdmittedAt codec (compile namespaceName domain p).1 u x) := by
  obtain ⟨scope, hsnap⟩ := compile_sound namespaceName domain p
  have hcall := attempt_decided hown
  unfold AdmittedAt Decider.attempt memoryEngine
  dsimp only
  split_ifs at hcall ⊢ with hfree <;>
    have hafter := congrArg Prod.fst hcall <;> have hd := congrArg Prod.snd hcall
  · obtain ⟨h, hpromise⟩ := promises_of_peek hsnap hfound.kept hd.symm hrefused
    refine ⟨h, hpromise.toRefusal, fun hcured u hle hwait => ?_⟩
    have hsame := @sameHeld_peek codec _ scope x.check.request _ _ hsnap hfound
    rw [← hafter] at hsame
    have hadmits := (admits_of_sameHeld hsame hle).trans (hpromise.later hcured u hle hwait)
    exact (admitted_of_admits hsnap (hleft.wait hle).kept hpromise.answerable hadmits).2
  · obtain ⟨h, hpromise⟩ := promises_of_decide hsnap hfound.kept hd.symm hrefused
    refine ⟨h, hpromise.toRefusal, fun hcured u hle hwait => ?_⟩
    have hsame := sameHeld_decide hpromise
    rw [← hafter] at hsame
    have hadmits := (admits_of_sameHeld hsame hle).trans (hpromise.later hcured u hle hwait)
    exact (admitted_of_admits hsnap (hleft.wait hle).kept hpromise.answerable hadmits).1

/-- The hint of a check is right exactly where it went over the budget or its refused decisions are all
of one kind. Whoever waits for the longest of the waits finds each curable one admitted where
nothing else ran since. -/
theorem retryHint_right_iff (srv : Server) (req : RateLimitRequest) :
    (∀ (S : Type) (engines : Text → Option (Decider S)) (eng : Decider S) (s : S),
      engines req.domain = some eng →
      (∀ d ∈ decided (srv.attempted eng s req), d.allowed = false → ∃ h, Refusal d h) →
      (HintRight srv.ietfHeaders (srv.attempted eng s req) (srv.shouldRateLimit engines s req).2 ↔
        OverBudget (srv.attempted eng s req) ∨ OneKind (decided (srv.attempted eng s req)))) ∧
    ∀ (codec : Codec) (namespaceName : Text) (p : Option Model.Policy) (moments : ℕ → Moment) (t : ℕ)
      (m : Entries), Reachable t m → ClockRuns t moments →
      let snap := (compile namespaceName req.domain p).1
      let made := srv.attempted (memoryEngine codec snap moments) (m, 0) req
      ∀ x ∈ made, ∀ d, x.outcome = .ok d → d.allowed = false →
        (∃ h, Refusal d h) ∧ (d.costExceedsCapacity = false → ∀ w : ℤ,
          (refusedWaits (decided made)).maximum = w → ∀ u : ℕ,
          (moments x.before.2).now + ceilSeconds w * 1000000 ≤ u → AdmittedAt codec snap u x) := by
  refine ⟨fun S engines eng s => fun hbound => hintRight_shouldRateLimit hbound s, ?_⟩
  intro codec namespaceName p moments t m hreach hclock snap made x hx d hd hrefused
  obtain ⟨hfound, hleft, hown⟩ := reachable_attempted hreach hclock hx
  rw [hd] at hown
  obtain ⟨h, hrefusal, hlater⟩ := promise_kept hfound hleft hown hrefused
  refine ⟨⟨h, hrefusal⟩, fun hcured w hw u hu => ?_⟩
  have hmem : d ∈ decided made := List.mem_filterMap.mpr ⟨x, hx, by rw [hd]; rfl⟩
  have hle := (List.maximum_eq_coe_iff.mp hw).2 _ (hrefusal.mem_waits hmem hrefused)
  have hceil := @ceilSeconds_le w
  have hpos := hrefusal.curable hcured
  unfold Algo.second at hceil
  apply hlater hcured
  · omega
  · unfold microsDuration Algo.microsecond
    omega

end Waits

section Sample

theorem retryHint_right_spent :
    let srv : Server := ⟨true, [], []⟩
    let made := srv.attempted edgeEngine (spentStore, 0) (edgeCheck [60, 100])
    (decided made).map (fun d => (d.allowed, d.costExceedsCapacity)) =
        [(false, false), (false, false)] ∧
      HintRight true made (srv.shouldRateLimit (fun _ => some edgeEngine) (spentStore, 0)
        (edgeCheck [60, 100])).2 := by
  intro srv made
  have hkinds : (decided made).map (fun d => (d.allowed, d.costExceedsCapacity)) =
      [(false, false), (false, false)] := by
    decide +kernel
  obtain ⟨hright, hrefused⟩ := retryHint_right_iff srv (edgeCheck [60, 100])
  refine ⟨hkinds, (hright _ _ edgeEngine _ rfl fun d hd hnot => ?_).mpr
    (Or.inr (Or.inl fun d hd _ => ?_))⟩
  · obtain ⟨x, hx, hdecided⟩ := List.mem_filterMap.mp hd
    have houtcome : x.outcome = .ok d := by
      cases hx' : x.outcome <;> rw [hx'] at hdecided <;> cases hdecided
      rfl
    exact (hrefused _ _ _ _ _ _ ((Reachable.empty 0).decide _ _ _ _ burstRequest) clockRuns_edge x hx
      d houtcome hnot).1
  · have hmem := List.mem_map_of_mem (f := fun d => (d.allowed, d.costExceedsCapacity)) hd
    rw [hkinds] at hmem
    have hkind : d.allowed = false ∧ d.costExceedsCapacity = false := by simpa using hmem
    exact hkind.2

/-- The edge rule admits bursts of 100: the first cost is beyond it, the second waits for
the burst to come back. A check that can never pass tells its caller to retry. -/
theorem retryHint_of_mixed :
    ((decided ((⟨true, [], []⟩ : Server).attempted edgeEngine (spentStore, 0)
      (edgeCheck [200, 100]))).map fun d => (d.allowed, d.costExceedsCapacity)) =
        [(false, true), (false, false)] ∧
    ((⟨true, [], []⟩ : Server).shouldRateLimit (fun _ => some edgeEngine) (spentStore, 0)
      (edgeCheck [200, 100])).2.hint = some (ascii "1") := by
  decide +kernel

end Sample

end Ratelimit.Rls
