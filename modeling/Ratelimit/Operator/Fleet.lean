import Ratelimit.Config.Replica
import Ratelimit.Operator.Generations

/-!
# What the leader sees of the fleet

The status of a policy is judged from the compilation and from what the replicas
report. The leader asks every ready endpoint of the service what it enforces, in
rounds that the policies of the namespace share while they are fresh.
-/
namespace Ratelimit.Operator

open Api

/-- One ready pod behind the service, and the port to ask it on. -/
structure Endpoint where
  name : Text
  address : Text
  port : ℤ
  deriving DecidableEq

structure FleetView where
  takenAt : ℤ
  refreshAt : ℤ
  total : ℕ
  applied : ℕ
  behind : List Text
  silent : List Text
  refusing : List Text

/-- One round of answers, or the error that failed the whole of it. -/
structure FleetRound where
  taken : ℤ
  completed : ℤ
  endpoints : List Endpoint
  answers : Finmap fun _ : Endpoint => Config.Report
  silent : List Text
  err : Option Message

structure ReplicaProbe where
  freshness : ℤ
  round : Option FleetRound

def sortStrings (names : List Text) : List Text := names.insertionSort (· ≤ ·)

section Rounds

def probeInterval : ℤ := 10 * Algo.second

/-- Every endpoint is asked, those that answer and those that do not. -/
def takeRound (now completed : ℤ) (replies : List (Endpoint × Except Message Config.Report)) :
    FleetRound where
  taken := now
  completed := completed
  endpoints := replies.map Prod.fst
  answers := replies.foldl (fun answers reply =>
    match reply.2 with
    | .ok report => answers.insert reply.1 report
    | .error _ => answers) ∅
  silent := sortStrings (replies.filterMap fun reply =>
    match reply.2 with
    | .ok _ => none
    | .error _ => some reply.1.name)
  -- nobody answered: a statement about the leader's reach, not about the fleet
  err :=
    if replies.all fun reply => !reply.2.isOk then
      (replies.getLast?.bind fun reply =>
        match reply.2 with
        | .ok _ => none
        | .error err => some err).map (Message.wrap "no replica answered /debug/applied: " [])
    else none

/-- The round an observation is answered from: the one taken earlier while it is fresh
and of the same endpoints, or a new one. -/
def ReplicaProbe.currentRound (p : ReplicaProbe) (now completed : ℤ)
    (endpoints : Except Message (List Endpoint))
    (ask : ℕ → Endpoint → Except Message Config.Report) (fresh : Bool) : FleetRound :=
  match endpoints with
  | .error err => ⟨now, now, [], ∅, [], some err⟩
  | .ok endpoints =>
    match p.round.filter fun round => !fresh && decide (now - round.completed < p.freshness) &&
        decide (endpoints = round.endpoints) with
    | some round => round
    | none => takeRound now completed (endpoints.mapIdx fun i endpoint => (endpoint, ask i endpoint))

/-- The endpoint reported the generation and the object asked about. -/
def FleetRound.applied (r : FleetRound) (domain : Text) (generation : ℤ) (uid : Text)
    (endpoint : Endpoint) : Bool :=
  match r.answers.lookup endpoint with
  | none => false
  | some report =>
    match report.domains.lookup domain with
    | none => false
    | some reported => decide (reported.generation = generation ∧ reported.uid = uid)

/-- Counts the replicas of one domain from the answers. -/
def FleetRound.view (r : FleetRound) (domain : Text) (generation : ℤ) (uid : Text)
    (freshness : ℤ) : FleetView where
  takenAt := r.taken
  refreshAt := if freshness > 0 then r.completed + freshness else r.taken + probeInterval
  total := r.endpoints.length
  applied := (r.endpoints.filter (r.applied domain generation uid)).length
  behind := sortStrings ((r.endpoints.filter fun endpoint =>
    (r.answers.lookup endpoint).isSome && !r.applied domain generation uid endpoint).map
      Endpoint.name)
  silent := r.silent
  refusing := sortStrings ((r.endpoints.filter fun endpoint =>
    match r.answers.lookup endpoint with
    | none => false
    | some report => report.refusal.isSome).map Endpoint.name)

/-- `Observe`. -/
def FleetRound.observe (r : FleetRound) (domain : Text) (generation : ℤ) (uid : Text)
    (freshness : ℤ) : Except Message FleetView :=
  match r.err with
  | some err => .error err
  | none => .ok (r.view domain generation uid freshness)

end Rounds

section Judging

inductive ConditionStatus where
  | conditionTrue
  | conditionFalse
  | conditionUnknown
  deriving DecidableEq

inductive FleetReason where
  | allReplicas
  | reconciling
  | propagating
  | noReplicas
  | replicaStale
  | notCompiled
  | probeFailed
  | configMapTooLarge
  | replicaFormatUnsupported
  | progressing
  deriving DecidableEq

/-- Whether the rules are the ones being enforced, and if not, why. -/
structure FleetStatus where
  ready : ConditionStatus
  readyReason : FleetReason
  readyMessage : Message
  stalled : ConditionStatus
  stalledReason : FleetReason
  deriving DecidableEq

/-- The first few names of a list, with a count of the rest. -/
def someOf (names : List Text) : Text :=
  if names.length ≤ 3 then (ascii ", ").intercalate names
  else (ascii ", ").intercalate (names.take 3) ++ ascii " and " ++
    Strconv.formatInt (names.length - 3 : ℕ) ++ ascii " more"

/-- Why the last-good generation is not in effect either, when there was one. -/
def unprotectedMessage (message : Message) (outcome : Outcome) : Message :=
  match outcome.lastGoodLost with
  | none => message
  | some lost => ⟨message.format ++ "; " ++ lost.format, message.args ++ lost.args⟩

def notCompiledMessage (outcome : Outcome) : Message :=
  if outcome.activeGeneration = 0 then
    unprotectedMessage ⟨"no generation is enforced: domain is unprotected", []⟩ outcome
  else ⟨"generation %d does not compile; generation %d remains enforced",
    [.number outcome.generation, .number outcome.activeGeneration]⟩

def tooLargeMessage (outcome : Outcome) : Message :=
  let reason := outcome.tooLargeReason.getD ⟨"", []⟩
  if outcome.activeGeneration = 0 then
    unprotectedMessage (reason.wrap
      "generation %d does not fit the namespace's ConfigMap and nothing is enforced: "
      [.number outcome.generation]) outcome
  else reason.wrap
    "generation %d does not fit the namespace's ConfigMap; generation %d keeps serving: "
    [.number outcome.generation, .number outcome.activeGeneration]

def refusingMessage (outcome : Outcome) (view : FleetView) : Message :=
  ⟨"%d of %d ready replicas enforce generation %d; %s refused the manifest's format " ++
      "and keep an earlier snapshot: upgrade the service before the operator",
    [.number view.applied, .number view.total, .number outcome.activeGeneration,
      .text (someOf view.refusing)]⟩

def behindMessage (outcome : Outcome) (view : FleetView) : Message :=
  let add (message : Message) (names : List Text) (format : String) : Message :=
    if names = [] then message
    else ⟨message.format ++ format, message.args ++ [.text (someOf names)]⟩
  add (add ⟨"%d of %d replicas enforce generation %d", [.number view.applied, .number view.total,
    .number outcome.activeGeneration]⟩ view.behind "; %s report another")
    view.silent "; %s did not answer"

def stuck (reason : FleetReason) (message : Message) : FleetStatus :=
  ⟨.conditionFalse, reason, message, .conditionTrue, reason⟩

def inProgress (ready : ConditionStatus) (reason : FleetReason) (message : Message) : FleetStatus :=
  ⟨ready, reason, message, .conditionFalse, .progressing⟩

def defaultPropagationDeadline : ℤ := 90 * Algo.second

/-- Ready and Stalled, from the compilation and the fleet. -/
def judge (outcome : Outcome) (observed : Except Message FleetView) (since deadline : ℤ) :
    FleetStatus :=
  let deadline := if deadline ≤ 0 then defaultPropagationDeadline else deadline
  if !outcome.compiled then stuck .notCompiled (notCompiledMessage outcome)
  else if outcome.tooLarge then stuck .configMapTooLarge (tooLargeMessage outcome)
  else
    match observed with
    | .error err =>
      ⟨.conditionUnknown, .probeFailed, err.wrap "the replicas could not be observed: " [],
        .conditionUnknown, .probeFailed⟩
    | .ok view =>
      if view.total = 0 then
        inProgress .conditionFalse .noReplicas
          ⟨"the service has no ready endpoint: nothing is enforcing this policy", []⟩
      else if view.applied = view.total then
        inProgress .conditionTrue .allReplicas ⟨"all %d ready replicas enforce generation %d",
          [.number view.total, .number outcome.activeGeneration]⟩
      else if view.refusing ≠ [] then
        stuck .replicaFormatUnsupported (refusingMessage outcome view)
      else if deadline < since then stuck .replicaStale (behindMessage outcome view)
      else if view.applied = 0 then
        inProgress .conditionFalse .reconciling (behindMessage outcome view)
      else inProgress .conditionFalse .propagating (behindMessage outcome view)

end Judging

variable {outcome : Outcome} {observed : Except Message FleetView} {since deadline : ℤ}

/-- Ready is true exactly where the generation compiles and fits and replicas, all of
them, report it. -/
theorem judge_ready : (judge outcome observed since deadline).ready = .conditionTrue ↔
    outcome.err = none ∧ outcome.tooLarge = false ∧
      ∃ view, observed = .ok view ∧ view.total ≠ 0 ∧ view.applied = view.total := by
  unfold judge Outcome.compiled stuck inProgress
  cases herr : outcome.err with
  | some err => simp
  | none =>
    cases htoo : outcome.tooLarge with
    | true => simp
    | false =>
      cases observed with
      | error err => simp
      | ok view =>
        by_cases htotal : view.total = 0
        · simp [htotal]
        · by_cases happlied : view.applied = view.total
          · simp [htotal, happlied]
          · simp only [htotal, happlied]
            split_ifs <;> simp_all

theorem applied_of_all {r : FleetRound} {domain uid : Text} {generation freshness : ℤ}
    (h : (r.view domain generation uid freshness).applied =
      (r.view domain generation uid freshness).total) :
    ∀ e ∈ r.endpoints, ∃ report reported, r.answers.lookup e = some report ∧
      report.domains.lookup domain = some reported ∧ reported.generation = generation ∧
      reported.uid = uid := by
  intro e he
  have hall : r.applied domain generation uid e = true :=
    List.length_filter_eq_length_iff.mp h e he
  unfold FleetRound.applied at hall
  split at hall
  · cases hall
  · next report hreport =>
    split at hall
    · cases hall
    · next reported hreported =>
      obtain ⟨hgeneration, huid⟩ := of_decide_eq_true hall
      exact ⟨report, reported, hreport, hreported, hgeneration, huid⟩

theorem lookup_takeRound {now completed : ℤ}
    {replies : List (Endpoint × Except Message Config.Report)} {e : Endpoint}
    {report : Config.Report} (h : (takeRound now completed replies).answers.lookup e = some report) :
    (e, .ok report) ∈ replies := by
  have hfold : ∀ answers : Finmap fun _ : Endpoint => Config.Report,
      (replies.foldl (fun answers reply =>
        match reply.2 with
        | .ok report => answers.insert reply.1 report
        | .error _ => answers) answers).lookup e = some report →
      (e, .ok report) ∈ replies ∨ answers.lookup e = some report := by
    intro answers hlookup
    clear h
    induction replies generalizing answers with
    | nil => exact Or.inr hlookup
    | cons reply replies ih =>
      obtain ⟨e', answer⟩ := reply
      rcases ih _ hlookup with hmem | hbefore
      · exact Or.inl (List.mem_cons_of_mem _ hmem)
      · cases answer with
        | error err => exact Or.inr hbefore
        | ok report' =>
          by_cases heq : e = e'
          · subst heq
            rw [Finmap.lookup_insert] at hbefore
            obtain rfl := Option.some.inj hbefore
            exact Or.inl List.mem_cons_self
          · rw [Finmap.lookup_insert_of_ne _ heq] at hbefore
            exact Or.inr hbefore
  rcases hfold ∅ h with hmem | hempty
  · exact hmem
  · cases hempty

section Probing

/-- One observation: its time, the endpoints it finds and what they would answer. -/
structure Observation where
  now : ℤ
  completed : ℤ
  endpoints : Except Message (List Endpoint)
  ask : ℕ → Endpoint → Except Message Config.Report
  fresh : Bool

def ReplicaProbe.roundOf (p : ReplicaProbe) (o : Observation) : FleetRound :=
  p.currentRound o.now o.completed o.endpoints o.ask o.fresh

/-- The round of a probe that has none to reuse. -/
def Observation.taken (o : Observation) : FleetRound := ReplicaProbe.roundOf ⟨0, none⟩ o

/-- The probe keeps the round of its last observation, a failed one as well. -/
def ReplicaProbe.after (freshness : ℤ) (os : List Observation) : ReplicaProbe :=
  os.foldl (fun p o => { p with round := some (p.roundOf o) }) ⟨freshness, none⟩

theorem roundOf_cases (p : ReplicaProbe) (o : Observation) : p.roundOf o = o.taken ∨
    p.round = some (p.roundOf o) ∧ o.fresh = false ∧ o.endpoints = .ok (p.roundOf o).endpoints ∧
      o.now - (p.roundOf o).completed < p.freshness := by
  unfold Observation.taken ReplicaProbe.roundOf ReplicaProbe.currentRound
  cases o.endpoints with
  | error err => exact Or.inl rfl
  | ok endpoints =>
    dsimp only
    split
    · next round hround =>
      obtain ⟨hkept, hreused⟩ := Option.filter_eq_some_iff.mp hround
      simp only [Bool.and_eq_true, Bool.not_eq_true', decide_eq_true_eq] at hreused
      exact Or.inr ⟨hkept, hreused.1.1, congrArg _ hreused.2, hreused.1.2⟩
    · exact Or.inl rfl

theorem freshness_after (freshness : ℤ) (os : List Observation) :
    (ReplicaProbe.after freshness os).freshness = freshness := by
  induction os using List.reverseRecOn with
  | nil => rfl
  | append_singleton os o ih =>
    rw [ReplicaProbe.after, List.foldl_append]
    exact ih

theorem round_after {freshness : ℤ} {os : List Observation} {round : FleetRound}
    (h : (ReplicaProbe.after freshness os).round = some round) : ∃ o ∈ os, round = o.taken := by
  induction os using List.reverseRecOn with
  | nil => cases h
  | append_singleton os o ih =>
    rw [ReplicaProbe.after, List.foldl_append] at h
    obtain rfl := Option.some.inj h
    rcases roundOf_cases (.after freshness os) o with htaken | ⟨hkept, -⟩
    · exact ⟨o, by simp, htaken⟩
    · obtain ⟨o', ho', htaken⟩ := ih hkept
      exact ⟨o', List.mem_append_left _ ho', htaken⟩

theorem endpoints_taken (o : Observation) : o.endpoints = .ok o.taken.endpoints ∨
    o.taken.endpoints = [] ∧ ∃ err, o.endpoints = .error err ∧ o.taken.err = some err := by
  unfold Observation.taken ReplicaProbe.roundOf ReplicaProbe.currentRound
  cases hlisted : o.endpoints with
  | error err => exact Or.inr ⟨rfl, err, rfl, rfl⟩
  | ok endpoints =>
    refine Or.inl (congrArg Except.ok ?_)
    change endpoints = (endpoints.mapIdx fun i e => (e, o.ask i e)).map Prod.fst
    refine List.ext_getElem? fun i => ?_
    rw [List.getElem?_map, List.getElem?_mapIdx, Option.map_map]
    exact Option.map_id'.symm

/-- After any observations, the next one is answered from a round of its own, or from all of the
round of an earlier one, which is fresh and of the endpoints of now. Where none is ready now, it
may be the failure of an earlier one to list them. -/
theorem roundOf_after (freshness : ℤ) (os : List Observation) (o : Observation) :
    let round := (ReplicaProbe.after freshness os).roundOf o
    round = o.taken ∨ o.fresh = false ∧ o.endpoints = .ok round.endpoints ∧
      o.now - round.completed < freshness ∧ ∃ o' ∈ os, round = o'.taken ∧
        (o'.endpoints = o.endpoints ∨
          o.endpoints = .ok [] ∧ ∃ err, o'.endpoints = .error err ∧ round.err = some err) := by
  intro round
  rcases roundOf_cases (.after freshness os) o with htaken | ⟨hkept, hfresh, hsame, hage⟩
  · exact Or.inl htaken
  · rw [freshness_after] at hage
    obtain ⟨o', ho', htaken⟩ := round_after hkept
    refine Or.inr ⟨hfresh, hsame, hage, o', ho', htaken, ?_⟩
    have hcases := endpoints_taken o'
    rw [← htaken] at hcases
    rw [hsame]
    rcases hcases with hlisted | ⟨hnone, hfailed⟩
    · exact Or.inl hlisted
    · exact Or.inr ⟨congrArg Except.ok hnone, hfailed⟩

end Probing

end Ratelimit.Operator
