import Ratelimit.Management.HandlerContract

/-!
# What an addressed call may send and answer

The contract of the addressed handler. It reads the record of its key, may peek,
and sends one step over keys that the rule it judged computes. A body it answers
is the recorded one, or its own with the count that the store reported.
-/
namespace Ratelimit.Management

open Library Records Store

def isReset : Req → Bool
  | .reset _ => true
  | _ => false

structure Addressing where
  call : ResetCall
  served : Served call.scope.domain
  record : Text

namespace Addressing

variable (std : Stdlib) (a : Addressing)

def judge : Except ApiError ResetCommand :=
  judgeReset std a.served.snapshot a.served.version a.call.query

def answer (c : ResetCommand) : ResetResponse :=
  resetAnswer a.served.snapshot.domain a.served.version c

def Refusing (c : ResetCommand) (τ : Seen) (k : Text) : Prop :=
  ∃ verdicts b v, τ.getLast? = some ⟨.peek (c.buckets c.keys), some (.ok verdicts)⟩ ∧
    (b, v) ∈ (c.buckets c.keys).zip verdicts ∧ b.key = k ∧ v.allowed = false

structure Sends (c : ResetCommand) (τ : Seen) (r : Addressed) : Prop where
  judged : a.judge std = .ok c
  record : r.record = a.record
  command : r.command = c.hash std
  dryRun : r.dryRun = c.dryRun
  answer : r.answer = a.answer c
  delete : ∀ k ∈ r.delete, k ∈ c.keys
  limited : c.selector.limitedOnly = true → ∀ k ∈ r.delete, Refusing c τ k

def Permits (τ : Seen) : Req → Prop
  | .fields k => k = a.record
  | .holder k => k = []
  | .pttl k => k = []
  | .peek _ => True
  | .reset r => made isReset τ = 0 ∧ ∃ c, a.Sends std c τ r
  | _ => False

def reads (fields : Option (Option Fields)) (holder : Option (Option Text)) (ttl : Option ℤ) : Seen :=
  [⟨.fields a.record, fields⟩, ⟨.holder [], holder⟩, ⟨.pttl [], ttl⟩]

def Replays (τ : Seen) (body : ResetResponse) : Prop :=
  ∃ f holder ttl binding answer, τ = a.reads (some (some f)) holder ttl ∧
    resetBinding std a.call.query = .ok binding ∧ f.command.getD [] = binding ∧
    f.answer = some answer ∧ body = counted answer (recordOf (some f)).progress.reset

/-- The body is the call's own, with the count of the step it sent. -/
def Executes (τ : Seen) (body : ResetResponse) : Prop :=
  ∃ c τ' r verdict count, τ = τ' ++ [⟨.reset r, some verdict⟩] ∧ a.Sends std c τ' r ∧
    (verdict = .done count ∨ ∃ answer, verdict = .replayed (c.hash std) (some count) answer) ∧
    body = counted (a.answer c) count

def Answers (τ : Seen) (resp : Response ResetResponse) : Prop :=
  ∀ body, resp = .body body → a.Replays std τ body ∨ a.Executes std τ body

end Addressing

section Handler

variable {std : Stdlib} {a : Addressing} {c : ResetCommand} {τ : Seen} {drop : List Text}

theorem answers_refused (e : ApiError) : a.Answers std τ (.refused e) := fun _ h => by cases h

theorem answers_executed {r : Addressed} {verdict : ResetVerdict} {count : ℕ}
    (hr : a.Sends std c τ r)
    (hverdict : verdict = .done count ∨
      ∃ answer, verdict = .replayed (c.hash std) (some count) answer) :
    a.Answers std (τ ++ [⟨.reset r, some verdict⟩]) (.body (counted (a.answer c) count)) := by
  intro body hbody
  obtain rfl := Response.body.inj hbody
  exact Or.inr ⟨c, τ, r, verdict, count, rfl, hr, hverdict, rfl⟩

theorem obeys_dropKeys (hunsent : made isReset τ = 0)
    (hr : a.Sends std c τ ⟨a.record, c.hash std, drop, c.dryRun, a.answer c⟩) :
    Obeys (a.Permits std) (a.Answers std) τ (dropKeys std a.record c (a.answer c) drop) := by
  refine obeys_bind.mpr (obeys_ask.mpr ⟨⟨hunsent, c, hr⟩, fun verdict => ?_⟩)
  rcases verdict with _ | (⟨command, _ | count, answer⟩ | count)
  · exact answers_refused _
  · exact answers_refused _
  · simp only [Option.map_some, obeys_pure]
    rw [obeys_ite]
    constructor
    · exact fun _ => answers_refused _
    · intro hsame
      have hcommand : command = c.hash std := by simpa using hsame
      exact answers_executed hr (Or.inr ⟨answer, by rw [hcommand]⟩)
  · simp only [obeys_pure]
    rw [obeys_ite]
    constructor
    · intro hreplayed
      cases hreplayed.1
    · exact fun _ => answers_executed hr (Or.inl rfl)

theorem key_of_buckets {b : Bucket} {computed : List Text} (hb : b ∈ c.buckets computed) :
    b.key ∈ computed := by
  obtain ⟨k, hk, hkb⟩ := List.mem_filterMap.mp hb
  obtain ⟨rate, -, rfl⟩ := Option.map_eq_some_iff.mp hkb
  exact hk

theorem obeys_runReset (hjudged : a.judge std = .ok c) (hunsent : made isReset τ = 0) :
    Obeys (a.Permits std) (a.Answers std) τ
      (runReset std a.served.snapshot.domain a.served.version a.record c) := by
  unfold runReset
  rw [obeys_ite, obeys_ite]
  refine ⟨fun _ => answers_refused _, fun _ => ⟨fun _ => ?_, fun hall => ?_⟩⟩
  · refine obeys_bind.mpr (obeys_ask.mpr ⟨trivial, fun answer => ?_⟩)
    rcases answer with _ | (_ | verdicts)
    · exact answers_refused _
    · exact answers_refused _
    · simp only []
      rw [obeys_ite]
      constructor
      · exact fun _ => answers_refused _
      · intro _
        apply obeys_dropKeys
        · rw [made_snoc, hunsent]
          rfl
        · have hmem : ∀ {k}, k ∈ ((((c.buckets c.keys).zip verdicts).filter
              fun p => !p.2.allowed).map fun p => p.1.key) →
              ∃ b v, (b, v) ∈ (c.buckets c.keys).zip verdicts ∧ b.key = k ∧ v.allowed = false := by
            intro k hk
            obtain ⟨⟨b, v⟩, hbv, rfl⟩ := List.mem_map.mp hk
            obtain ⟨hzip, hrefused⟩ := List.mem_filter.mp hbv
            exact ⟨b, v, hzip, rfl, by simpa using hrefused⟩
          refine ⟨hjudged, rfl, rfl, rfl, rfl, fun k hk => ?_, fun _ k hk => ?_⟩
          · obtain ⟨b, v, hzip, rfl, -⟩ := hmem hk
            exact key_of_buckets (List.of_mem_zip hzip).1
          · obtain ⟨b, v, hzip, hkey, hrefused⟩ := hmem hk
            exact ⟨verdicts, b, v, List.getLast?_concat, hzip, hkey, hrefused⟩
  · refine obeys_dropKeys hunsent ⟨hjudged, rfl, rfl, rfl, rfl, fun _ hk => hk, fun hlimited => ?_⟩
    exact absurd hlimited hall

/-- What `resolveReset` does where the call is no retry. -/
def Addressing.decided (std : Stdlib) (a : Addressing) : Client (Response ResetResponse) :=
  match judgeReset std a.served.snapshot a.served.version a.call.query with
  | .error e => pure (.refused e)
  | .ok c => runReset std a.served.snapshot.domain a.served.version a.record c

theorem obeys_resolveReset : Obeys (a.Permits std) (a.Answers std) []
    (resolveReset std a.call a.served a.record) := by
  have hlater : ∀ {τ : Seen}, made isReset τ = 0 → Obeys (a.Permits std) (a.Answers std) τ
      (a.decided std) := by
    intro τ hunsent
    unfold Addressing.decided
    cases hjudged : judgeReset std a.served.snapshot a.served.version a.call.query with
    | error e => exact answers_refused e
    | ok c => exact obeys_runReset hjudged hunsent
  unfold resolveReset replayReset
  refine obeys_bind.mpr ?_
  cases hbinding : resetBinding std a.call.query with
  | error e => exact hlater rfl
  | ok binding =>
    refine obeys_bind.mpr (obeys_ask.mpr ⟨rfl, fun fields => obeys_ask.mpr ⟨rfl, fun holder =>
      obeys_ask.mpr ⟨rfl, fun ttl => ?_⟩⟩⟩)
    simp only [obeys_pure]
    have hunsent : made isReset (a.reads fields holder ttl) = 0 := rfl
    cases hlooked : looked fields holder ttl with
    | none => exact answers_refused _
    | some found =>
      cases hanswer : found.answer with
      | none =>
        simp only [hanswer]
        exact hlater hunsent
      | some answer =>
        simp only [hanswer]
        split_ifs with hmissing hcommand
        · exact hlater hunsent
        · exact answers_refused _
        · obtain ⟨hfound, -⟩ := not_or.mp hmissing
          obtain ⟨f, h, rfl, rfl, hlease⟩ := looked_found hlooked (by simpa using hfound)
          obtain ⟨_, _, rfl⟩ := withLease_eq hlease
          intro body hbody
          obtain rfl := Response.body.inj hbody
          exact Or.inl ⟨f, some h, ttl, binding, answer, rfl, hbinding, not_not.mp hcommand, hanswer, rfl⟩

end Handler

end Ratelimit.Management
