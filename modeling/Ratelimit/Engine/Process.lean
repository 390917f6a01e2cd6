import Ratelimit.Engine.Reachable

/-!
# Runs of one engine process

A process answers decisions and peeks under whatever policy is in force at the
time, and operators reset and scan its counters. Its stores stay reachable, calls
tell two stores apart only by their live entries, and a peek leaves those alone.
-/
namespace Ratelimit.Engine

open Algo Store Match Compile Identity Library Memory

section Runs

/-- Decisions under any compiled policy, and the calls of operators. -/
inductive Action where
  | decide (codec : Codec) (namespaceName domain : Text) (p : Option Model.Policy) (req : Request)
  | peek (codec : Codec) (namespaceName domain : Text) (p : Option Model.Policy) (req : Request)
  | reset (ks : List Text)
  | scan (pre cursor : Text) (limit : ℤ)

structure Event where
  now : ℕ
  action : Action

inductive Returned where
  | decided (d : Except Failure Decision)
  | done
  | listed (page : Except Message (List Text × Text))

def perform (m : Entries) (e : Event) : Entries × Returned :=
  match e.action with
  | .decide codec namespaceName domain p req =>
    let r := decideRequest codec (compile namespaceName domain p).1 e.now m req
    (r.1, .decided r.2)
  | .peek codec namespaceName domain p req =>
    let r := peekRequest codec (compile namespaceName domain p).1 e.now m req
    (r.1, .decided r.2)
  | .reset ks => (storeReset m ks, .done)
  | .scan pre cursor limit =>
    let r := storeScan e.now m pre cursor limit
    (r.1, .listed r.2)

def Event.IsPeek (e : Event) : Prop :=
  ∃ codec namespaceName domain p req, e.action = .peek codec namespaceName domain p req

variable {codec : Codec} {snap : Snapshot} {scope : Key.Scope} {req : Request} {t : ℕ}
  {m m' : Entries}

theorem reachable_perform {e : Event} (h : Reachable e.now m) : Reachable e.now (perform m e).1 := by
  obtain ⟨now, action⟩ := e
  cases action with
  | decide codec namespaceName domain p req => exact h.decide codec namespaceName domain p req
  | peek codec namespaceName domain p req => exact h.peek codec namespaceName domain p req
  | reset ks => exact h.reset ks
  | scan pre cursor limit => exact h.scan pre cursor limit

theorem evaluate_agreeOn {judge : Entries → List Bucket → Entries × Answer} {now : ℤ}
    (hjudge : (judge m (requestBuckets codec snap req)).2 =
        (judge m' (requestBuckets codec snap req)).2 ∧
      AgreeOn Set.univ now (judge m (requestBuckets codec snap req)).1
        (judge m' (requestBuckets codec snap req)).1)
    (h : AgreeOn Set.univ now m m') :
    (evaluate codec snap judge m req).2 = (evaluate codec snap judge m' req).2 ∧
      AgreeOn Set.univ now (evaluate codec snap judge m req).1
        (evaluate codec snap judge m' req).1 := by
  by_cases hnil : requestBuckets codec snap req = []
  · obtain ⟨targeted, skips, names, heq⟩ := @evaluate_of_nil Entries _ _ _ hnil
    rw [heq, heq]
    exact ⟨rfl, h⟩
  · rw [evaluate_of_ne_nil hnil, evaluate_of_ne_nil hnil]
    split_ifs
    · exact ⟨rfl, h⟩
    · obtain ⟨hanswer, hstate⟩ := hjudge
      generalize judge m (requestBuckets codec snap req) = r at hanswer hstate
      generalize judge m' (requestBuckets codec snap req) = r' at hanswer hstate
      obtain ⟨n, answer⟩ := r
      obtain ⟨n', answer'⟩ := r'
      obtain rfl : answer = answer' := hanswer
      cases answer <;> exact ⟨rfl, hstate⟩

theorem agreeOn_perform {e : Event} (h : AgreeOn Set.univ e.now m m') :
    (perform m e).2 = (perform m' e).2 ∧
      AgreeOn Set.univ e.now (perform m e).1 (perform m' e).1 := by
  obtain ⟨now, action⟩ := e
  cases action with
  | decide codec namespaceName domain p req =>
    obtain ⟨hanswer, hstate⟩ :=
      evaluate_agreeOn (agreeOn_storeDecide h fun b _ => Set.mem_univ b.key) h
    exact ⟨congrArg Returned.decided hanswer, hstate⟩
  | peek codec namespaceName domain p req =>
    obtain ⟨hanswer, hstate⟩ :=
      evaluate_agreeOn (agreeOn_storePeek h fun b _ => Set.mem_univ b.key) h
    exact ⟨congrArg Returned.decided hanswer, hstate⟩
  | reset ks => exact ⟨rfl, agreeOn_storeReset h⟩
  | scan pre cursor limit =>
    exact ⟨congrArg Returned.listed (storeScan_snd_congr h), agreeOn_storeScan h⟩

/-- A peek drops expired entries only. -/
theorem live_storePeek (hsnap : snap.Sound scope) (hreach : Reachable t m) (k : Text) :
    live t (storePeek t m (requestBuckets codec snap req)).1 k = live t m k := by
  unfold storePeek
  cases guardBuckets (requestBuckets codec snap req) with
  | error msg => rfl
  | ok u =>
    by_cases hk : k ∈ (requestBuckets codec snap req).map Bucket.key
    · obtain ⟨b, hb, rfl⟩ := List.mem_map.mp hk
      obtain ⟨block, rule, rate, axes, hcounted⟩ := exists_countedBy hsnap hb
      apply (hreach.taggedAt hcounted).live_evalAll
      intro c hc hkey
      obtain ⟨block', rule', rate', axes', hcounted'⟩ := exists_countedBy hsnap hc
      rw [hcounted'.algorithm_eq, hcounted.algorithm_eq,
        (hcounted'.key_inj hcounted hkey).2.2.1]
    · exact live_of_lookup (lookup_evalAll_of_not_mem hk)

theorem agreeOn_peek (hsnap : snap.Sound scope) (hreach : Reachable t m) :
    AgreeOn Set.univ t (peekRequest codec snap t m req).1 m := by
  intro k _
  unfold peekRequest
  rcases evaluate_fst codec snap (storePeek t) m req with hstate | hstate
  · rw [hstate]
  · rw [hstate]
    exact live_storePeek hsnap hreach k

theorem answers_without_peeks (hreach : Reachable t m) (marked : List (Bool × Event))
    (hclock : MonotoneFrom (fun x => x.2.now) t marked)
    (hpeeks : ∀ x ∈ marked, x.1 = true → x.2.IsPeek) :
    answersUnmarked marked (runs perform m (marked.map Prod.snd)).2 =
      (runs perform m ((marked.filter fun x => !x.1).map Prod.snd)).2 := by
  refine answersUnmarked_runs (fun t m m' => Reachable t m ∧ AgreeOn Set.univ t m m')
    Event.IsPeek ?_ ?_ ?_ marked t m m hclock hpeeks ⟨hreach, fun k _ => rfl⟩
  · rintro t t' m m' hle ⟨hm, hagree⟩
    exact ⟨hm.wait hle, hagree.later (by exact_mod_cast hle)⟩
  · rintro m m' e ⟨hm, hagree⟩
    obtain ⟨hanswer, hstate⟩ := agreeOn_perform hagree
    exact ⟨hanswer, reachable_perform hm, hstate⟩
  · rintro m m' ⟨now, action⟩ ⟨codec, namespaceName, domain, p, req, hpeek⟩ ⟨hm, hagree⟩
    obtain rfl : action = _ := hpeek
    obtain ⟨scope, hsnap⟩ := compile_sound namespaceName domain p
    refine ⟨reachable_perform hm, fun k hk => ?_⟩
    exact (agreeOn_peek hsnap hm k hk).trans (hagree k hk)

end Runs

end Ratelimit.Engine
