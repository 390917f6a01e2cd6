import Ratelimit.Engine.Buckets
import Ratelimit.Library.Runs

/-!
# What a decision reports

One verdict for each bucket, admission when no enforcing bucket refuses, and headers from the
strictest bucket. The index loop of the source is here a left fold over buckets that carry
their rules.
-/
namespace Ratelimit.Engine

open Algo Store Match Compile Identity Library Memory

/-- The part of a decision that a caller acts on. -/
structure Response where
  allowed : Bool
  costExceedsCapacity : Bool
  headers : Option Headers
  deriving DecidableEq

def Decision.response (d : Decision) : Response := ⟨d.allowed, d.costExceedsCapacity, d.headers⟩

section Owners

variable {rules : List MatchedRule}

def owned (rules : List MatchedRule) : List (MatchedRule × Bucket) :=
  rules.flatMap fun r => r.buckets.map fun b => (r, b)

theorem owned_cons (r : MatchedRule) (rules : List MatchedRule) :
    owned (r :: rules) = (r.buckets.map fun b => (r, b)) ++ owned rules := List.flatMap_cons

theorem map_snd_owned (rules : List MatchedRule) :
    (owned rules).map Prod.snd = bucketsOf rules := by
  unfold owned bucketsOf
  rw [List.map_flatMap]
  simp [Function.comp_def]

theorem mem_owned {p : MatchedRule × Bucket} :
    p ∈ owned rules ↔ p.1 ∈ rules ∧ p.2 ∈ p.1.buckets := by
  constructor
  · intro hp
    obtain ⟨r, hr, hp⟩ := List.mem_flatMap.mp hp
    obtain ⟨b, hb, rfl⟩ := List.mem_map.mp hp
    exact ⟨hr, hb⟩
  · rintro ⟨hr, hb⟩
    exact List.mem_flatMap.mpr ⟨p.1, hr, List.mem_map.mpr ⟨p.2, hb, rfl⟩⟩

theorem ruleOf_eq {i : ℕ} {p : MatchedRule × Bucket} (h : (owned rules)[i]? = some p) :
    ruleOf rules i = p.1 := by
  induction rules generalizing i with
  | nil => simp [owned] at h
  | cons r rules ih =>
    rw [owned_cons] at h
    rw [ruleOf]
    split_ifs with hi
    · rw [List.getElem?_append_left (by simpa using hi), List.getElem?_map] at h
      obtain ⟨b, -, rfl⟩ := Option.map_eq_some_iff.mp h
      rfl
    · rw [List.getElem?_append_right (by simpa using hi), List.length_map] at h
      exact ih h

end Owners

section Strictest

variable (rules : List MatchedRule) (verdict : Bucket → Verdict) (allowed : Bool)

def contenders : List (MatchedRule × Judged) :=
  ((owned rules).map fun p => (p.1, p.2, verdict p.2)).filter
    fun x => !passesOver allowed true x.2

theorem strictestFrom_eq (skipShadow : Bool) (xs : List (Judged × ℕ))
    (best : Option (Judged × ℕ)) :
    strictestFrom allowed skipShadow xs best =
      (xs.filter fun x => !passesOver allowed skipShadow x.1).foldl
        (better fun x y => stricter allowed x.1 y.1) best := by
  induction xs generalizing best with
  | nil => rfl
  | cons x xs ih =>
    by_cases hpass : passesOver allowed skipShadow x.1 = true
    · rw [List.filter_cons_of_neg (by simpa using hpass), ← ih]
      cases best <;> simp only [strictestFrom, if_pos hpass]
    · rw [List.filter_cons_of_pos (by simpa using hpass), List.foldl_cons, ← ih]
      cases best <;> simp only [strictestFrom, if_neg hpass, better]

theorem zipIdx_owners :
    ((bucketsOf rules).map fun b => (b, verdict b)).zipIdx.map
        (fun x : Judged × ℕ => (ruleOf rules x.2, x.1)) =
      (owned rules).map fun p => (p.1, p.2, verdict p.2) := by
  rw [← map_snd_owned]
  apply List.ext_getElem?
  intro i
  rw [List.getElem?_map, List.getElem?_zipIdx, List.map_map, List.getElem?_map, List.getElem?_map]
  cases hp : (owned rules)[i]? with
  | none => rfl
  | some p => simp [ruleOf_eq hp]

theorem strictestIndex_eq :
    (strictestIndex ((bucketsOf rules).map fun b => (b, verdict b)) 0
        ((bucketsOf rules).map fun b => (b, verdict b)).length allowed true).map
          (fun x : Judged × ℕ => (ruleOf rules x.2, x.1)) =
      least (fun x y => stricter allowed x.2 y.2) (contenders rules verdict allowed) := by
  have hrange : ((((bucketsOf rules).map fun b => (b, verdict b)).zipIdx.drop 0).take
      (((bucketsOf rules).map fun b => (b, verdict b)).length - 0)) =
        ((bucketsOf rules).map fun b => (b, verdict b)).zipIdx := by
    rw [List.drop_zero, Nat.sub_zero]
    exact List.take_of_length_le (by simp)
  rw [strictestIndex, hrange, strictestFrom_eq, contenders, ← zipIdx_owners, List.filter_map]
  have hloop : ∀ xs : List (Judged × ℕ),
      least (fun x y : MatchedRule × Judged => stricter allowed x.2 y.2)
          (xs.map fun x => (ruleOf rules x.2, x.1)) =
        (least (fun x y : Judged × ℕ => stricter allowed x.1 y.1) xs).map
          fun x => (ruleOf rules x.2, x.1) := fun xs => least_map fun _ _ _ _ => rfl
  exact (hloop _).symm

/-- Whether an enforcing bucket refuses for a cost it can never hold. -/
def incurable : Bool :=
  !allowed && (bucketsOf rules).any fun b => !b.shadow && (verdict b).costExceedsCapacity

theorem aggregate_eq :
    aggregate rules ((bucketsOf rules).map fun b => (b, verdict b)) allowed =
      match least (fun x y => stricter allowed x.2 y.2) (contenders rules verdict allowed) with
      | none => (none, false)
      | some (owner, x) =>
        (some (headersOf owner x (incurable rules verdict allowed)),
          incurable rules verdict allowed) := by
  have hexceeds : (!allowed && ((bucketsOf rules).map fun b => (b, verdict b)).any
      fun x => !x.1.shadow && x.2.costExceedsCapacity) = incurable rules verdict allowed := by
    rw [incurable, List.any_map]
    rfl
  unfold aggregate
  rw [hexceeds, ← strictestIndex_eq]
  cases strictestIndex ((bucketsOf rules).map fun b => (b, verdict b)) 0
    ((bucketsOf rules).map fun b => (b, verdict b)).length allowed true <;> rfl

end Strictest

section Decide

variable {codec : Codec} {snap : Snapshot} {now : ℕ} {m : Entries} {req : Request}

def verdictOf (now : ℤ) (m : Entries) (bs : List Bucket) (b : Bucket) : Verdict :=
  answered (admits now m bs) (outcome now m b)

/-- What the applied rules answer at a time, over a map of entries. -/
def respond (now : ℤ) (m : Entries) (rules : List MatchedRule) : Response :=
  let bs := bucketsOf rules
  let allowed := admits now m bs
  let judged := aggregate rules (bs.map fun b => (b, verdictOf now m bs b)) allowed
  ⟨allowed, judged.2, judged.1⟩

theorem respond_eq (now : ℤ) (m : Entries) (rules : List MatchedRule) :
    let allowed := admits now m (bucketsOf rules)
    let verdict := verdictOf now m (bucketsOf rules)
    respond now m rules =
      match least (fun x y => stricter allowed x.2 y.2) (contenders rules verdict allowed) with
      | none => ⟨allowed, false, none⟩
      | some (owner, x) =>
        ⟨allowed, incurable rules verdict allowed,
          some (headersOf owner x (incurable rules verdict allowed))⟩ := by
  intro allowed verdict
  unfold respond
  dsimp only
  rw [aggregate_eq]
  cases least (fun x y => stricter allowed x.2 y.2) (contenders rules verdict allowed) <;> rfl

theorem respond_of_nil {rules : List MatchedRule} (h : bucketsOf rules = []) :
    respond now m rules = ⟨true, false, none⟩ := by
  simp [respond, h, admits, aggregate, strictestIndex, strictestFrom]

def decideStep (codec : Codec) (snap : Snapshot) (m : Entries) (i : ℕ × Request) :
    Entries × Except Failure Decision :=
  decideRequest codec snap i.1 m i.2

def responses (codec : Codec) (snap : Snapshot) (m : Entries) (calls : List (ℕ × Request)) :
    List (Except Failure Response) :=
  (runs (decideStep codec snap) m calls).2.map (Except.map Decision.response)

/-- What the store needs to answer the buckets of a request. -/
structure Answerable (codec : Codec) (snap : Snapshot) (req : Request) : Prop where
  length_le : (requestBuckets codec snap req).length ≤ maxDecisionBuckets
  guard : guardBuckets (requestBuckets codec snap req) = .ok ()
  registered : Registered (requestBuckets codec snap req)

theorem decideRequest_eq (now : ℕ) (m : Entries) (h : Answerable codec snap req) :
    ∃ d, decideRequest codec snap now m req =
        ((storeDecide now m (requestBuckets codec snap req)).1, .ok d) ∧
      d.response = respond now m (requestRules codec snap req) := by
  by_cases hnil : requestBuckets codec snap req = []
  · obtain ⟨targeted, skips, names, heq⟩ := @evaluate_of_nil Entries _ _ _ hnil
    refine ⟨untouched targeted skips names, (heq _ m).trans ?_, (respond_of_nil hnil).symm⟩
    rw [hnil]
    rfl
  · have hsnd : (storeDecide now m (requestBuckets codec snap req)).2 = _ :=
      storeDecide_snd h.guard h.registered
    unfold decideRequest
    rw [evaluate_of_ne_nil hnil, if_neg (not_lt.mpr h.length_le)]
    cases hstore : storeDecide now m (requestBuckets codec snap req) with
    | mk m' answer =>
      rw [hstore] at hsnd
      dsimp only at hsnd
      subst hsnd
      refine ⟨_, rfl, ?_⟩
      simp only [Decision.response, decisionOf, respond, verdictOf]
      rw [← requestBuckets, admitted_answered, zip_outcomes]

theorem decideRequest_error (now : ℕ) (m : Entries)
    (hreg : Registered (requestBuckets codec snap req))
    (h : ¬Answerable codec snap req) :
    ∃ e, decideRequest codec snap now m req = (m, .error e) := by
  have hnil : requestBuckets codec snap req ≠ [] := by
    intro hnil
    refine h ⟨?_, ?_, hreg⟩
    · simp [hnil]
    · rw [hnil]
      rfl
  unfold decideRequest
  rw [evaluate_of_ne_nil hnil]
  split_ifs with hlen
  · exact ⟨_, rfl⟩
  · cases hg : guardBuckets (requestBuckets codec snap req) with
    | ok u => exact absurd ⟨not_lt.mp hlen, hg, hreg⟩ h
    | error msg =>
      rw [storeDecide, hg]
      exact ⟨_, rfl⟩

theorem Answerable.of_ok {scope : Key.Scope} (hsnap : snap.Sound scope) {d : Decision}
    (hd : (decideRequest codec snap now m req).2 = .ok d) : Answerable codec snap req := by
  by_contra hno
  obtain ⟨e, he⟩ := decideRequest_error now m (registered_evaluate hsnap) hno
  rw [he] at hd
  cases hd

theorem one_le_ownCost (h : 0 ≤ req.cost) : 1 ≤ req.ownCost := by
  unfold Request.ownCost
  split_ifs <;> omega

theorem answerable_compile (namespaceName domain : Text) (p : Option Model.Policy)
    (codec : Codec) (hcost : 0 ≤ req.cost) :
    Answerable codec (compile namespaceName domain p).1 req := by
  obtain ⟨scope, hsnap⟩ := compile_sound namespaceName domain p
  exact ⟨length_requestBuckets_le namespaceName domain p codec req,
    guardBuckets_evaluate hsnap (one_le_ownCost hcost), registered_evaluate hsnap⟩

end Decide

end Ratelimit.Engine
