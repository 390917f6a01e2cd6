import Ratelimit.Engine.Absence
import Ratelimit.Engine.Claims
import Ratelimit.Match.Sets

/-!
# The two forms of a request

A gateway sends a token, a direct caller the values; either way the plan bounds and spells
them. The explicit layer drops repeats, and the extraction from a token does not: a claim that
lists one value several times hides the rules that count by its key or compare it.
-/
namespace Ratelimit.Engine

open Compile Match Identity Library Store

section Requests

variable {codec : Codec} {snap : Snapshot} {req req' : Request} {k : Text}

/-- The usable values that the request itself sends under a key. -/
def Request.sent (req : Request) (k : Text) : List Text :=
  ((req.keys.lookup k).getD []).filter fun v => v ≠ []

/-- What the token of the request claims under a key, spelled by the plan. -/
def Request.claimed (codec : Codec) (snap : Snapshot) (req : Request) (k : Text) : List Text :=
  spelled codec snap.extraction k
    (((claimedValues codec snap.extraction req.token).lookup k).getD [])

/-- The set of values that the request says of a key. -/
def Request.said (codec : Codec) (snap : Snapshot) (req : Request) (k : Text) : Finset Text :=
  if req.sent k = [] then (req.claimed codec snap k).toFinset
  else (spelled codec snap.extraction k (req.sent k)).toFinset

/-- The token lists one value of the key several times, and no explicit value wins
over it. -/
def Request.Repeats (codec : Codec) (snap : Snapshot) (req : Request) (k : Text) : Prop :=
  req.sent k = [] ∧ RepeatsOne (req.claimed codec snap k)

/-- A rule asks for the number of values of a key that the token repeats and that the
route does not capture. -/
def Request.Hides (codec : Codec) (snap : Snapshot) (req : Request) (hit : Hit) (rule : Rule) : Prop :=
  ∃ k ∈ sizedKeys rule, k ∉ [Model.keyPath, Model.keyMethod] ∧ k ∉ hit.captures ∧
    req.Repeats codec snap k

/-- The request carries explicit values for declared keys alone, and no anomaly is
reported. -/
structure Request.Clean (codec : Codec) (snap : Snapshot) (req : Request) : Prop where
  declared : ∀ k ∈ req.keys, ∃ e, planned snap.extraction k = some e
  skips : (extractKeys codec snap.extraction req.token req.keys).2 = []

/-- Two requests that differ in the form of the identity at most. -/
structure SaysAlike (codec : Codec) (snap : Snapshot) (req req' : Request) : Prop where
  path : req.path = req'.path
  method : req.method = req'.method
  cost : req.cost = req'.cost
  clean : req.Clean codec snap
  clean' : req'.Clean codec snap
  said : ∀ k, req.said codec snap k = req'.said codec snap k

/-- The same rules match and apply, in the same buckets, and the same decision comes out
of every store in every state. -/
structure CountsAlike (codec : Codec) (snap : Snapshot) (req req' : Request) : Prop where
  matched : ∀ hit ∈ (candidates snap req.path req.method).hits, ∀ rule ∈ hit.block.rules,
    ruleMatches (req.view codec snap hit) rule = ruleMatches (req'.view codec snap hit) rule
  rules : requestRules codec snap req = requestRules codec snap req'
  buckets : (requestBuckets codec snap req).map Bucket.key =
    (requestBuckets codec snap req').map Bucket.key
  decision : ∀ (S : Type) (judge : S → List Bucket → S × Answer) (s : S),
    evaluate codec snap judge s req = evaluate codec snap judge s req'

variable (hnodup : (snap.extraction.map KeyExtraction.key).Nodup)

theorem Request.Clean.kept (h : req.Clean codec snap) (k : Text) :
    keptValues codec snap.extraction k ((req.keys.lookup k).getD []) =
      distinct (spelled codec snap.extraction k (req.sent k)) := by
  by_cases hmem : k ∈ req.keys
  · obtain ⟨kept, hkept⟩ :=
      explicit_skips_iff.mp (extractKeys_skips.mp h.skips).2 k hmem (h.declared k hmem)
    exact keptValues_eq hkept
  · have hnone : (req.keys.lookup k).getD [] = [] := by
      rw [Finmap.lookup_eq_none.mpr hmem]
      rfl
    rw [Request.sent, hnone, keptValues_nil, List.filter_nil, spelled_eq_nil_iff.mpr rfl]
    rfl

include hnodup

/-- What the rules read of a key: the explicit values without repeats, or the claims as
the token lists them. -/
theorem Request.Clean.lookup (h : req.Clean codec snap) (k : Text) :
    (req.extracted codec snap).1.lookup k =
      let values := if req.sent k = [] then req.claimed codec snap k
        else distinct (spelled codec snap.extraction k (req.sent k))
      if values = [] then none else some values := by
  rw [extractKeys_lookup, h.kept, extract_lookup hnodup]
  by_cases hsent : req.sent k = []
  · simp [hsent, distinct_eq_nil_iff, spelled_eq_nil_iff, Request.claimed]
  · simp [hsent, distinct_eq_nil_iff, spelled_eq_nil_iff]

theorem Request.Clean.values (h : req.Clean codec snap) (k : Text) :
    ((req.extracted codec snap).1.lookup k).getD [] =
      if req.sent k = [] then req.claimed codec snap k
        else distinct (spelled codec snap.extraction k (req.sent k)) := by
  rw [h.lookup hnodup]
  dsimp only
  split_ifs with hsent hempty hempty
  · simp [hempty]
  · rfl
  · simp [hempty]
  · rfl

theorem Request.Clean.toFinset_values (h : req.Clean codec snap) (k : Text) :
    (((req.extracted codec snap).1.lookup k).getD []).toFinset =
      req.said codec snap k := by
  rw [h.values hnodup, Request.said]
  split_ifs
  · rfl
  · ext v
    simp [mem_distinct]

theorem Request.Clean.mem_iff (h : req.Clean codec snap) (k : Text) :
    k ∈ (req.extracted codec snap).1 ↔ req.said codec snap k ≠ ∅ := by
  rw [← h.toFinset_values hnodup, ne_eq, List.toFinset_eq_empty_iff]
  have hlookup := h.lookup hnodup k
  dsimp only at hlookup
  rw [hlookup]
  constructor
  · intro hmem hnone
    obtain ⟨values, hvalues⟩ := Finmap.mem_iff.mp hmem
    rw [hlookup] at hvalues
    split_ifs at hvalues hnone
    · simp_all
    · simp_all
  · intro hne
    by_contra hmem
    rw [Finmap.lookup_eq_none.mpr hmem] at hlookup
    rw [← hlookup] at hne
    exact hne rfl

/-- A rule is hidden exactly where a list that it asks the number of repeats one value. -/
theorem Request.Clean.hides_iff (h : req.Clean codec snap) (hit : Hit) (rule : Rule) :
    req.Hides codec snap hit rule ↔
      ∃ k ∈ sizedKeys rule, RepeatsOne ((req.view codec snap hit).valueOf k) := by
  refine exists_congr fun k => and_congr_right fun _ => ?_
  by_cases hbuiltin : k ∈ [Model.keyPath, Model.keyMethod]
  · have hone := @length_valueOf_builtin (req.view codec snap hit) k hbuiltin
    simp [hbuiltin, RepeatsOne, hone]
  · rw [valueOf_eq hbuiltin]
    have hcaptures : (req.view codec snap hit).captures = hit.captures := rfl
    rw [hcaptures]
    cases hcapture : hit.captures.lookup k with
    | some v =>
      have hmem : k ∈ hit.captures := Finmap.mem_of_lookup_eq_some hcapture
      simp [hmem, RepeatsOne]
    | none =>
      have hmem : k ∉ hit.captures := Finmap.lookup_eq_none.mp hcapture
      have hvalues := h.values hnodup k
      have hkeys : (req.view codec snap hit).keys =
        (req.extracted codec snap).1 := rfl
      dsimp only
      rw [hkeys, hvalues]
      by_cases hsent : req.sent k = []
      · simp only [hbuiltin, hmem, not_false_eq_true, true_and, Request.Repeats, hsent, if_true]
      · have hnodup := nodup_distinct (spelled codec snap.extraction k (req.sent k))
        simp only [hbuiltin, hmem, not_false_eq_true, true_and, Request.Repeats, hsent, false_and,
          if_false, false_iff, RepeatsOne, hnodup.dedup]
        omega

theorem SaysAlike.sameSets (h : SaysAlike codec snap req req') (hit : Hit) :
    SameSets (req.view codec snap hit) (req'.view codec snap hit) := by
  have hcost : req.ownCost = req'.ownCost := by
    rw [Request.ownCost, Request.ownCost, h.cost]
  refine ⟨fun k => ?_, by simp only [Request.view, Hit.ctx, hcost]⟩
  unfold BlockCtx.valueOf Request.view Hit.ctx
  dsimp only
  split_ifs
  · rfl
  · rw [h.method]
  · cases hit.captures.lookup k with
    | some v => rfl
    | none =>
      dsimp only
      rw [h.clean.toFinset_values hnodup, h.clean'.toFinset_values hnodup, h.said]

theorem SaysAlike.keyNames (h : SaysAlike codec snap req req') :
    keyNames snap (req.extracted codec snap).1 =
      Engine.keyNames snap (req'.extracted codec snap).1 := by
  refine List.filter_congr fun k _ => decide_eq_decide.mpr ?_
  rw [h.clean.mem_iff hnodup, h.clean'.mem_iff hnodup, h.said]

omit hnodup in
theorem evaluate_congr {S : Type} {judge : S → List Bucket → S × Answer} {s : S}
    (hpath : req.path = req'.path) (hmethod : req.method = req'.method)
    (hrules : requestRules codec snap req = requestRules codec snap req')
    (hskips : (req.extracted codec snap).2 =
      (req'.extracted codec snap).2)
    (hnames : keyNames snap (req.extracted codec snap).1 =
      keyNames snap (req'.extracted codec snap).1) :
    evaluate codec snap judge s req = evaluate codec snap judge s req' := by
  have hbuckets : requestBuckets codec snap req = requestBuckets codec snap req' := by
    rw [requestBuckets, hrules, requestBuckets]
  by_cases hnil : requestBuckets codec snap req = []
  · have hnil' : requestBuckets codec snap req' = [] := hbuckets ▸ hnil
    by_cases hempty : (candidates snap req'.path req'.method).empty = true
    · unfold evaluate
      rw [hpath, hmethod, if_pos hempty, if_pos hempty]
    · have hempty' : ¬(candidates snap req.path req.method).empty = true := by
        rwa [hpath, hmethod]
      rw [evaluate_of_unmatched hempty' hnil, evaluate_of_unmatched hempty hnil', hskips, hnames]
  · have hdecision : ∀ verdicts, decisionOf snap (requestRules codec snap req) verdicts
        (req.extracted codec snap).1 (req.extracted codec snap).2 =
      decisionOf snap (requestRules codec snap req') verdicts
        (req'.extracted codec snap).1 (req'.extracted codec snap).2 := by
      intro verdicts
      unfold decisionOf
      rw [hrules, hskips, hnames]
    rw [evaluate_of_ne_nil hnil, evaluate_of_ne_nil (hbuckets ▸ hnil)]
    simp only [hdecision, hbuckets]

/-- A rule that matches on the sets is hidden from both requests or from neither. -/
def HidesAlike (codec : Codec) (snap : Snapshot) (req req' : Request) : Prop :=
  ∀ hit ∈ (candidates snap req.path req.method).hits, ∀ rule ∈ hit.block.rules,
    ruleMatches (req.view codec snap hit).once rule = true →
      (req.Hides codec snap hit rule ↔ req'.Hides codec snap hit rule)

theorem SaysAlike.countsAlike_iff (h : SaysAlike codec snap req req') :
    CountsAlike codec snap req req' ↔ HidesAlike codec snap req req' := by
  have hmatches : ∀ hit rule, ruleMatches (req.view codec snap hit) rule = true ↔
      ruleMatches (req.view codec snap hit).once rule = true ∧ ¬req.Hides codec snap hit rule := by
    intro hit rule
    rw [ruleMatches_iff_once, h.clean.hides_iff hnodup]
    simp only [not_exists, not_and]
  have hmatches' : ∀ hit rule, ruleMatches (req'.view codec snap hit) rule = true ↔
      ruleMatches (req.view codec snap hit).once rule = true ∧ ¬req'.Hides codec snap hit rule := by
    intro hit rule
    rw [ruleMatches_iff_once, h.clean'.hides_iff hnodup, (h.sameSets hnodup hit).ruleMatches_once]
    simp only [not_exists, not_and]
  constructor
  · intro halike hit hhit rule hrule honce
    have hsame := Bool.eq_iff_iff.mp (halike.matched hit hhit rule hrule)
    rw [hmatches, hmatches'] at hsame
    simpa [honce, not_iff_not] using hsame
  · intro hhidden
    have hmatched : ∀ hit ∈ (candidates snap req.path req.method).hits, ∀ rule ∈ hit.block.rules,
        ruleMatches (req.view codec snap hit) rule =
          ruleMatches (req'.view codec snap hit) rule := by
      intro hit hhit rule hrule
      rw [Bool.eq_iff_iff, hmatches, hmatches']
      refine and_congr_right fun honce => not_congr (hhidden hit hhit rule hrule honce)
    have hrules : requestRules codec snap req = requestRules codec snap req' := by
      unfold requestRules Candidates.evaluate
      rw [← h.path, ← h.method]
      refine List.flatMap_congr fun hit hhit => ?_
      have hblock := (h.sameSets hnodup hit).evalBlock hit.block (hmatched hit hhit)
      simp only [Request.view, ← h.method] at hblock
      exact hblock
    refine ⟨hmatched, hrules, ?_, fun S judge s => ?_⟩
    · rw [requestBuckets, hrules, requestBuckets]
    · exact evaluate_congr h.path h.method hrules (h.clean.skips.trans h.clean'.skips.symm)
        (h.keyNames hnodup)

omit hnodup in
theorem bareToken_nil (htrim : codec.trimSpace [] = []) : bareToken codec [] = [] := by
  simp [bareToken, htrim]

theorem claimed_saysAlike (htrim : codec.trimSpace [] = []) (path method token : Text) (cost : ℤ)
    (hskips : (extract codec snap.extraction token).2 = []) :
    SaysAlike codec snap ⟨path, method, token, ∅, cost⟩
      ⟨path, method, [], claimedValues codec snap.extraction token, cost⟩ := by
  have hnoToken : ∀ plan, extract codec plan [] = (∅, []) := by
    intro plan
    simp [extract, bareToken_nil htrim]
  have hbounds : ∀ k, (((claimedValues codec snap.extraction token).lookup k).getD []).length ≤
      maxArrayItems ∧ ∀ v ∈ ((claimedValues codec snap.extraction token).lookup k).getD [],
        v ≠ [] ∧ v.length ≤ maxValueBytes := by
    intro k
    cases hvalues : (claimedValues codec snap.extraction token).lookup k with
    | none => simp
    | some values => exact claimedValues_bounds hnodup hvalues
  refine ⟨rfl, rfl, rfl, ⟨?_, ?_⟩, ⟨?_, ?_⟩, fun k => ?_⟩
  · intro k hk
    exact absurd hk Finmap.notMem_empty
  · refine extractKeys_skips.mpr ⟨hskips, explicit_skips_iff.mpr fun k hk => ?_⟩
    exact absurd hk Finmap.notMem_empty
  · intro k hk
    obtain ⟨e, he, hkey⟩ := extract_mem hk
    refine Option.ne_none_iff_exists'.mp fun hnone => ?_
    obtain ⟨declared, hdeclared, rfl⟩ := List.mem_map.mp he
    exact planned_eq_none_iff.mp hnone declared hdeclared hkey
  · refine extractKeys_skips.mpr ⟨by rw [hnoToken], explicit_skips_iff.mpr fun k _ _ => ?_⟩
    exact ⟨_, (if_neg (not_lt.mpr (hbounds k).1)).trans
      (keepValues_ok_iff.mpr ⟨fun v hv => ((hbounds k).2 v hv).2, rfl⟩)⟩
  · have hgiven : (⟨path, method, token, ∅, cost⟩ : Request).sent k = [] := by
      simp [Request.sent]
    have hsent : (⟨path, method, [], claimedValues codec snap.extraction token, cost⟩ :
        Request).sent k = ((claimedValues codec snap.extraction token).lookup k).getD [] := by
      exact List.filter_eq_self.mpr fun v hv => decide_eq_true ((hbounds k).2 v hv).1
    have hnone : claimedValues codec snap.extraction [] = ∅ := by
      rw [claimedValues, hnoToken]
    rw [Request.said, if_pos hgiven, Request.said, hsent]
    split_ifs with hempty
    · rw [Request.claimed, Request.claimed, hempty, hnone]
      rfl
    · rfl

end Requests

/-- The two forms of an identity count alike exactly where the token does not hide a rule that matches
on the sets. Of any two requests that say the same sets it is exactly the rules hidden from one of
them that count differently, and no explicit list hides any. -/
theorem identity_counts_alike (namespaceName domain : Text) (p : Option Model.Policy)
    (codec : Codec) (htrim : codec.trimSpace [] = []) (path method token : Text) (cost : ℤ)
    (hskips : (extract codec (compile namespaceName domain p).1.extraction token).2 = []) :
    let snap := (compile namespaceName domain p).1
    let given : Request := ⟨path, method, token, ∅, cost⟩
    let sent : Request := ⟨path, method, [], claimedValues codec snap.extraction token, cost⟩
    (CountsAlike codec snap given sent ↔
        ∀ hit ∈ (candidates snap path method).hits, ∀ rule ∈ hit.block.rules,
          ruleMatches (given.view codec snap hit).once rule = true →
            ¬given.Hides codec snap hit rule) ∧
      ∀ req req', SaysAlike codec snap req req' →
        (CountsAlike codec snap req req' ↔ HidesAlike codec snap req req') ∧
        (req.token = [] → req'.token = [] → CountsAlike codec snap req req') := by
  have hnodup := compile_extraction_nodup namespaceName domain p
  generalize (compile namespaceName domain p).1 = snap at *
  have hexplicit : ∀ (req : Request) hit rule, req.token = [] → ¬req.Hides codec snap hit rule := by
    rintro req hit rule hnone ⟨k, -, -, -, -, hrepeats, -⟩
    have hclaimed : req.claimed codec snap k = [] := by
      simp [Request.claimed, claimedValues, extract, hnone, bareToken_nil htrim, spelled_eq_nil_iff]
    rw [hclaimed] at hrepeats
    simp at hrepeats
  refine ⟨?_, fun req req' h => ⟨h.countsAlike_iff hnodup, fun hnone hnone' => ?_⟩⟩
  · rw [(claimed_saysAlike hnodup htrim path method token cost hskips).countsAlike_iff hnodup]
    refine forall₂_congr fun hit _ => forall₂_congr fun rule _ => forall_congr' fun _ => ?_
    exact iff_false_right (hexplicit _ hit rule rfl)
  · refine (h.countsAlike_iff hnodup).mpr fun hit _ rule _ _ => ?_
    exact iff_of_false (hexplicit req hit rule hnone) (hexplicit req' hit rule hnone')

section Sample

def rolesSnapshot : Snapshot := (compileShop rolesPolicy).1

def rolesToken (twice : Bool) : Text :=
  if twice then ascii "eyJhbGciOiJub25lIn0.eyJyb2xlcyI6WyJhIiwiYSJdfQ."
  else ascii "eyJhbGciOiJub25lIn0.eyJyb2xlcyI6WyJhIl19."

def rolesCodec : Codec where
  trimSpace := id
  toLower := Strings.toLowerAscii
  rawURLEncoding t :=
    if t = ascii "eyJyb2xlcyI6WyJhIiwiYSJdfQ" then some (ascii "\x7b\"roles\":[\"a\",\"a\"]\x7d")
    else if t = ascii "eyJyb2xlcyI6WyJhIl19" then some (ascii "\x7b\"roles\":[\"a\"]\x7d")
    else none
  urlEncoding _ := none
  unmarshal t :=
    if t = ascii "\x7b\"roles\":[\"a\",\"a\"]\x7d" then
      some [(ascii "roles", .array [.string (ascii "a"), .string (ascii "a")])]
    else if t = ascii "\x7b\"roles\":[\"a\"]\x7d" then
      some [(ascii "roles", .array [.string (ascii "a")])]
    else none

/-- The token that lists a role twice counts against no limit, a caller that sends it does. -/
theorem repeated_role_hidden :
    (extract rolesCodec rolesSnapshot.extraction (rolesToken true)).2 = [] ∧
      (claimedValues rolesCodec rolesSnapshot.extraction (rolesToken true)).lookup (ascii "role") =
        some [ascii "a", ascii "a"] ∧
      requestRules rolesCodec rolesSnapshot
        ⟨ascii "/desk", ascii "GET", rolesToken true, ∅, 1⟩ = [] ∧
      (requestRules rolesCodec rolesSnapshot ⟨ascii "/desk", ascii "GET", [],
        claimedValues rolesCodec rolesSnapshot.extraction (rolesToken true), 1⟩).map
          MatchedRule.rule = [ascii "per-role"] := by
  refine ⟨?_, ?_, ?_, ?_⟩ <;> decide +kernel

theorem rolesToken_claims : claimedValues rolesCodec rolesSnapshot.extraction (rolesToken false) =
    Finmap.singleton (ascii "role") [ascii "a"] := by
  decide +kernel

theorem identity_counts_alike_role :
    CountsAlike rolesCodec rolesSnapshot ⟨ascii "/desk", ascii "GET", rolesToken false, ∅, 1⟩
        ⟨ascii "/desk", ascii "GET", [],
          claimedValues rolesCodec rolesSnapshot.extraction (rolesToken false), 1⟩ ∧
      (requestRules rolesCodec rolesSnapshot
        ⟨ascii "/desk", ascii "GET", rolesToken false, ∅, 1⟩).map MatchedRule.rule =
          [ascii "per-role"] := by
  refine ⟨?_, by decide +kernel⟩
  refine (identity_counts_alike (ascii "prod") (ascii "shop") (some rolesPolicy) rolesCodec rfl
    (ascii "/desk") (ascii "GET") (rolesToken false) 1 (by decide +kernel)).1.mpr ?_
  rintro hit - rule - - ⟨k, -, -, -, -, hrepeats, -⟩
  change 2 ≤ (spelled rolesCodec rolesSnapshot.extraction k
    (((claimedValues rolesCodec rolesSnapshot.extraction (rolesToken false)).lookup k).getD
      [])).length at hrepeats
  rw [length_spelled, rolesToken_claims] at hrepeats
  by_cases hk : k = ascii "role"
  · subst hk
    rw [Finmap.lookup_singleton_eq] at hrepeats
    simp at hrepeats
  · have hnone : (Finmap.singleton (ascii "role") [ascii "a"] : Keys).lookup k = none :=
      Finmap.lookup_eq_none.mpr fun hmem => hk (Finmap.mem_singleton _ _ _ |>.mp hmem)
    rw [hnone] at hrepeats
    simp at hrepeats

end Sample

end Ratelimit.Engine
