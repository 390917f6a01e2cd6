import Ratelimit.Config.Applied
import Ratelimit.Operator.ConfigStore
import Ratelimit.Operator.Fleet
import Ratelimit.Operator.Misnamed

/-!
# What Ready says

Ready is judged from the outcome of the policy and from the generations that the replicas
report. The outcome is that of the compilation even where the fit took another object for the
domain: then the state is without the generation that Ready says is enforced.
-/
namespace Ratelimit.Operator

open Api Library

def mount (object : ConfigMap) : Config.Directory where
  file name :=
    match (object.data.lookup name).or (object.binaryData.lookup name) with
    | some raw => .bytes raw
    | none => .failed ⟨"open %s: no such file or directory", [.text name]⟩ true

/-- The zero value that a missing outcome reads as. -/
def Outcome.zero : Outcome := ⟨[], 0, 0, none, [], none, false, none, [], 0, 0⟩

def Result.outcome (r : Result) (key : ObjectKey) : Outcome := (r.policies.lookup key).getD .zero

/-- The status of a policy: the compilation of the namespace, an observation of the
fleet, and the judgement of both. -/
def statusOf (c : Codec) (input : Input) (limit : ℕ) (round : FleetRound) (freshness : ℤ)
    (o : Object) (since deadline : ℤ) : FleetStatus :=
  let outcome := (compileAndFit c input limit).outcome o.key
  judge outcome (round.observe o.spec.domain outcome.activeGeneration outcome.uid freshness) since
    deadline

section Writing

variable {c : Codec} {input : Input} {limit : ℕ} {domain : Text} {b : Bundle}

theorem compiles_of_setBackTo {o : Object} (hne : (input.setBackTo o).2.uid ≠ []) :
    Compiles input.namespaceName o.spec.domain (input.setBackTo o).2.goodSpec := by
  rcases setBackTo_kept input o with hlast | ⟨hzero, -⟩
  · rw [Input.setBackTo, hlast.bundle]
    exact hlast.compiles
  · rw [Input.setBackTo, hzero] at hne
    exact absurd rfl hne

theorem compiles_of_settled {o : Object} (hne : (input.settled o).2.2.uid ≠ []) :
    Compiles input.namespaceName o.spec.domain (input.settled o).2.2.goodSpec := by
  by_cases hgood : o.Good input.namespaceName (input.skew o.key)
  · rw [Input.settled, compileDomain, (compileDomainFitting_latest hgood).bundle]
    exact hgood.2
  · rcases (compileDomainFitting_invalid hgood).1 with hlast | ⟨hzero, -⟩
    · rw [Input.settled, compileDomain, hlast.bundle]
      exact hlast.compiles
    · rw [Input.settled, compileDomain, hzero] at hne
      exact absurd rfl hne

theorem compiles_of_compileAndFit (hb : (compileAndFit c input limit).state.lookup domain = some b)
    (hne : b.uid ≠ []) : Compiles input.namespaceName domain b.goodSpec := by
  obtain ⟨n, hfit, -⟩ := fit_run c input limit (compile input)
  rw [compileAndFit, hfit] at hb
  by_cases hmem : domain ∈ (edits c input).take n
  · obtain ⟨o, ho, rfl⟩ := candidates_claimed (fun d hd => List.mem_of_mem_take hd) domain hmem
    obtain ⟨o', ho'⟩ := exists_claimant ho
    rw [setBackFirst, (foldl_setBack_mem hmem ho').1] at hb
    obtain rfl := Option.some.inj hb
    rw [← (claimant_mem ho').2]
    exact compiles_of_setBackTo hne
  · rw [setBackFirst, (foldl_setBack_other hmem).1] at hb
    obtain ⟨o, ho, -, rfl, rfl⟩ := compile_state hb
    exact compiles_of_settled hne

end Writing

section Replicas

/-- The directory holds a configuration that the operator wrote, of specs that UID and
generation determine. -/
structure Written (c : Codec) (namespaceName : Text) (specOf : Text → ℤ → Spec)
    (dir : Config.Directory) (input : Input) (limit : ℕ) : Prop where
  namespaceName_eq : input.namespaceName = namespaceName
  mounted : dir = mount (configOf c input.operatorVersion (compileAndFit c input limit).state)
  readable : Readable c input.operatorVersion (compileAndFit c input limit).state
  determined : ∀ domain b, (compileAndFit c input limit).state.lookup domain = some b →
    b.uid ≠ [] → b.goodSpec = specOf b.uid b.goodGeneration

/-- A replica that only applied configurations that the operator wrote. -/
structure Replica (c : Codec) (namespaceName : Text) (specOf : Text → ℤ → Spec)
    (visits : List Config.Visit) (t : Config.Trace) : Prop where
  run : t = .after c namespaceName visits
  noCollision : Config.NoCollision c visits
  written : ∀ v ∈ visits, ∀ cfg, Config.read c v.dir = .valid cfg →
    ∃ input limit, Written c namespaceName specOf v.dir input limit

variable {c : Codec} {namespaceName : Text} {specOf : Text → ℤ → Spec} {input : Input} {limit : ℕ}
  {dir : Config.Directory} {cfg : Config.Configuration} {domain : Text} {entry : DomainEntry}
  {spec : Spec}

theorem Written.read (h : Written c namespaceName specOf dir input limit)
    (hread : Config.read c dir = .valid cfg)
    (hentry : cfg.manifest.domains.lookup domain = some entry)
    (hspec : cfg.specs.lookup domain = some spec) :
    Compiles namespaceName domain spec ∧ spec = specOf entry.uid entry.generation := by
  obtain ⟨rfl, rfl, hreadable, hdetermined⟩ := h
  generalize hstate : (compileAndFit c input limit).state = state at *
  obtain ⟨hfile, hdecode, hspecs⟩ := Config.read_valid hread
  -- the manifest is the one of the state
  have hdata : (configOf c input.operatorVersion state).data.lookup manifestKey =
      some (c.encode (manifestOf c state input.operatorVersion)) := Finmap.lookup_singleton_eq
  have hraw : cfg.raw = c.encode (manifestOf c state input.operatorVersion) := by
    simp only [mount, hdata, Option.some_or] at hfile
    exact (Config.FileRead.bytes.inj hfile).symm
  have hmanifest : cfg.manifest = manifestOf c state input.operatorVersion := by
    rw [hraw, hreadable.manifest] at hdecode
    exact (Except.ok.inj hdecode).symm
  have hbundle : (state.lookup domain).bind (Bundle.entry c) = some entry := by
    rw [hmanifest] at hentry
    exact (lookup_filterMapEntries _ _).symm.trans hentry
  obtain ⟨b, hb, hof⟩ := Option.bind_eq_some_iff.mp hbundle
  unfold Bundle.entry at hof
  split_ifs at hof with hne
  obtain rfl := Option.some.inj hof
  -- and the payload is the one of the bundle
  obtain ⟨spec', hspec', hdecoded⟩ := hspecs domain _ hentry
  obtain rfl : spec = spec' := Option.some.inj (hspec.symm.trans hspec')
  obtain ⟨compressed, hpayload, hdecodes⟩ := hdecoded.payload
  have hbinary : (configOf c input.operatorVersion state).binaryData.lookup (payloadKey domain) =
      some (c.encodePayload b.goodSpec).1 := by
    refine (lookup_renameKeys payloadKey_injective _).trans ((lookup_filterMapEntries _ _).trans ?_)
    rw [hb, Option.bind_some, Bundle.payload, if_neg hne]
  have hnone : (configOf c input.operatorVersion state).data.lookup (payloadKey domain) = none :=
    Finmap.lookup_eq_none.mpr (by simpa [configOf] using payloadKey_ne_manifestKey domain)
  have hcompressed : compressed = (c.encodePayload b.goodSpec).1 := by
    simp only [mount, hnone, hbinary, Option.none_or] at hpayload
    exact (Config.FileRead.bytes.inj hpayload).symm
  have hreads : c.decodePayload (c.encodePayload b.goodSpec).1 =
      .ok (b.goodSpec, (c.encodePayload b.goodSpec).2) := hreadable.specs domain b hb hne
  rw [hcompressed, hreads] at hdecodes
  obtain rfl : b.goodSpec = spec := (Prod.mk.inj (Except.ok.inj hdecodes)).1
  subst hstate
  exact ⟨compiles_of_compileAndFit hb hne, hdetermined domain b hb hne⟩

theorem Replica.serves {visits : List Config.Visit} {t : Config.Trace}
    (h : Replica c namespaceName specOf visits t) {reported : Config.AppliedDomain}
    (hreported : t.watcher.applier.report.domains.lookup domain = some reported) :
    ∃ d, t.watcher.applier.current.domains.lookup domain = some d ∧
      d.snapshot = (compileSpec namespaceName domain
        (specOf reported.uid reported.generation)).1 := by
  obtain ⟨rfl, hcollision, hwritten⟩ := h
  have hfaithful := @Config.faithful_after c visits namespaceName hcollision visits fun v hv => hv
  have hnamespace := @Config.namespaceName_after c visits namespaceName
  have hcompiles : ∀ v ∈ visits, ∀ cfg, Config.read c v.dir = .valid cfg → ∀ domain entry spec,
      cfg.manifest.domains.lookup domain = some entry → cfg.specs.lookup domain = some spec →
        Compiles namespaceName domain spec := by
    intro v hv cfg hread domain entry spec hentry hspec
    obtain ⟨input, limit, hw⟩ := hwritten v hv cfg hread
    exact (hw.read hread hentry hspec).1
  have hdomains : ((Config.Trace.after c namespaceName visits).watcher.applier.current.domains.lookup
      domain).bind (fun d => some ⟨d.generation, d.uid, d.appliedAt⟩) = some reported :=
    (lookup_filterMapEntries _ _).symm.trans hreported
  obtain ⟨d, hd, hof⟩ := Option.bind_eq_some_iff.mp hdomains
  obtain rfl := Option.some.inj hof
  refine ⟨d, hd, ?_⟩
  rw [hfaithful.published] at hd
  obtain ⟨cfg, entry, spec, hserved⟩ := Config.served_after hcollision hcompiles hd
  obtain ⟨v, hv, hread⟩ := hfaithful.readings cfg hserved.applied
  obtain ⟨input, limit, hw⟩ := hwritten v hv cfg hread
  obtain ⟨-, hspec⟩ := hw.read hread hserved.indexed hserved.decoded
  rw [hserved.snapshot, hnamespace, hspec, hserved.generation, hserved.uid]

/-- The answers of a round are the reports of replicas, as they were when they answered. -/
def Honest (c : Codec) (namespaceName : Text) (specOf : Text → ℤ → Spec)
    (fleet : Endpoint → Config.Trace) (round : FleetRound) : Prop :=
  ∀ e report, round.answers.lookup e = some report →
    report = (fleet e).watcher.applier.report ∧
      ∃ visits, Replica c namespaceName specOf visits (fleet e)

/-- A round that an observation is answered from has answers that were given, in it or
when it was taken. -/
theorem honest_currentRound {p : ReplicaProbe} {now completed : ℤ}
    {endpoints : Except Message (List Endpoint)}
    {ask : ℕ → Endpoint → Except Message Config.Report} {fresh : Bool}
    (hkept : ∀ round, p.round = some round → ∃ fleet, Honest c namespaceName specOf fleet round)
    {fleet : Endpoint → Config.Trace}
    (hask : ∀ i e report, ask i e = .ok report → report = (fleet e).watcher.applier.report ∧
      ∃ visits, Replica c namespaceName specOf visits (fleet e)) :
    ∃ fleet, Honest c namespaceName specOf fleet
      (p.currentRound now completed endpoints ask fresh) := by
  unfold ReplicaProbe.currentRound
  cases endpoints with
  | error err => exact ⟨fleet, fun e report hanswer => by cases hanswer⟩
  | ok endpoints =>
    dsimp only
    split
    · next round hround => exact hkept round (Option.filter_eq_some_iff.mp hround).1
    · refine ⟨fleet, fun e report hanswer => ?_⟩
      obtain ⟨i, hi, heq⟩ := List.mem_mapIdx.mp (lookup_takeRound hanswer)
      obtain ⟨rfl, hreply⟩ := Prod.mk.inj heq
      exact hask i _ report hreply

end Replicas

section Judged

variable {c : Codec} {input : Input} {limit : ℕ} {o : Object}

/-- The fit takes another object for the domain of the policy, and comes to it. -/
def TakenOver (c : Codec) (input : Input) (limit : ℕ) (o : Object) : Prop :=
  claimant input o.spec.domain ≠ some o ∧ ComesTo c input limit o.spec.domain

theorem outcome_cases (hdistinct : input.Distinct) (ho : o ∈ input.policies) :
    (∃ reason, (compileAndFit c input limit).outcome o.key =
      (compileDomainFitting input.namespaceName o (input.state.get o.spec.domain)
        (input.skew o.key) (some reason)).1) ∨
    (compileAndFit c input limit).outcome o.key = input.outcomeOf o ∧
      (ComesTo c input limit o.spec.domain → claimant input o.spec.domain ≠ some o) := by
  obtain ⟨n, hfit, hstops⟩ := fit_run c input limit (compile input)
  have hsame : ∀ {d : Text} {o' : Object}, claimant input d = some o' → o'.key = o.key →
      o' = o ∧ d = o.spec.domain := by
    intro d o' ho' hkey
    obtain ⟨hmem, rfl⟩ := claimant_mem ho'
    obtain rfl := List.inj_on_of_nodup_map hdistinct hmem ho (congrArg ObjectKey.name hkey)
    exact ⟨rfl, rfl⟩
  rw [compileAndFit, hfit, Result.outcome]
  by_cases htaken : o.spec.domain ∈ (edits c input).take n ∧
      claimant input o.spec.domain = some o
  · obtain ⟨hmem, hclaimant⟩ := htaken
    obtain ⟨reason, hlookup⟩ := @foldl_setBack_outcome c input limit o _ _ hmem hclaimant
      (fun d o' ho' hkey => (hsame ho' hkey).2) (compile input)
    refine Or.inl ⟨reason, ?_⟩
    rw [setBackFirst, hlookup]
    rfl
  · refine Or.inr ⟨?_, fun hcomes hclaimant =>
      htaken ⟨(comesTo_iff hstops).mp hcomes, hclaimant⟩⟩
    have hkey : (setBackFirst c input limit (compile input) n).policies.lookup o.key =
        (compile input).policies.lookup o.key := by
      refine foldl_setBack_key fun d hd o' ho' hkey => htaken ?_
      obtain ⟨rfl, rfl⟩ := hsame ho' hkey
      exact ⟨hd, ho'⟩
    rw [hkey, compile_outcome hdistinct ho]
    rfl

/-- A policy whose outcome is good has its latest generation compiled. -/
theorem outcome_good (hdistinct : input.Distinct) (ho : o ∈ input.policies)
    (herr : ((compileAndFit c input limit).outcome o.key).err = none)
    (hfits : ((compileAndFit c input limit).outcome o.key).tooLarge = false) :
    o.WellNamed ∧ o.Good input.namespaceName (input.skew o.key) ∧
      ((compileAndFit c input limit).outcome o.key).activeGeneration = o.generation ∧
      ((compileAndFit c input limit).outcome o.key).uid = o.uid ∧
      (ComesTo c input limit o.spec.domain → claimant input o.spec.domain ≠ some o) := by
  rcases @outcome_cases c input limit o hdistinct ho with ⟨reason, hback⟩ | ⟨hcompiled, hcomes⟩
  · exfalso
    rw [hback] at herr hfits
    by_cases hgood : o.Good input.namespaceName (input.skew o.key)
    · rw [(compileDomainFitting_tooLarge hgood reason).2.2] at hfits
      cases hfits
    · exact (compileDomainFitting_invalid hgood).2.1 herr
  · rw [hcompiled] at herr hfits ⊢
    unfold Input.outcomeOf at herr hfits ⊢
    by_cases hnamed : o.WellNamed
    · rw [if_pos hnamed] at herr hfits ⊢
      have hgood : o.Good input.namespaceName (input.skew o.key) := by
        by_contra hbad
        exact (compileDomainFitting_invalid hbad).2.1 herr
      have hlatest := @compileDomainFitting_latest input.namespaceName o
        (input.state.get o.spec.domain) (input.skew o.key) hgood
      exact ⟨hnamed, hgood, hlatest.active, hlatest.uid, hcomes⟩
    · rw [if_neg hnamed] at herr
      cases herr

/-- The domain of a policy that compiled holds its latest generation, unless it was set
back. -/
theorem state_latest_iff (hdistinct : input.Distinct) (ho : o ∈ input.policies)
    (hnamed : o.WellNamed) (hgood : o.Good input.namespaceName (input.skew o.key)) :
    (compileAndFit c input limit).state.lookup o.spec.domain = some o.latest ↔
      ¬ComesTo c input limit o.spec.domain := by
  obtain ⟨n, hfit, hstops⟩ := fit_run c input limit (compile input)
  have hstate : (compile input).state.lookup o.spec.domain = some o.latest := by
    rw [(compile_mem hdistinct ho hnamed).state]
    exact congrArg some (compileDomainFitting_latest hgood).bundle
  rw [comesTo_iff hstops, compileAndFit, hfit]
  constructor
  · intro hlatest hmem
    obtain ⟨o', ho'⟩ := exists_claimant ho
    rw [setBackFirst, (foldl_setBack_mem hmem ho').1] at hlatest
    obtain ⟨b, hb, hmoved⟩ := mem_candidates.mp (List.mem_of_mem_take hmem)
    obtain rfl := Option.some.inj (hb.symm.trans hstate)
    -- what was persisted is not the generation that moved
    rcases setBackTo_cases input o' with hzero | ⟨hprevious, hne⟩
    · rw [hzero] at hlatest
      rw [← Option.some.inj hlatest] at hmoved
      simp [moved, Bundle.zero] at hmoved
    · rw [(claimant_mem ho').2] at hprevious hne
      rw [hprevious] at hlatest
      rw [← Option.some.inj hlatest] at hmoved
      simp [moved, lookup_of_get hne] at hmoved
  · intro hmem
    rw [setBackFirst, (foldl_setBack_other hmem).1, hstate]

end Judged

/-- The generation that the compilation read compiles and is the one in the state, there
are ready endpoints, and each of them served it when it answered. -/
structure Enforced (c : Codec) (input : Input) (limit : ℕ) (fleet : Endpoint → Config.Trace)
    (round : FleetRound) (o : Object) : Prop where
  compiles : Compiles input.namespaceName o.spec.domain o.spec
  state : (compileAndFit c input limit).state.lookup o.spec.domain = some o.latest
  counted : 0 < round.endpoints.length
  serving : ∀ e ∈ round.endpoints, ∃ d,
    (fleet e).watcher.applier.current.domains.lookup o.spec.domain = some d ∧
      d.snapshot = (compileSpec input.namespaceName o.spec.domain o.spec).1

/-- A policy that is reported Ready is enforced, exactly if its domain was not taken over
by another object in the fit. -/
theorem ready_enforced_iff {c : Codec} {input : Input} {limit : ℕ} {o : Object}
    {specOf : Text → ℤ → Spec} {fleet : Endpoint → Config.Trace} {round : FleetRound}
    {freshness since deadline : ℤ} (hdistinct : input.Distinct) (ho : o ∈ input.policies)
    (hspec : o.spec = specOf o.uid o.generation)
    (hround : Honest c input.namespaceName specOf fleet round)
    (hready : (statusOf c input limit round freshness o since deadline).ready = .conditionTrue) :
    Enforced c input limit fleet round o ↔ ¬TakenOver c input limit o := by
  obtain ⟨herr, hfits, view, hview, htotal, happlied⟩ := judge_ready.mp hready
  obtain ⟨hnamed, hgood, hactive, huid, hcomes⟩ := outcome_good hdistinct ho herr hfits
  have hiff := @state_latest_iff c input limit o hdistinct ho hnamed hgood
  unfold FleetRound.observe at hview
  split at hview
  · cases hview
  obtain rfl := Except.ok.inj hview
  constructor
  · intro henforced htaken
    exact hiff.mp henforced.state htaken.2
  · intro hnot
    refine ⟨hgood.2, hiff.mpr fun hin => hnot ⟨hcomes hin, hin⟩, Nat.pos_of_ne_zero htotal, ?_⟩
    intro e he
    obtain ⟨report, reported, hanswer, hreported, hgeneration, hsame⟩ :=
      applied_of_all happlied e he
    obtain ⟨rfl, visits, hreplica⟩ := hround e report hanswer
    obtain ⟨d, hd, hsnapshot⟩ := hreplica.serves hreported
    refine ⟨d, hd, ?_⟩
    rw [hsnapshot, hgeneration, hsame, hactive, huid, ← hspec]

section Sample

def servedCodec : Codec := storedCodec { knownLimits with
  manifests := [⟨1, ascii "v1", Finmap.singleton (ascii "a") ⟨2, ascii "uid-a",
    ((storedCodec knownLimits).encodePayload (limitSpec (ascii "a") (longName 45))).2⟩⟩] }

def servedInput : Input where
  namespaceName := ascii "prod"
  policies := [limitObject (ascii "a") 2 45]
  skew _ := []
  state := ∅
  operatorVersion := ascii "v1"

def servedTrace : Config.Trace := .after servedCodec (ascii "prod") [⟨1, mount
  (configOf servedCodec (ascii "v1") (compileAndFit servedCodec servedInput (2 ^ 20)).state)⟩]

def servedRound : FleetRound :=
  takeRound 2 3 [(⟨ascii "ratelimit-0", ascii "10.0.0.1", 9090⟩,
    .ok servedTrace.watcher.applier.report)]

def servedSpec (_ : Text) (_ : ℤ) : Spec := limitSpec (ascii "a") (longName 45)

theorem servedInput_state : (compileAndFit servedCodec servedInput (2 ^ 20)).state =
    Finmap.singleton (ascii "a") (limitBundle (ascii "a") 2 45) := by
  decide +kernel

theorem servedRound_honest :
    Honest servedCodec (ascii "prod") servedSpec (fun _ => servedTrace) servedRound := by
  have hbundle : ∀ domain b,
      (compileAndFit servedCodec servedInput (2 ^ 20)).state.lookup domain = some b →
      b = limitBundle (ascii "a") 2 45 := by
    intro domain b hb
    rw [servedInput_state] at hb
    by_cases hdomain : domain = ascii "a"
    · rw [hdomain, Finmap.lookup_singleton_eq] at hb
      exact (Option.some.inj hb).symm
    · rw [Finmap.lookup_eq_none.mpr (by simpa using hdomain)] at hb
      cases hb
  intro e report hanswer
  have hreply := lookup_takeRound hanswer
  obtain ⟨-, hreport⟩ := Prod.mk.inj (List.mem_singleton.mp hreply)
  refine ⟨Except.ok.inj hreport, _, rfl, ?_, ?_⟩
  · intro v hv v' hv' domain hash spec spec' h h'
    obtain rfl := List.mem_singleton.mp hv
    obtain rfl := List.mem_singleton.mp hv'
    exact h.unique h'
  · intro v hv cfg hread
    obtain rfl := List.mem_singleton.mp hv
    refine ⟨servedInput, 2 ^ 20, rfl, rfl, ⟨?_, fun domain b hb _ => ?_⟩, fun domain b hb _ => ?_⟩
    · rw [servedInput_state]
      unfold Codec.ReadsManifest
      decide +kernel
    · rw [hbundle domain b hb]
      unfold Codec.ReadsSpec
      decide +kernel
    · rw [hbundle domain b hb]
      rfl

def sharedInput : Input :=
  servedInput.withPolicies [limitObject (ascii "a") 2 45, limitObject (ascii "b") 2 30]

theorem ready_enforced_shared :
    Enforced servedCodec sharedInput (2 ^ 20) (fun _ => servedTrace) servedRound
      (limitObject (ascii "a") 2 45) := by
  refine (@ready_enforced_iff servedCodec sharedInput (2 ^ 20) (limitObject (ascii "a") 2 45)
    servedSpec (fun _ => servedTrace) servedRound 0 0 0 (by unfold Input.Distinct; decide +kernel)
    List.mem_cons_self rfl servedRound_honest (by decide +kernel)).mpr fun htaken => ?_
  exact htaken.1 (by decide +kernel)

/-- The same namespace with 805 bytes to fit in, and an object that claims the domain under
another name: the policy is reported Ready while its domain is emptied. -/
theorem ready_enforced_stray :
    Honest servedCodec (ascii "prod") servedSpec (fun _ => servedTrace) servedRound ∧
      (statusOf servedCodec (sharedInput.withPolicies (sharedInput.policies ++ [strayObject])) 805
        servedRound 0 (limitObject (ascii "a") 2 45) 0 0).ready = .conditionTrue ∧
      ¬Enforced servedCodec (sharedInput.withPolicies (sharedInput.policies ++ [strayObject])) 805
        (fun _ => servedTrace) servedRound (limitObject (ascii "a") 2 45) := by
  refine ⟨servedRound_honest, by decide +kernel, fun henforced => ?_⟩
  have hempty : (compileAndFit servedCodec
      (sharedInput.withPolicies (sharedInput.policies ++ [strayObject])) 805).state.lookup
        (ascii "a") = some .zero := by decide +kernel
  have hzero := hempty.symm.trans henforced.state
  exact absurd hzero (by decide +kernel)

end Sample

end Ratelimit.Operator
