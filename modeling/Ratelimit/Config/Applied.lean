import Ratelimit.Api.StoredCodec
import Ratelimit.Config.Replica

/-!
# A replica reports what it runs

Engines are reused by the hash of their payload, kept as last-good under the hash they
came from, or empty under no hash. Over any sequence of readings, the recorded hash
says which, and the reported generation is that of the payload that is served.
-/
namespace Ratelimit.Config

open Api Library

/-- One call of the watcher: when, and what the directory holds. -/
structure Visit where
  now : ℤ
  dir : Directory

/-- A watcher and the configurations it has applied. -/
structure Trace where
  watcher : Watcher
  log : List Configuration

/-- The configuration that a call applies, if it does. -/
def Watcher.applies (c : Codec) (w : Watcher) (dir : Directory) : List Configuration :=
  match Config.read c dir with
  | .valid cfg => if w.current cfg then [] else [cfg]
  | _ => []

def Trace.visit (c : Codec) (t : Trace) (v : Visit) : Trace :=
  ⟨t.watcher.read c v.now v.dir, t.watcher.applies c v.dir ++ t.log⟩

def Trace.after (c : Codec) (namespaceName : Text) (visits : List Visit) : Trace :=
  visits.foldl (Trace.visit c) ⟨.new namespaceName, []⟩

/-- Payloads of a domain with the same hash hold the same spec. -/
def NoCollision (c : Codec) (visits : List Visit) : Prop :=
  ∀ v ∈ visits, ∀ v' ∈ visits, ∀ domain hash spec spec', Decoded c v.dir domain hash spec →
    Decoded c v'.dir domain hash spec' → spec = spec'

/-- The domain is served as compiled from the payload that an applied reading had for
the generation and the object that are reported. -/
structure Served (a : Applier) (log : List Configuration) (domain : Text) (d : Domain)
    (cfg : Configuration) (entry : DomainEntry) (spec : Spec) : Prop where
  applied : cfg ∈ log
  indexed : cfg.manifest.domains.lookup domain = some entry
  decoded : cfg.specs.lookup domain = some spec
  generation : d.generation = entry.generation
  uid : d.uid = entry.uid
  hash : a.hashOf domain = entry.hash
  compiles : Compiles a.namespaceName domain spec
  snapshot : d.snapshot = (compileSpec a.namespaceName domain spec).1

def IsServed (a : Applier) (log : List Configuration) (domain : Text) (d : Domain) : Prop :=
  ∃ cfg entry spec, Served a log domain d cfg entry spec

/-- The domain is claimed and enforces nothing, at generation zero. -/
structure Unserved (a : Applier) (domain : Text) (d : Domain) : Prop where
  generation : d.generation = 0
  hash : a.hashOf domain = []
  snapshot : d.snapshot = (compileSpec a.namespaceName domain (.claiming domain)).1

structure Faithful (c : Codec) (visits : List Visit) (log : List Configuration) (a : Applier) :
    Prop where
  published : a.current.domains = a.domains
  readings : ∀ cfg ∈ log, ∃ v ∈ visits, Config.read c v.dir = .valid cfg
  served : ∀ domain d, a.domains.lookup domain = some d →
    IsServed a log domain d ∨ Unserved a domain d

variable {c : Codec} {visits : List Visit} {log : List Configuration} {a : Applier} {now : ℤ}
  {domain : Text} {entry : DomainEntry} {spec : Spec} {cfg : Configuration} {d : Domain}

section Applying

/-- The four ways a domain of a reading is settled. -/
inductive Settles (a : Applier) (now : ℤ) (domain : Text) (entry : DomainEntry) (spec : Spec) :
    Domain × Text → Prop
  | reused (built : Domain) (kept : a.domains.lookup domain = some built)
      (same : a.hashOf domain = entry.hash) :
      Settles a now domain entry spec
        (⟨built.snapshot, entry.generation, entry.uid, now⟩, entry.hash)
  | compiled (compiles : Compiles a.namespaceName domain spec) :
      Settles a now domain entry spec
        (⟨(compileSpec a.namespaceName domain spec).1, entry.generation, entry.uid, now⟩, entry.hash)
  | lastGood (built : Domain) (fails : ¬Compiles a.namespaceName domain spec)
      (kept : a.domains.lookup domain = some built) (hash : a.hashOf domain ≠ []) :
      Settles a now domain entry spec
        (⟨built.snapshot, built.generation, built.uid, now⟩, a.hashOf domain)
  | empty (fails : ¬Compiles a.namespaceName domain spec)
      (unkept : a.domains.lookup domain = none ∨ a.hashOf domain = []) :
      Settles a now domain entry spec
        (⟨(compileSpec a.namespaceName domain (.claiming domain)).1, 0, entry.uid, now⟩, [])

theorem applyDomain_settles :
    Settles a now domain entry spec (a.applyDomain now domain entry spec) := by
  unfold Applier.applyDomain
  dsimp only
  split
  · next built hbuilt =>
    obtain ⟨hkept, hsame⟩ := Option.filter_eq_some_iff.mp hbuilt
    exact .reused built hkept (of_decide_eq_true hsame)
  · split_ifs with hcompiles
    · exact .compiled hcompiles
    · split
      · next built hbuilt =>
        obtain ⟨hkept, hne⟩ := Option.filter_eq_some_iff.mp hbuilt
        exact .lastGood built hcompiles hkept (of_decide_eq_true hne)
      · next hnone =>
        refine .empty hcompiles ?_
        cases hkept : a.domains.lookup domain with
        | none => exact Or.inl rfl
        | some built =>
          rw [hkept] at hnone
          exact Or.inr (by simpa using Option.filter_eq_none_iff.mp hnone)

theorem lookup_settle : (a.settle now cfg).lookup domain =
    (cfg.manifest.domains.lookup domain).bind fun entry =>
      (cfg.specs.lookup domain).map (a.applyDomain now domain entry) :=
  lookup_filterMapEntries _ _

/-- What is served after an apply was settled for an entry of the manifest. -/
theorem lookup_apply (h : (a.apply now cfg).domains.lookup domain = some d) :
    ∃ entry spec, cfg.manifest.domains.lookup domain = some entry ∧
      cfg.specs.lookup domain = some spec ∧
      Settles a now domain entry spec (d, (a.apply now cfg).hashOf domain) := by
  have hdomains : (a.apply now cfg).domains.lookup domain =
      ((a.settle now cfg).lookup domain).bind fun s => some s.1 := lookup_filterMapEntries _ _
  have hhashes : (a.apply now cfg).hashes.lookup domain =
      ((a.settle now cfg).lookup domain).bind fun s => some s.2 := lookup_filterMapEntries _ _
  rw [hdomains] at h
  obtain ⟨s, hs, hd⟩ := Option.bind_eq_some_iff.mp h
  rw [hs] at hhashes
  rw [lookup_settle] at hs
  obtain ⟨entry, hentry, hmap⟩ := Option.bind_eq_some_iff.mp hs
  obtain ⟨spec, hspec, rfl⟩ := Option.map_eq_some_iff.mp hmap
  obtain rfl := Option.some.inj hd
  refine ⟨entry, spec, hentry, hspec, ?_⟩
  rw [Applier.hashOf, hhashes]
  exact applyDomain_settles

theorem apply_bound (hentry : cfg.manifest.domains.lookup domain = some entry)
    (hspec : cfg.specs.lookup domain = some spec) :
    ∃ d, (a.apply now cfg).domains.lookup domain = some d := by
  have hdomains : (a.apply now cfg).domains.lookup domain =
      ((a.settle now cfg).lookup domain).bind fun s => some s.1 := lookup_filterMapEntries _ _
  rw [hdomains, lookup_settle, hentry, Option.bind_some, hspec]
  exact ⟨_, rfl⟩

theorem IsServed.keep {a' : Applier} {log' : List Configuration} {d' : Domain}
    (h : IsServed a log domain d) (hlog : ∀ cfg ∈ log, cfg ∈ log')
    (hnamespace : a'.namespaceName = a.namespaceName)
    (hhash : a'.hashOf domain = a.hashOf domain) (hsnapshot : d'.snapshot = d.snapshot)
    (hgeneration : d'.generation = d.generation) (huid : d'.uid = d.uid) :
    IsServed a' log' domain d' := by
  obtain ⟨cfg, entry, spec, hs⟩ := h
  exact ⟨cfg, entry, spec, hlog cfg hs.applied, hs.indexed, hs.decoded, hgeneration.trans hs.generation,
    huid.trans hs.uid, hhash.trans hs.hash, hnamespace ▸ hs.compiles,
    hsnapshot.trans (hnamespace ▸ hs.snapshot)⟩

theorem IsServed.hash_ne (hlog : ∀ cfg ∈ log, ∃ v ∈ visits, Config.read c v.dir = .valid cfg)
    (h : IsServed a log domain d) : a.hashOf domain ≠ [] := by
  obtain ⟨cfg, entry, spec, hs⟩ := h
  obtain ⟨v, -, hread⟩ := hlog cfg hs.applied
  obtain ⟨-, -, hspecs⟩ := read_valid hread
  obtain ⟨spec', -, hdecoded⟩ := hspecs domain entry hs.indexed
  rw [hs.hash]
  exact hdecoded.hash_ne

theorem IsServed.reused (hcollision : NoCollision c visits)
    (hlog : ∀ cfg ∈ log, ∃ v ∈ visits, Config.read c v.dir = .valid cfg)
    {v : Visit} (hv : v ∈ visits) (hspec : Decoded c v.dir domain entry.hash spec)
    (hsame : a.hashOf domain = entry.hash) (h : IsServed a log domain d) :
    Compiles a.namespaceName domain spec ∧
      d.snapshot = (compileSpec a.namespaceName domain spec).1 := by
  obtain ⟨cfg', entry', spec', hs⟩ := h
  obtain ⟨v', hv', hread⟩ := hlog cfg' hs.applied
  obtain ⟨-, -, hspecs⟩ := read_valid hread
  obtain ⟨spec'', hlookup, hdecoded⟩ := hspecs domain entry' hs.indexed
  obtain rfl : spec' = spec'' := Option.some.inj (hs.decoded.symm.trans hlookup)
  rw [← hs.hash, hsame] at hdecoded
  obtain rfl := hcollision v' hv' v hv domain entry.hash spec' spec hdecoded hspec
  exact ⟨hs.compiles, hs.snapshot⟩

theorem Faithful.apply (hcollision : NoCollision c visits) (h : Faithful c visits log a)
    {v : Visit} (hv : v ∈ visits) (hread : Config.read c v.dir = .valid cfg) :
    Faithful c visits (cfg :: log) (a.apply now cfg) := by
  obtain ⟨-, -, hspecs⟩ := read_valid hread
  refine ⟨rfl, List.forall_mem_cons.mpr ⟨⟨v, hv, hread⟩, h.readings⟩, fun domain d hd => ?_⟩
  obtain ⟨entry, spec, hentry, hspec, hsettles⟩ := lookup_apply hd
  obtain ⟨spec', hlookup, hdecoded⟩ := hspecs domain entry hentry
  obtain rfl : spec = spec' := Option.some.inj (hspec.symm.trans hlookup)
  generalize hhash : (a.apply now cfg).hashOf domain = hash at hsettles
  cases hsettles with
  | reused built kept same =>
    rcases h.served domain built kept with hserved | hunserved
    · obtain ⟨hcompiles, hsnapshot⟩ :=
        hserved.reused hcollision h.readings hv hdecoded same
      exact Or.inl ⟨cfg, entry, spec, List.mem_cons_self, hentry, hspec, rfl, rfl, hhash, hcompiles,
        hsnapshot⟩
    · exact absurd (same.symm.trans hunserved.hash) hdecoded.hash_ne
  | compiled compiles =>
    exact Or.inl ⟨cfg, entry, spec, List.mem_cons_self, hentry, hspec, rfl, rfl, hhash, compiles, rfl⟩
  | lastGood built fails kept hne =>
    rcases h.served domain built kept with hserved | hunserved
    · exact Or.inl (hserved.keep (fun cfg hcfg => List.mem_cons_of_mem _ hcfg) rfl hhash rfl rfl rfl)
    · exact absurd hunserved.hash hne
  | empty fails unkept => exact Or.inr ⟨rfl, hhash, rfl⟩

theorem IsServed.apply (hcollision : NoCollision c visits) (h : Faithful c visits log a)
    {v : Visit} (hv : v ∈ visits) (hread : Config.read c v.dir = .valid cfg)
    (hd : a.domains.lookup domain = some d) (hserved : IsServed a log domain d)
    (hentry : cfg.manifest.domains.lookup domain = some entry) :
    ∃ d', (a.apply now cfg).domains.lookup domain = some d' ∧
      IsServed (a.apply now cfg) (cfg :: log) domain d' := by
  obtain ⟨-, -, hspecs⟩ := read_valid hread
  obtain ⟨spec, hspec, -⟩ := hspecs domain entry hentry
  obtain ⟨d', hd'⟩ := @apply_bound a now domain entry spec cfg hentry hspec
  refine ⟨d', hd', ?_⟩
  rcases (h.apply hcollision hv hread).served domain d' hd' with hserved' | hunserved
  · exact hserved'
  · -- the hash says that nothing was kept, but there was something to keep
    exfalso
    obtain ⟨entry', spec', hentry', -, hsettles⟩ := lookup_apply hd'
    obtain ⟨spec'', -, hdecoded⟩ := hspecs domain entry' hentry'
    have hne := hserved.hash_ne h.readings
    rw [hunserved.hash] at hsettles
    generalize hhash : ([] : Text) = hash at hsettles
    cases hsettles with
    | reused built kept same => exact hdecoded.hash_ne hhash.symm
    | compiled compiles => exact hdecoded.hash_ne hhash.symm
    | lastGood built fails kept hne => exact hne hhash.symm
    | empty fails unkept =>
      rcases unkept with hnone | hempty
      · rw [hd] at hnone
        cases hnone
      · exact hne hempty

end Applying

section Visiting

variable {t : Trace} {v : Visit} {namespaceName : Text}

theorem Faithful.same {a' : Applier} (h : Faithful c visits log a) (hsame : SameRules a a') :
    Faithful c visits log a' := by
  have hhash : ∀ domain, a'.hashOf domain = a.hashOf domain := fun domain => by
    rw [Applier.hashOf, hsame.hashes, Applier.hashOf]
  refine ⟨?_, h.readings, fun domain d hd => ?_⟩
  · rw [hsame.current, hsame.domains]
    exact h.published
  · rw [hsame.domains] at hd
    rcases h.served domain d hd with hserved | ⟨hgeneration, hempty, hsnapshot⟩
    · exact Or.inl (hserved.keep (fun _ h => h) hsame.namespaceName (hhash domain) rfl rfl rfl)
    · refine Or.inr ⟨hgeneration, (hhash domain).trans hempty, ?_⟩
      rw [hsame.namespaceName]
      exact hsnapshot

/-- A call applies a configuration that is new, or it leaves the rules alone. -/
theorem Trace.visit_cases (c : Codec) (t : Trace) (v : Visit) :
    (∃ cfg, Config.read c v.dir = .valid cfg ∧
      t.visit c v = ⟨t.watcher.read c v.now v.dir, cfg :: t.log⟩ ∧
      (t.visit c v).watcher.applier = t.watcher.present.applier.apply v.now cfg) ∨
    ((t.visit c v).log = t.log ∧ SameRules t.watcher.applier (t.visit c v).watcher.applier) := by
  by_cases hnew : ∃ cfg, Config.read c v.dir = .valid cfg ∧ t.watcher.current cfg = false
  · obtain ⟨cfg, hread, hnew⟩ := hnew
    refine Or.inl ⟨cfg, hread, ?_, Watcher.read_applied hread hnew⟩
    simp [Trace.visit, Watcher.applies, hread, hnew]
  · have hcurrent : ∀ cfg, Config.read c v.dir = .valid cfg → t.watcher.current cfg = true := by
      intro cfg hread
      by_contra hnot
      exact hnew ⟨cfg, hread, Bool.eq_false_iff.mpr hnot⟩
    refine Or.inr ⟨?_, Watcher.read_unapplied hcurrent⟩
    unfold Trace.visit Watcher.applies
    split
    · next cfg hread => simp [hcurrent cfg hread]
    · rfl

theorem Faithful.visit (hcollision : NoCollision c visits) (hv : v ∈ visits)
    (h : Faithful c visits t.log t.watcher.applier) :
    Faithful c visits (t.visit c v).log (t.visit c v).watcher.applier := by
  rcases t.visit_cases c v with ⟨cfg, hread, heq, happlier⟩ | ⟨hlog, hsame⟩
  · rw [happlier, heq]
    exact (h.same Watcher.present_rules).apply hcollision hv hread
  · rw [hlog]
    exact h.same hsame

theorem faithful_after (hcollision : NoCollision c visits) :
    ∀ {done : List Visit}, (∀ v ∈ done, v ∈ visits) →
      Faithful c visits (Trace.after c namespaceName done).log
        (Trace.after c namespaceName done).watcher.applier := by
  intro done
  induction done using List.reverseRecOn with
  | nil => exact fun _ => ⟨rfl, nofun, fun domain d hd => by cases hd⟩
  | append_singleton done v ih =>
    intro hsub
    have hbefore := ih fun v hv => hsub v (List.mem_append_left _ hv)
    have hafter := hbefore.visit hcollision (hsub v (List.mem_append_right _ (by simp)))
    rw [Trace.after, List.foldl_append]
    exact hafter

theorem namespaceName_after :
    (Trace.after c namespaceName visits).watcher.applier.namespaceName = namespaceName := by
  induction visits using List.reverseRecOn with
  | nil => rfl
  | append_singleton visits v ih =>
    rw [Trace.after, List.foldl_append]
    rcases (Trace.after c namespaceName visits).visit_cases c v with
      ⟨cfg, -, -, happlier⟩ | ⟨-, hsame⟩
    · exact (congrArg Applier.namespaceName happlier).trans
        (Watcher.present_rules.namespaceName.trans ih)
    · exact hsame.namespaceName.trans ih

theorem served_after (hcollision : NoCollision c visits)
    (hcompiles : ∀ v ∈ visits, ∀ cfg, Config.read c v.dir = .valid cfg → ∀ domain entry spec,
      cfg.manifest.domains.lookup domain = some entry → cfg.specs.lookup domain = some spec →
        Compiles namespaceName domain spec)
    (hd : (Trace.after c namespaceName visits).watcher.applier.domains.lookup domain = some d) :
    IsServed (Trace.after c namespaceName visits).watcher.applier
      (Trace.after c namespaceName visits).log domain d := by
  -- a domain that is bound has a hash
  have hhashed : ∀ domain d,
      (Trace.after c namespaceName visits).watcher.applier.domains.lookup domain = some d →
      (Trace.after c namespaceName visits).watcher.applier.hashOf domain ≠ [] := by
    clear hd hcollision
    induction visits using List.reverseRecOn with
    | nil => exact fun domain d hd => by cases hd
    | append_singleton visits v ih =>
      have hbefore := ih fun v hv => hcompiles v (List.mem_append_left _ hv)
      have hnamespace := @namespaceName_after c visits namespaceName
      have hsnoc : Trace.after c namespaceName (visits ++ [v]) =
          (Trace.after c namespaceName visits).visit c v := by
        rw [Trace.after, List.foldl_append]
        rfl
      rw [hsnoc]
      generalize Trace.after c namespaceName visits = t at hbefore hnamespace ⊢
      intro domain d hd
      rcases t.visit_cases c v with ⟨cfg, hread, -, happlier⟩ | ⟨-, hsame⟩
      · rw [happlier] at hd ⊢
        obtain ⟨entry, spec, hentry, hspec, hsettles⟩ := lookup_apply hd
        obtain ⟨-, -, hspecs⟩ := read_valid hread
        obtain ⟨spec', -, hdecoded⟩ := hspecs domain entry hentry
        generalize (t.watcher.present.applier.apply v.now cfg).hashOf domain = hash at hsettles ⊢
        cases hsettles with
        | reused built kept same => exact hdecoded.hash_ne
        | compiled compiles => exact hdecoded.hash_ne
        | lastGood built fails kept hne => exact hne
        | empty fails unkept =>
          have hv : v ∈ visits ++ [v] := List.mem_append_right _ (List.mem_singleton_self v)
          rw [Watcher.present_rules.namespaceName, hnamespace] at fails
          exact absurd (hcompiles v hv cfg hread domain entry spec hentry hspec) fails
      · rw [hsame.domains] at hd
        rw [Applier.hashOf, hsame.hashes]
        exact hbefore domain d hd
  rcases (faithful_after hcollision fun v hv => hv).served domain d hd with hserved | hunserved
  · exact hserved
  · exact absurd hunserved.hash (hhashed domain d hd)

end Visiting

/-- What a replica reports and runs, and what one more call may change of it. -/
structure ReportsWhatItRuns (c : Codec) (t : Trace) (v : Visit) : Prop where
  /-- A bound domain is served as the payload of the generation it reports, or is empty
  and reported at generation zero. -/
  runs : ∀ domain d, t.watcher.applier.current.domains.lookup domain = some d →
    t.watcher.applier.report.domains.lookup domain = some ⟨d.generation, d.uid, d.appliedAt⟩ ∧
      (IsServed t.watcher.applier t.log domain d ∨ Unserved t.watcher.applier domain d)
  /-- A domain that is served stays so, as long as the manifest has it. -/
  stays : ∀ domain d, t.watcher.applier.current.domains.lookup domain = some d →
    IsServed t.watcher.applier t.log domain d →
    (∀ cfg, read c v.dir = .valid cfg → domain ∈ cfg.manifest.domains) →
    ∃ d', (t.visit c v).watcher.applier.current.domains.lookup domain = some d' ∧
      IsServed (t.visit c v).watcher.applier (t.visit c v).log domain d'
  /-- A call that reads no valid configuration changes no domain. -/
  unchanged : (∀ cfg, read c v.dir ≠ .valid cfg) →
    (t.visit c v).watcher.applier.current.domains = t.watcher.applier.current.domains ∧
      (t.visit c v).watcher.applier.report.domains = t.watcher.applier.report.domains ∧
      SameRules t.watcher.applier (t.visit c v).watcher.applier

/-- A replica reports what it runs, after any readings of the directory. -/
theorem reports_what_it_runs {c : Codec} {namespaceName : Text} {visits : List Visit} {v : Visit}
    (hcollision : NoCollision c (visits ++ [v])) :
    ReportsWhatItRuns c (Trace.after c namespaceName visits) v := by
  have hfaithful := @faithful_after c (visits ++ [v]) namespaceName hcollision visits
    fun v hv => List.mem_append_left _ hv
  have hv : v ∈ visits ++ [v] := List.mem_append_right _ (List.mem_singleton_self v)
  generalize Trace.after c namespaceName visits = t at hfaithful ⊢
  refine ⟨fun domain d hd => ?_, fun domain d hd hserved hstays => ?_, fun hinvalid => ?_⟩
  · constructor
    · rw [Applier.report, lookup_filterMapEntries, hd]
      rfl
    · rw [hfaithful.published] at hd
      exact hfaithful.served domain d hd
  · rw [hfaithful.published] at hd
    rcases t.visit_cases c v with ⟨cfg, hread, heq, happlier⟩ | ⟨hlog, hsame⟩
    · obtain ⟨entry, hentry⟩ :=
        Option.isSome_iff_exists.mp (Finmap.lookup_isSome.mpr (hstays cfg hread))
      have hpresent := @Watcher.present_rules t.watcher
      have hserved' : IsServed t.watcher.present.applier t.log domain d := by
        refine hserved.keep (fun _ h => h) hpresent.namespaceName ?_ rfl rfl rfl
        rw [Applier.hashOf, hpresent.hashes, Applier.hashOf]
      obtain ⟨d', hd', hserved''⟩ := @IsServed.apply c (visits ++ [v]) t.log
        t.watcher.present.applier v.now domain entry cfg d hcollision (hfaithful.same hpresent) v hv
        hread (hpresent.domains ▸ hd) hserved' hentry
      refine ⟨d', ?_, ?_⟩
      · rw [happlier]
        exact hd'
      · rw [happlier, heq]
        exact hserved''
    · refine ⟨d, ?_, ?_⟩
      · rw [hsame.current, hfaithful.published]
        exact hd
      · rw [hlog]
        refine hserved.keep (fun _ h => h) hsame.namespaceName ?_ rfl rfl rfl
        rw [Applier.hashOf, hsame.hashes, Applier.hashOf]
  · have hsame : SameRules t.watcher.applier (t.visit c v).watcher.applier :=
      Watcher.read_unapplied fun cfg hread => absurd hread (hinvalid cfg)
    refine ⟨hsame.current, ?_, hsame⟩
    rw [Applier.report, hsame.current, Applier.report]

section Sample

def directoryOf (files : List (Text × Text)) : Directory where
  file name :=
    match files.lookup name with
    | some raw => .bytes raw
    | none => .failed ⟨"open %s: no such file or directory", [.text name]⟩ true

def limitManifest : Manifest where
  formatVersion := 1
  operatorVersion := ascii "v1"
  domains := Finmap.singleton (ascii "a") ⟨1, ascii "uid-a", ascii "sha256:" ++
    ascii "8b0b2975172321c5fab3a4f24d9ff88eeae70f8a727e5e3a8927eda7df34aa50"⟩

def limitCodec : Codec := storedCodec
  { limits := [(ascii "a", ascii "r")]
    digests := [(limitJson (ascii "a") (ascii "r"),
      ascii "8b0b2975172321c5fab3a4f24d9ff88eeae70f8a727e5e3a8927eda7df34aa50")]
    manifests := [limitManifest] }

def limitDirectory : Directory := directoryOf [(manifestKey, manifestJson limitManifest),
  (payloadKey (ascii "a"), storedGzip (limitJson (ascii "a") (ascii "r")))]

def emptiedDirectory : Directory := directoryOf [(manifestKey, [])]

theorem limit_noCollision : NoCollision limitCodec [⟨1, limitDirectory⟩, ⟨2, emptiedDirectory⟩] := by
  -- both payloads are of one directory, hence the same
  have hempty : ∀ domain hash spec, ¬Decoded limitCodec emptiedDirectory domain hash spec := by
    rintro domain hash spec ⟨⟨compressed, hfile, -⟩, -⟩
    simp [emptiedDirectory, directoryOf, payloadKey_ne_manifestKey] at hfile
  intro v hv v' hv' domain hash spec spec' h h'
  rcases List.mem_pair.mp hv with rfl | rfl
  · rcases List.mem_pair.mp hv' with rfl | rfl
    · exact h.unique h'
    · exact absurd h' (hempty domain hash spec')
  · exact absurd h (hempty domain hash spec)

theorem reports_what_it_runs_emptied :
    ((Trace.after limitCodec (ascii "prod") [⟨1, limitDirectory⟩]).watcher.applier.report.domains.lookup
        (ascii "a") = some ⟨1, ascii "uid-a", 1⟩) ∧
      ReportsWhatItRuns limitCodec (Trace.after limitCodec (ascii "prod") [⟨1, limitDirectory⟩])
        ⟨2, emptiedDirectory⟩ :=
  ⟨by decide +kernel, reports_what_it_runs limit_noCollision⟩

end Sample

end Ratelimit.Config
