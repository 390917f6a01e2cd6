import Ratelimit.Config.Refusals

/-!
# A reading of a directory that is swapped meanwhile

The service reads the mounted directory file by file, and it can be swapped in between. The
manifest names the hash of each payload, so that its bytes settle the whole reading: one that
is accepted is of one written configuration, and a refusal does not outlast the next
undisturbed reading.
-/
namespace Ratelimit.Config

open Api Library

/-- Each file, which one call reads once, is of one of the directories swapped in, unless the
read of it fails. -/
def Torn (swapped : List Visit) (dir : Directory) : Prop :=
  ∀ name raw, dir.file name = .bytes raw → ∃ v ∈ swapped, v.dir.file name = .bytes raw

/-- A manifest that decodes has its payloads beside it. -/
def Complete (c : Codec) (dir : Directory) : Prop :=
  ∀ raw m, dir.file manifestKey = .bytes raw → c.decode raw = .ok m → ∃ cfg, read c dir = .valid cfg

variable {c : Codec} {swapped visits : List Visit} {dir dir' : Directory} {cfg cfg' : Configuration}
  {domain hash namespaceName : Text} {spec spec' : Spec} {v : Visit}

theorem torn_of_mem (hv : v ∈ swapped) : Torn swapped v.dir := fun _ _ h => ⟨v, hv, h⟩

theorem Torn.decoded (h : Torn swapped dir) (hdecoded : Decoded c dir domain hash spec) :
    ∃ v ∈ swapped, Decoded c v.dir domain hash spec := by
  obtain ⟨compressed, hfile, hdecode⟩ := hdecoded.payload
  obtain ⟨v, hv, hfile⟩ := h _ _ hfile
  exact ⟨v, hv, ⟨compressed, hfile, hdecode⟩, hdecoded.domain_eq⟩

theorem spec_unique (hcollision : NoCollision c swapped) (htorn : Torn swapped dir)
    (htorn' : Torn swapped dir') (h : Decoded c dir domain hash spec)
    (h' : Decoded c dir' domain hash spec') : spec = spec' := by
  obtain ⟨v, hv, hdecoded⟩ := htorn.decoded h
  obtain ⟨v', hv', hdecoded'⟩ := htorn'.decoded h'
  exact hcollision v hv v' hv' domain hash spec spec' hdecoded hdecoded'

theorem read_specs (h : read c dir = .valid cfg) :
    readSpecs c dir cfg.manifest (sortedDomains cfg.manifest) ∅ = .ok cfg.specs := by
  obtain ⟨hfile, hdecode, -⟩ := read_valid h
  simp only [read, hfile, hdecode] at h
  split at h
  · cases h
  · next specs hspecs =>
    rw [hspecs, ← Reading.valid.inj h]

/-- The bytes of the manifest are the identity of a reading. -/
theorem reading_unique (hcollision : NoCollision c swapped) (htorn : Torn swapped dir)
    (htorn' : Torn swapped dir') (h : read c dir = .valid cfg) (h' : read c dir' = .valid cfg')
    (hraw : cfg.raw = cfg'.raw) : cfg = cfg' := by
  have hspecs := readSpecs_ok (read_specs h)
  have hspecs' := readSpecs_ok (read_specs h')
  obtain ⟨-, hdecode, -⟩ := read_valid h
  obtain ⟨-, hdecode', -⟩ := read_valid h'
  obtain ⟨m, specs, raw⟩ := cfg
  obtain ⟨m', specs', raw'⟩ := cfg'
  obtain rfl : raw = raw' := hraw
  obtain rfl : m = m' := Except.ok.inj (hdecode.symm.trans hdecode')
  congr 1
  apply Finmap.ext_lookup
  intro domain
  by_cases hmem : domain ∈ sortedDomains m
  · obtain ⟨entry, hentry⟩ := Finmap.mem_iff.mp (Finmap.mem_keys.mp (mem_sortedBy.mp hmem))
    obtain ⟨spec, hspec, hdecoded⟩ := hspecs.2 domain hmem entry hentry
    obtain ⟨spec', hspec', hdecoded'⟩ := hspecs'.2 domain hmem entry hentry
    rw [hspec, hspec', spec_unique hcollision htorn htorn' hdecoded hdecoded']
  · rw [hspecs.1 domain hmem, hspecs'.1 domain hmem]

/-- The watcher keeps the bytes of the configuration that it applied last. -/
theorem applied_after : (Trace.after c namespaceName visits).watcher.applied =
    (Trace.after c namespaceName visits).log.head?.map Configuration.raw := by
  induction visits using List.reverseRecOn with
  | nil => rfl
  | append_singleton visits v ih =>
    rw [Trace.after, List.foldl_append]
    change (Watcher.read c _ _ _).applied = (Watcher.applies c _ _ ++ _).head?.map _
    unfold Watcher.read Watcher.applies
    cases read c v.dir with
    | absent =>
      dsimp only
      split_ifs <;> exact ih
    | unreadable err => exact ih
    | refused refusal =>
      dsimp only
      split_ifs <;> exact ih
    | valid cfg =>
      have hpresent (w : Watcher) : w.present.current cfg = w.current cfg := rfl
      dsimp only
      rw [hpresent]
      split_ifs
      · exact ih
      · rfl

/-- Readings of a directory that is swapped meanwhile are of one of the written ones each, and
the next undisturbed one is applied last, with no refusal left. -/
theorem torn_readings_settle (hcollision : NoCollision c swapped)
    (hcomplete : ∀ v ∈ swapped, Complete c v.dir) (htorn : ∀ v ∈ visits, Torn swapped v.dir) :
    (∀ v ∈ visits, ∀ cfg, read c v.dir = .valid cfg → ∃ w ∈ swapped, read c w.dir = .valid cfg) ∧
    ∀ v ∈ swapped, ∀ cfg, read c v.dir = .valid cfg → cfg.raw ≠ [] →
      let t := Trace.after c namespaceName (visits ++ [v])
      t.log.head? = some cfg ∧ t.refusing = false := by
  constructor
  · intro v hv cfg hread
    obtain ⟨hraw, hdecode, -⟩ := read_valid hread
    obtain ⟨w, hw, hfile⟩ := htorn v hv manifestKey cfg.raw hraw
    obtain ⟨cfg', hread'⟩ := hcomplete w hw cfg.raw cfg.manifest hfile hdecode
    have hsame := FileRead.bytes.inj (hfile.symm.trans (read_valid hread').1)
    rw [reading_unique hcollision (htorn v hv) (torn_of_mem hw) hread hread' hsame]
    exact ⟨w, hw, hread'⟩
  · intro v hv cfg hread hne
    refine ⟨?_, by rw [refusing_after_snoc, hread, refusingAfter]⟩
    have hfaithful := @faithful_after c visits namespaceName
      (fun v hv v' hv' _ _ _ _ => spec_unique hcollision (htorn v hv) (htorn v' hv')) visits
      fun _ hv => hv
    have happlied := @applied_after c visits namespaceName
    rw [Trace.after, List.foldl_append]
    change (Watcher.applies c (Trace.after c namespaceName visits).watcher v.dir ++ _).head? = _
    simp only [Watcher.applies, hread]
    split_ifs with hcurrent
    · -- the bytes are those of the last one that was applied, and so is the reading
      have hbytes : cfg.raw = (Trace.after c namespaceName visits).watcher.applied.getD [] :=
        of_decide_eq_true (Bool.and_eq_true_iff.mp hcurrent).1
      rw [happlied] at hbytes
      cases hlast : (Trace.after c namespaceName visits).log.head? with
      | none =>
        rw [hlast] at hbytes
        exact absurd hbytes hne
      | some last =>
        rw [hlast] at hbytes
        obtain ⟨u, hu, hread'⟩ := hfaithful.readings last (List.mem_of_head? hlast)
        rw [reading_unique hcollision (torn_of_mem hv) (htorn u hu) hread hread' hbytes]
        exact hlast
    · rfl

/-- The directory is emptied once its manifest was read: a refusal, until it is back. -/
theorem torn_readings_settle_limit :
    let visits := [⟨3, directoryOf [(manifestKey, manifestJson limitManifest)]⟩]
    (Trace.after limitCodec (ascii "prod") visits).refusing = true ∧
      (Trace.after limitCodec (ascii "prod") (visits ++ [⟨1, limitDirectory⟩])).refusing = false := by
  refine ⟨by decide +kernel, ?_⟩
  have hempty : (limitCodec.decode []).toOption = none := by decide +kernel
  have hvalid : (read limitCodec limitDirectory).found = true ∧
      (read limitCodec limitDirectory).isRefused = false := by decide +kernel
  cases hread : read limitCodec limitDirectory with
  | valid cfg =>
    apply And.right
    apply (torn_readings_settle limit_noCollision _ _).2 ⟨1, limitDirectory⟩ (by simp) cfg hread
    · intro hnil
      simp [← hnil, (read_valid hread).2.1, Except.toOption] at hempty
    · intro v hv raw m hraw hdecode
      rcases List.mem_pair.mp hv with rfl | rfl
      · exact ⟨cfg, hread⟩
      · obtain rfl : [] = raw := by simpa [emptiedDirectory, directoryOf] using hraw
        simp [hdecode, Except.toOption] at hempty
    · intro v hv name raw hraw
      obtain rfl := List.mem_singleton.mp hv
      refine ⟨⟨1, limitDirectory⟩, by simp, ?_⟩
      by_cases hname : name = manifestKey
      · simpa [hname, limitDirectory, directoryOf] using hraw
      · simp [hname, directoryOf] at hraw
  | _ => simp [hread, Reading.found, Reading.isRefused] at hvalid

end Ratelimit.Config
