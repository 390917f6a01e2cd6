import Ratelimit.Api.Manifest
import Ratelimit.Library.Sorting

/-!
# One reading of the mounted directory

The service reads the directory whole and decodes it strictly. A manifest counts when
every payload it names decodes, hashes as it says and is for its domain; anything less
is a refusal. A directory without a manifest is neither.
-/
namespace Ratelimit.Config

open Api Library

inductive FileRead where
  | bytes (raw : Text)
  | failed (err : Message) (notExist : Bool)

structure Directory where
  file : Text → FileRead

/-- The manifest and the spec of every domain it names. -/
structure Configuration where
  manifest : Manifest
  specs : Finmap fun _ : Text => Spec
  raw : Text

/-- A reading that is not applied, with the version that the manifest declared. -/
structure Refusal where
  formatVersion : ℤ
  err : Message
  raw : Text

inductive Reading where
  | absent
  | unreadable (err : Message)
  | refused (refusal : Refusal)
  | valid (cfg : Configuration)

def sortedDomains (m : Manifest) : List Text := sortedBy (fun s t : Text => s ≤ t) m.domains.keys

section Reads

variable (c : Codec) (dir : Directory)

def readSpec (domain : Text) (entry : DomainEntry) : Except Message Spec :=
  match dir.file (payloadKey domain) with
  | .failed err _ => .error (err.wrap "read the payload: " [])
  | .bytes compressed =>
    match c.decodePayload compressed with
    | .error err => .error err
    | .ok (spec, hash) =>
      if hash ≠ entry.hash then
        .error ⟨"payload hash %s does not match the manifest's %s", [.text hash, .text entry.hash]⟩
      else if spec.domain ≠ domain then
        .error ⟨"the payload is for domain %q", [.text spec.domain]⟩
      else .ok spec

/-- The loop over the domains of the manifest, up to the first that is refused. -/
def readSpecs (m : Manifest) :
    List Text → (Finmap fun _ : Text => Spec) → Except Message (Finmap fun _ : Text => Spec)
  | [], specs => .ok specs
  | domain :: rest, specs =>
    match m.domains.lookup domain with
    | none => readSpecs m rest specs
    | some entry =>
      match readSpec c dir domain entry with
      | .error err => .error (err.wrap "domain %s: " [.text domain])
      | .ok spec => readSpecs m rest (specs.insert domain spec)

/-- `Read`. -/
def read : Reading :=
  match dir.file manifestKey with
  | .failed err notExist =>
    if notExist then .absent else .unreadable (err.wrap "read the manifest: " [])
  | .bytes raw =>
    match c.decode raw with
    | .error err => .refused ⟨c.declaredVersion raw, err, raw⟩
    | .ok m =>
      match readSpecs c dir m (sortedDomains m) ∅ with
      | .error err => .refused ⟨m.formatVersion, err, raw⟩
      | .ok specs => .valid ⟨m, specs, raw⟩

end Reads

variable {c : Codec} {dir : Directory} {domain : Text} {entry : DomainEntry} {m : Manifest}
  {specs specs' : Finmap fun _ : Text => Spec} {spec : Spec} {cfg : Configuration}

/-- The payload of the directory that a spec was decoded from. -/
structure Decoded (c : Codec) (dir : Directory) (domain hash : Text) (spec : Spec) : Prop where
  payload : ∃ compressed, dir.file (payloadKey domain) = .bytes compressed ∧
    c.decodePayload compressed = .ok (spec, hash)
  domain_eq : spec.domain = domain

theorem readSpec_ok (h : readSpec c dir domain entry = .ok spec) :
    Decoded c dir domain entry.hash spec := by
  unfold readSpec at h
  split at h
  · cases h
  · next compressed hfile =>
    split at h
    · cases h
    · next spec' hash hdecode =>
      split_ifs at h with hhash hdomain
      obtain rfl := Except.ok.inj h
      obtain rfl := not_not.mp hhash
      exact ⟨⟨compressed, hfile, hdecode⟩, not_not.mp hdomain⟩

theorem readSpecs_ok {ds : List Text} (h : readSpecs c dir m ds specs = .ok specs') :
    (∀ domain, domain ∉ ds → specs'.lookup domain = specs.lookup domain) ∧
    ∀ domain ∈ ds, ∀ entry, m.domains.lookup domain = some entry →
      ∃ spec, specs'.lookup domain = some spec ∧ Decoded c dir domain entry.hash spec := by
  induction ds generalizing specs with
  | nil =>
    obtain rfl := Except.ok.inj h
    exact ⟨fun domain _ => rfl, nofun⟩
  | cons d ds ih =>
    unfold readSpecs at h
    split at h
    · next hnone =>
      obtain ⟨hother, hread⟩ := ih h
      refine ⟨fun domain hmem => hother domain fun h => hmem (List.mem_cons_of_mem _ h), ?_⟩
      intro domain hmem entry hentry
      rcases List.mem_cons.mp hmem with rfl | hmem
      · rw [hnone] at hentry
        cases hentry
      · exact hread domain hmem entry hentry
    · next entry hentry =>
      split at h
      · cases h
      · next spec hspec =>
        obtain ⟨hother, hread⟩ := ih h
        constructor
        · intro domain hmem
          obtain ⟨hne, hrest⟩ := not_or.mp fun h => hmem (List.mem_cons.mpr h)
          rw [hother domain hrest, Finmap.lookup_insert_of_ne _ hne]
        · intro domain hmem entry' hentry'
          by_cases hrest : domain ∈ ds
          · exact hread domain hrest entry' hentry'
          · obtain rfl : domain = d := (List.mem_cons.mp hmem).resolve_right hrest
            obtain rfl : entry = entry' := Option.some.inj (hentry.symm.trans hentry')
            exact ⟨spec, by rw [hother _ hrest, Finmap.lookup_insert], readSpec_ok hspec⟩

theorem read_valid (h : read c dir = .valid cfg) :
    dir.file manifestKey = .bytes cfg.raw ∧ c.decode cfg.raw = .ok cfg.manifest ∧
    ∀ domain entry, cfg.manifest.domains.lookup domain = some entry →
      ∃ spec, cfg.specs.lookup domain = some spec ∧ Decoded c dir domain entry.hash spec := by
  unfold read at h
  split at h
  · split_ifs at h
  · next raw hfile =>
    split at h
    · cases h
    · next m hdecode =>
      split at h
      · cases h
      · next specs hspecs =>
        cases h
        refine ⟨hfile, hdecode, fun domain entry hentry => ?_⟩
        refine (readSpecs_ok hspecs).2 domain ?_ entry hentry
        exact mem_sortedBy.mpr (Finmap.mem_keys.mpr (Finmap.mem_of_lookup_eq_some hentry))

theorem Decoded.unique {hash hash' : Text} {spec' : Spec} (h : Decoded c dir domain hash spec)
    (h' : Decoded c dir domain hash' spec') : spec = spec' := by
  obtain ⟨compressed, hfile, hdecode⟩ := h.payload
  obtain ⟨compressed', hfile', hdecode'⟩ := h'.payload
  obtain rfl := FileRead.bytes.inj (hfile.symm.trans hfile')
  exact (Prod.mk.inj (Except.ok.inj (hdecode.symm.trans hdecode'))).1

theorem Decoded.hash_ne {hash : Text} (h : Decoded c dir domain hash spec) : hash ≠ [] := by
  obtain ⟨compressed, -, hdecode⟩ := h.payload
  unfold Codec.decodePayload at hdecode
  simp only [bind, Except.bind, pure, Except.pure] at hdecode
  split at hdecode
  · cases hdecode
  · next raw _ =>
    split_ifs at hdecode
    split at hdecode
    · cases hdecode
    · have hhash : c.hash raw = hash := (Prod.mk.inj (Except.ok.inj hdecode)).2
      rw [← hhash]
      exact List.append_ne_nil_of_left_ne_nil (List.cons_ne_nil _ _) _

end Ratelimit.Config
