import Ratelimit.Api.Policy

/-!
# The configuration that the operator writes and the service reads

One manifest that indexes the domains of the namespace, and one compressed payload for each.
The JSON, gzip and SHA-256 implementations are parameters.
-/
namespace Ratelimit.Api

def formatVersion : ℤ := 1

def supportedVersions : List ℤ :=
  if formatVersion > 1 then [formatVersion - 1, formatVersion] else [formatVersion]

def supported (version : ℤ) : Bool := decide (version ∈ supportedVersions)

def manifestKey : Text := ascii "manifest"

def payloadKey (domain : Text) : Text := domain ++ ascii ".json.gz"

def maxPayloadSize : ℕ := 8 * 2 ^ 20

/-- The generation that the payload of a domain holds, of which object, and its hash. -/
structure DomainEntry where
  generation : ℤ
  uid : Text
  hash : Text
  deriving DecidableEq

structure Manifest where
  formatVersion : ℤ
  operatorVersion : Text
  domains : Finmap fun _ : Text => DomainEntry
  deriving DecidableEq

/-- What a strict decode of a manifest yields, where the domains may be absent. -/
structure ManifestFields where
  formatVersion : ℤ
  operatorVersion : Text
  domains : Option (Finmap fun _ : Text => DomainEntry)

structure Codec where
  /-- `json.Marshal` of a spec. -/
  marshal : Spec → Text
  /-- `UnmarshalStrict` of a spec, with every field the type does not define as an error. -/
  unmarshal : Text → Except Message Spec
  gzip : Text → Text
  /-- The stream up to one byte past the bound. -/
  gunzip : Text → Except Message Text
  /-- The hex SHA-256. -/
  sum : Text → Text
  /-- The indented JSON of a manifest. -/
  marshalManifest : Manifest → Text
  /-- `formatVersion` alone, read leniently. -/
  header : Text → Except Message (Option ℤ)
  unmarshalManifest : Text → Except Message ManifestFields

namespace Codec

variable (c : Codec)

def hash (raw : Text) : Text := ascii "sha256:" ++ c.sum raw

def encodePayload (spec : Spec) : Text × Text :=
  let raw := c.marshal spec
  (c.gzip raw, c.hash raw)

def decodePayload (compressed : Text) : Except Message (Spec × Text) := do
  let raw ← (c.gunzip compressed).mapError (Message.wrap "manifest: malformed: payload " [])
  if maxPayloadSize < raw.length then
    .error ⟨"manifest: malformed: payload decompresses past %d bytes", [.number maxPayloadSize]⟩
  else
    let spec ← (c.unmarshal raw).mapError (Message.wrap "manifest: malformed: " [])
    return (spec, c.hash raw)

/-- The manifest as it is written, stamped with the version. -/
def encode (m : Manifest) : Text := c.marshalManifest { m with formatVersion := formatVersion }

/-- The version is judged before anything else is looked at. -/
def decode (data : Text) : Except Message Manifest := do
  match ← (c.header data).mapError (Message.wrap "manifest: malformed: " []) with
  | none => .error ⟨"manifest: malformed: formatVersion is absent", []⟩
  | some version =>
    if supported version = false then
      .error ⟨"manifest: unsupported format version: %d (this reader accepts %v)",
        .number version :: supportedVersions.map .number⟩
    else
      let m ← (c.unmarshalManifest data).mapError (Message.wrap "manifest: malformed: " [])
      match m.domains with
      | none => .error ⟨"manifest: malformed: domains is absent", []⟩
      | some domains => return ⟨m.formatVersion, m.operatorVersion, domains⟩

/-- The version a manifest declares, zero where it cannot be read that far. -/
def declaredVersion (raw : Text) : ℤ :=
  match c.header raw with
  | .ok (some version) => version
  | _ => 0

/-- The payload of the spec decodes to it. -/
def ReadsSpec (spec : Spec) : Prop :=
  c.decodePayload (c.encodePayload spec).1 = .ok (spec, (c.encodePayload spec).2)

def ReadsManifest (m : Manifest) : Prop :=
  c.decode (c.encode m) = .ok { m with formatVersion := formatVersion }

end Codec

theorem payloadKey_injective : Function.Injective payloadKey := by
  intro d d' h
  exact (List.append_inj' h rfl).1

theorem payloadKey_ne_manifestKey (domain : Text) : payloadKey domain ≠ manifestKey := by
  intro heq
  have hlast := congrArg List.getLast? heq
  rw [payloadKey, List.getLast?_append_of_ne_nil _ (by decide)] at hlast
  exact absurd hlast (by decide)

end Ratelimit.Api
