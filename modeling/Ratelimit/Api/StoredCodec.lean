import Ratelimit.Api.Manifest
import Ratelimit.Library.Sorting

/-!
# A codec that stores without compressing

The encoders for specs of one limit: JSON as it is written for these types, and gzip
streams of one stored block. A digest is looked up among those that are known, and
decoding finds the spec or the manifest that a text is the encoding of.
-/
namespace Ratelimit.Api

open Library

section Streams

def littleEndian (bytes n : ℕ) : Text :=
  (List.range bytes).map fun i => Fin.ofNat 256 (n / 256 ^ i)

def crcByte (crc : ℕ) (b : Byte) : ℕ :=
  (List.range 8).foldl
    (fun crc _ => if crc % 2 = 1 then (crc / 2) ^^^ 0xEDB88320 else crc / 2) (crc ^^^ b.val)

def crc32 (t : Text) : ℕ := t.foldl crcByte 0xFFFFFFFF ^^^ 0xFFFFFFFF

/-- The header of a stream, and of its one stored block. -/
def storedHeader (length : ℕ) : Text :=
  [31, 139, 8, 0, 0, 0, 0, 0, 0, 255, 1] ++ littleEndian 2 length ++ littleEndian 2 (65535 - length)

def storedTrailer (t : Text) : Text := littleEndian 4 (crc32 t) ++ littleEndian 4 t.length

def storedGzip (t : Text) : Text := storedHeader t.length ++ t ++ storedTrailer t

def storedGunzip (stream : Text) : Except Message Text :=
  let t := (stream.drop 15).take (stream.length - 23)
  if storedGzip t = stream then .ok t else .error ⟨"is not gzip: gzip: invalid header", []⟩

end Streams

section Documents

def limitSpec (domain rule : Text) : Spec where
  domain := domain
  mappings := []
  groups := []
  limits := [
    { name := ascii "b", target := none, mode := .all
      rules := [
        { name := rule, predicates := [], counters := [], rates := [⟨10, 60, none, ascii "GCRA"⟩]
          behavior := .enforce, replacedRules := [] }] }]

def limitJson (domain rule : Text) : Text :=
  ascii "\x7b\"domain\":\"" ++ domain ++
    ascii "\",\"limits\":[\x7b\"name\":\"b\",\"mode\":\"All\",\"rules\":[\x7b\"name\":\"" ++ rule ++
    ascii "\",\"rates\":[\x7b\"requests\":10,\"periodSeconds\":60,\"algorithm\":\"GCRA\"\x7d]," ++
    ascii "\"behavior\":\"Enforce\"\x7d]\x7d]\x7d"

def entryJson (domain : Text) (e : DomainEntry) : Text :=
  ascii "    \"" ++ domain ++ ascii "\": \x7b\n      \"generation\": " ++
    Strconv.formatInt e.generation ++ ascii ",\n      \"uid\": \"" ++ e.uid ++
    ascii "\",\n      \"hash\": \"" ++ e.hash ++ ascii "\"\n    \x7d"

def joinEntries : List Text → Text
  | [] => []
  | [t] => t
  | t :: ts => t ++ ascii ",\n" ++ joinEntries ts

def domainsJson (m : Finmap fun _ : Text => DomainEntry) : Text :=
  let lines := (sortedBy (fun s t : Text => s ≤ t) m.keys).filterMap fun domain =>
    (m.lookup domain).map (entryJson domain)
  if lines = [] then ascii "\x7b\x7d"
  else ascii "\x7b\n" ++ joinEntries lines ++ ascii "\n  \x7d"

def manifestJson (m : Manifest) : Text :=
  ascii "\x7b\n  \"formatVersion\": " ++ Strconv.formatInt m.formatVersion ++
    ascii ",\n  \"operatorVersion\": \"" ++ m.operatorVersion ++ ascii "\",\n  \"domains\": " ++
    domainsJson m.domains ++ ascii "\n\x7d\n"

end Documents

/-- What a codec can read: limits by domain and rule, digests, and manifests. -/
structure Known where
  limits : List (Text × Text)
  digests : List (Text × Text)
  manifests : List Manifest

def storedCodec (known : Known) : Codec where
  marshal spec :=
    match known.limits.find? fun l => limitSpec l.1 l.2 = spec with
    | some l => limitJson l.1 l.2
    | none => []
  unmarshal t :=
    match known.limits.find? fun l => limitJson l.1 l.2 = t with
    | some l => .ok (limitSpec l.1 l.2)
    | none => .error ⟨"unexpected end of JSON input", []⟩
  gzip := storedGzip
  gunzip := storedGunzip
  sum t := ((known.digests.lookup t).getD []).takeD 64 (byte '0')
  marshalManifest := manifestJson
  header t :=
    match known.manifests.find? fun m => manifestJson m = t with
    | some m => .ok (some m.formatVersion)
    | none => .error ⟨"unexpected end of JSON input", []⟩
  unmarshalManifest t :=
    match known.manifests.find? fun m => manifestJson m = t with
    | some m => .ok ⟨m.formatVersion, m.operatorVersion, some m.domains⟩
    | none => .error ⟨"unexpected end of JSON input", []⟩

section Growth

variable {m m' : Finmap fun _ : Text => DomainEntry}

/-- The bytes of an entry and of the separator before it. -/
def entryBytes (domain : Text) (e : DomainEntry) : ℕ := (entryJson domain e).length + 2

def entrySize (m : Finmap fun _ : Text => DomainEntry) (domain : Text) : ℕ :=
  ((m.lookup domain).map (entryBytes domain)).getD 0

theorem length_joinEntries {ts : List Text} (h : ts ≠ []) :
    (joinEntries ts).length + 2 = (ts.map fun t => t.length + 2).sum := by
  induction ts with
  | nil => exact absurd rfl h
  | cons t ts ih =>
    cases ts with
    | nil => simp [joinEntries]
    | cons t' ts =>
      have hrest := ih (List.cons_ne_nil _ _)
      simp only [joinEntries, List.map_cons, List.sum_cons, List.length_append] at hrest ⊢
      have hsep : (ascii ",\n").length = 2 := rfl
      omega

theorem sum_lines (domains : List Text) :
    ((domains.filterMap fun domain => (m.lookup domain).map (entryJson domain)).map
      fun t => t.length + 2).sum = (domains.map (entrySize m)).sum := by
  induction domains with
  | nil => rfl
  | cons domain domains ih =>
    cases hlookup : m.lookup domain with
    | none => simp [hlookup, entrySize, ih]
    | some e => simp [hlookup, entrySize, entryBytes, ih]

theorem entrySize_pos {domain : Text} (h : domain ∈ m.keys) : 0 < entrySize m domain := by
  obtain ⟨e, he⟩ := Option.isSome_iff_exists.mp (Finmap.lookup_isSome.mpr (Finmap.mem_keys.mp h))
  simp [entrySize, entryBytes, he]

theorem length_domainsJson (m : Finmap fun _ : Text => DomainEntry) :
    (domainsJson m).length = if m.keys = ∅ then 2 else (∑ domain ∈ m.keys, entrySize m domain) + 4 := by
  have hsum := (sum_lines (m := m) (sortedBy (fun s t : Text => s ≤ t) m.keys)).trans
    (sum_sortedBy m.keys (entrySize m))
  unfold domainsJson
  dsimp only
  split_ifs with hlines hkeys hkeys
  · rfl
  · rw [hlines] at hsum
    obtain ⟨domain, hdomain⟩ := Finset.nonempty_iff_ne_empty.mpr hkeys
    have hpos := Finset.single_le_sum (fun d _ => Nat.zero_le (entrySize m d)) hdomain
    have := entrySize_pos hdomain
    simp only [List.map_nil, List.sum_nil] at hsum
    omega
  · rw [hkeys] at hlines
    exact absurd rfl hlines
  · have hjoin := length_joinEntries hlines
    have hopen : (ascii "\x7b\n").length = 2 := rfl
    have hclose : (ascii "\n  \x7d").length = 4 := rfl
    rw [List.length_append, List.length_append]
    omega

theorem length_domainsJson_le
    (h : ∀ domain e, m.lookup domain = some e → m'.lookup domain = some e) :
    (domainsJson m).length ≤ (domainsJson m').length := by
  have hkeys : m.keys ⊆ m'.keys := by
    intro domain hdomain
    obtain ⟨e, he⟩ :=
      Option.isSome_iff_exists.mp (Finmap.lookup_isSome.mpr (Finmap.mem_keys.mp hdomain))
    exact Finmap.mem_keys.mpr (Finmap.mem_of_lookup_eq_some (h domain e he))
  have hsum : ∑ domain ∈ m.keys, entrySize m domain ≤ ∑ domain ∈ m'.keys, entrySize m' domain := by
    calc ∑ domain ∈ m.keys, entrySize m domain
        = ∑ domain ∈ m.keys, entrySize m' domain := by
          refine Finset.sum_congr rfl fun domain hdomain => ?_
          obtain ⟨e, he⟩ :=
            Option.isSome_iff_exists.mp (Finmap.lookup_isSome.mpr (Finmap.mem_keys.mp hdomain))
          rw [entrySize, entrySize, he, h domain e he]
      _ ≤ ∑ domain ∈ m'.keys, entrySize m' domain := Finset.sum_le_sum_of_subset hkeys
  rw [length_domainsJson, length_domainsJson]
  split_ifs with hm hm' hm'
  · exact le_rfl
  · omega
  · rw [hm'] at hkeys
    exact absurd (Finset.subset_empty.mp hkeys) hm
  · omega

theorem length_manifestJson_le (operatorVersion : Text)
    (h : ∀ domain e, m.lookup domain = some e → m'.lookup domain = some e) :
    (manifestJson ⟨formatVersion, operatorVersion, m⟩).length ≤
      (manifestJson ⟨formatVersion, operatorVersion, m'⟩).length := by
  have hdomains := length_domainsJson_le h
  simp only [manifestJson, List.length_append]
  omega

end Growth

end Ratelimit.Api
