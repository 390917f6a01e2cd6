import Ratelimit.Match.Matcher

/-!
# Identity extraction

A token's claims, or the values a direct caller sends, become the values of the
descriptor keys that the plan of a snapshot declares. The bounds are constants:
the token is untrusted input. What the standard library decodes is a parameter,
the functions on bytes that the package itself has are not.
-/
namespace Ratelimit.Identity

open Compile Match

def maxTokenBytes : ℕ := 16384

def maxValueBytes : ℕ := 256

def maxArrayItems : ℕ := 64

def maxPayloadDepth : ℤ := 8

def maxPayloadSeparators : ℕ := 512

inductive SkipReason where
  | decodeFailed
  | badType
  | tooLong
  | tooManyItems
  deriving DecidableEq, Repr

structure Skip where
  key : Text
  reason : SkipReason
  deriving DecidableEq, Repr

/-- A decoded JSON value, as far as extraction tells values apart. -/
inductive Claim where
  | string (t : Text)
  | array (items : List Claim)
  | object (fields : List (Text × Claim))
  | other

/-- The standard library functions that extraction calls on text. -/
structure Codec where
  trimSpace : Text → Text
  toLower : Text → Text
  rawURLEncoding : Text → Option Text
  urlEncoding : Text → Option Text
  unmarshal : Text → Option (List (Text × Claim))

/-- A library that leaves text as it is and decodes no token. -/
def Codec.inert : Codec where
  trimSpace := id
  toLower := id
  rawURLEncoding _ := none
  urlEncoding _ := none
  unmarshal _ := none

structure Shape where
  depth : ℤ
  separators : ℕ
  inString : Bool
  escaped : Bool

/-- One byte of the scan; strings count for nothing. -/
def shapeByte (s : Shape) (b : Byte) : Option Shape :=
  if s.inString then
    if s.escaped then some { s with escaped := false }
    else if b = byte '\\' then some { s with escaped := true }
    else if b = byte '"' then some { s with inString := false }
    else some s
  else if b = byte '"' then some { s with inString := true }
  else if b = Key.openBrace ∨ b = byte '[' then
    if maxPayloadDepth < s.depth + 1 then none else some { s with depth := s.depth + 1 }
  else if b = Key.closeBrace ∨ b = byte ']' then some { s with depth := s.depth - 1 }
  else if b = byte ',' ∨ b = byte ':' then
    if maxPayloadSeparators < s.separators + 1 then none
    else some { s with separators := s.separators + 1 }
  else some s

def withinShape (raw : Text) : Bool := (raw.foldlM shapeByte ⟨0, 0, false, false⟩).isSome

/-- The claims of the payload segment, padded or not. -/
def payload (codec : Codec) (token : Text) : Option (List (Text × Claim)) :=
  if maxTokenBytes < token.length then none
  else
    match Strings.split token (byte '.') with
    | _ :: body :: _ => do
      let raw ← (codec.rawURLEncoding body).or (codec.urlEncoding body)
      if withinShape raw then codec.unmarshal raw else none
    | _ => none

def walk : Claim → List Text → Option Claim
  | c, [] => some c
  | .object fields, segment :: path => (fields.lookup segment).bind (walk · path)
  | _, _ :: _ => none

/-- The loop of `coerceArray`. -/
def coerceItems : List Claim → Except SkipReason (List Text)
  | [] => .ok []
  | .string s :: items =>
    if maxValueBytes < s.length then .error .tooLong
    else (coerceItems items).map fun values => if s = [] then values else s :: values
  | _ :: _ => .error .badType

def coerceArray : Claim → Except SkipReason (List Text)
  | .array items => if maxArrayItems < items.length then .error .tooManyItems else coerceItems items
  | _ => .error .badType

/-- The values of a claim of the declared type; an empty one carries none. -/
def coerce (c : Claim) (type : Model.ValueType) : Except SkipReason (List Text) :=
  if type = .stringArray then coerceArray c
  else
    match c with
    | .string s =>
      if maxValueBytes < s.length then .error .tooLong
      else if s = [] then .ok []
      else .ok [s]
    | _ => .error .badType

/-- The loop of `extractKey` over the primary path and the fallbacks: the first
result that is neither anomalous nor empty, and the first anomaly. -/
def extractFrom (codec : Codec) (claims : Claim) (e : KeyExtraction) :
    List (List Text) → Option SkipReason → List Text × Option SkipReason
  | [], first => ([], first)
  | path :: paths, first =>
    match walk claims path with
    | none => extractFrom codec claims e paths first
    | some c =>
      match coerce c e.type with
      | .error reason => extractFrom codec claims e paths (first.or (some reason))
      | .ok [] => extractFrom codec claims e paths first
      | .ok values =>
        (if e.normalization = .lowercase then values.map codec.toLower else values, first)

def extractKey (codec : Codec) (claims : Claim) (e : KeyExtraction) :
    List Text × Option SkipReason :=
  extractFrom codec claims e (e.path :: e.fallbacks) none

/-- One key of the plan, onto what the earlier ones extracted. -/
def extractInto (codec : Codec) (claims : Claim) (acc : Keys × List Skip) (e : KeyExtraction) :
    Keys × List Skip :=
  let (values, reason) := extractKey codec claims e
  (if values = [] then acc.1 else acc.1.insert e.key values,
    acc.2 ++ (reason.map fun r => ⟨e.key, r⟩).toList)

/-- The token without the blanks around it and the scheme before it. -/
def bareToken (codec : Codec) (token : Text) : Text :=
  let token := codec.trimSpace token
  if 7 ≤ token.length ∧ Strings.toLowerAscii (token.take 7) = ascii "bearer " then token.drop 7
  else token

def extract (codec : Codec) (plan : List KeyExtraction) (token : Text) : Keys × List Skip :=
  let token := bareToken codec token
  if token = [] then (∅, [])
  else
    match payload codec token with
    | none => (∅, plan.map fun e => ⟨e.key, .decodeFailed⟩)
    | some claims => plan.foldl (extractInto codec (.object claims)) (∅, [])

def planned (plan : List KeyExtraction) (key : Text) : Option KeyExtraction :=
  plan.find? fun e => e.key = key

/-- The loop of `explicitValues`. -/
def keepValues : List Text → Except SkipReason (List Text)
  | [] => .ok []
  | v :: values =>
    if maxValueBytes < v.length then .error .tooLong
    else (keepValues values).map fun kept => if v = [] then kept else v :: kept

def explicitValues (values : List Text) : Except SkipReason (List Text) :=
  if maxArrayItems < values.length then .error .tooManyItems else keepValues values

/-- The values without repeats, in the order of first occurrence. -/
def distinct (values : List Text) : List Text :=
  values.foldl (fun out v => if v ∈ out then out else out ++ [v]) []

def explicitInto (codec : Codec) (plan : List KeyExtraction) (keys : Keys)
    (acc : Keys × List Skip) (key : Text) : Keys × List Skip :=
  match explicitValues ((keys.lookup key).getD []) with
  | .error reason => (acc.1, acc.2 ++ ((planned plan key).map fun _ => ⟨key, reason⟩).toList)
  | .ok [] => acc
  | .ok kept =>
    let lowered := (planned plan key).any fun e => e.normalization = .lowercase
    (acc.1.insert key (distinct (if lowered then kept.map codec.toLower else kept)), acc.2)

/-- Pre-extracted values; the keys of the map are taken in byte order. -/
def explicit (codec : Codec) (plan : List KeyExtraction) (keys : Keys) : Keys × List Skip :=
  (keys.keys.sort (· ≤ ·)).foldl (explicitInto codec plan keys) (∅, [])

/-- `extractKeys` of the engine: what the token carries, with the explicit keys
on top. The token cache in front of it is left out. -/
def extractKeys (codec : Codec) (plan : List KeyExtraction) (token : Text) (keys : Keys) :
    Keys × List Skip :=
  let (extracted, skips) := extract codec plan token
  if keys.keys = ∅ then (extracted, skips)
  else
    let (explicit, explicitSkips) := explicit codec plan keys
    (explicit ∪ extracted, skips ++ explicitSkips)

end Ratelimit.Identity
