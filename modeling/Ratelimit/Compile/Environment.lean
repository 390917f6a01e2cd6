import Ratelimit.Compile.Snapshot

/-!
# What the rules of a domain resolve against

The keys of the domain and whether they are array-valued, its groups, and its
extraction plan. A nil policy is the built-ins-only domain.
-/
namespace Ratelimit.Compile

open Library

structure Environment where
  keys : Finmap fun _ : Text => Bool
  groups : Finmap fun _ : Text => List Text
  extraction : List KeyExtraction

def Environment.effectiveKeys (e : Environment) : List Text := e.keys.keys.sort (· ≤ ·)

/-- An empty segment of a claim path walks to nothing, for every token. -/
def hasEmptySegment (path : List Text) : Bool := decide (path = [] ∨ [] ∈ path)

def compileKeyMapping (km : Model.KeyMapping) : Except Problem KeyExtraction :=
  let path := if km.claim ≠ [] then Strings.split km.claim (byte '.') else km.claimPath
  let fallbacks := km.fallbacks.map fun f => Strings.split f (byte '.')
  if keyName km.key = false ∨ maxKeyLength < km.key.length then
    .error (specFailure "mapping key %q does not match %s or exceeds %d characters"
      [.text km.key, .text keyNamePattern, .number maxKeyLength])
  else if km.key = Model.keyPath ∨ km.key = Model.keyMethod ∨ km.key = Model.keyToken then
    .error (specFailure "mapping key %q collides with a built-in" [.text km.key])
  else if km.claim = [] ↔ km.claimPath = [] then
    .error (specFailure "mapping key %q must set exactly one of claim and claimPath"
      [.text km.key])
  else if km.type ∉ [.unset, .string, .stringArray] then
    .error (specFailure "mapping key %q carries an unknown type %q"
      [.text km.key, .text km.type.text])
  else if km.normalization ∉ [.unset, .none, .lowercase] then
    .error (specFailure "mapping key %q carries an unknown normalization %q"
      [.text km.key, .text km.normalization.text])
  else if hasEmptySegment path then
    .error (specFailure "mapping key %q carries an empty claim path segment" [.text km.key])
  else if fallbacks.any hasEmptySegment then
    .error (specFailure "mapping key %q carries an empty fallback path segment" [.text km.key])
  else
    .ok
      { key := km.key
        path
        type := if km.type = .unset then .string else km.type
        normalization := if km.normalization = .unset then .none else km.normalization
        fallbacks }

/-- One mapping entry of the policy: a defective one is reported and left out. -/
def visitMapping (km : Model.KeyMapping) : Checked (Option KeyExtraction) :=
  match compileKeyMapping km with
  | .ok extraction => pure (some extraction)
  | .error problem => do
    Logged.report problem
    pure none

/-- The policy's group list, into the groups read so far. -/
def compileGroups :
    List Model.Group → (Finmap fun _ : Text => List Text) →
      Checked (Finmap fun _ : Text => List Text)
  | [], dst => pure dst
  | g :: gs, dst =>
    if g.name = [] then do
      Logged.report (specFailure "a group without a name" [])
      compileGroups gs dst
    else if g.name ∈ dst then do
      Logged.report (specFailure "group %q is declared twice" [.text g.name])
      compileGroups gs dst
    else compileGroups gs (dst.insert g.name g.values)

def builtinKeys : Finmap fun _ : Text => Bool :=
  ((Finmap.singleton Model.keyPath false).insert Model.keyMethod false).insert Model.keySub false

def builtinSub : KeyExtraction :=
  { key := Model.keySub
    path := [ascii "sub"]
    type := .string
    normalization := .lowercase
    fallbacks := [] }

/-- The loop over the entries sets the keys of their extractions. -/
def mappedKeys (extraction : List KeyExtraction) : Finmap fun _ : Text => Bool :=
  extraction.foldl (fun keys e => keys.insert e.key (decide (e.type = .stringArray))) builtinKeys

def compileEnvironment (domain : Text) : Option Model.Policy → Checked Environment
  | none => pure { keys := builtinKeys, groups := ∅, extraction := [builtinSub] }
  | some p => do
    Logged.reportIf (p.domain ≠ domain)
      (specFailure "policy domain %q does not belong to domain %q" [.text p.domain, .text domain])
    let extraction ← Logged.collectDistinct Model.KeyMapping.key
      (fun km => specFailure "mapping key %q is declared twice" [.text km.key])
      visitMapping [] p.mappings
    let subOverridden := extraction.any fun e => e.key = Model.keySub
    let groups ← compileGroups p.groups ∅
    pure
      { keys := mappedKeys extraction
        groups
        extraction := if subOverridden then extraction else builtinSub :: extraction }

section Groups

/-- The group a name resolves to in the authored list. -/
def groupNamed (groups : List Model.Group) (name : Text) : Option (List Text) :=
  (groups.find? fun g => g.name = name).map Model.Group.values

/-- Without a defect the name of a group resolves to it. -/
theorem lookup_compileGroups {gs : List Model.Group} {dst : Finmap fun _ : Text => List Text}
    (hacc : Accepted (compileGroups gs dst)) (name : Text) :
    (compileGroups gs dst).value.lookup name =
      (dst.lookup name).or (groupNamed gs name) := by
  induction gs generalizing dst with
  | nil => simp [compileGroups, groupNamed]
  | cons g gs ih =>
    rw [compileGroups] at hacc ⊢
    split_ifs at hacc ⊢ with hname hdup
    · simp at hacc
    · simp at hacc
    · rw [ih hacc]
      by_cases hg : g.name = name
      · subst hg
        simp [groupNamed, Finmap.lookup_eq_none.mpr hdup]
      · rw [Finmap.lookup_insert_of_ne _ (Ne.symm hg)]
        simp [groupNamed, hg]

theorem lookup_groups {domain : Text} {p : Model.Policy}
    (hacc : Accepted (compileEnvironment domain (some p))) (name : Text) :
    (compileEnvironment domain (some p)).value.groups.lookup name = groupNamed p.groups name := by
  simp only [compileEnvironment, accepted_bind_iff] at hacc
  have hgroups := lookup_compileGroups hacc.2.2.1 name
  simpa [compileEnvironment] using hgroups

end Groups

end Ratelimit.Compile
