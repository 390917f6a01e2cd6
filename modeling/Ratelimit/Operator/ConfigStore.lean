import Ratelimit.Operator.Fit

/-!
# The configuration of the namespace

The ConfigMap is the channel to the service and the last-good state at once. A reconcile reads
the bundles out of it, compiles the policies against them, and writes the whole object. Its
labels and its owner are left out.
-/
namespace Ratelimit.Operator

open Api Library

structure ConfigMap where
  data : Finmap fun _ : Text => Text
  binaryData : Finmap fun _ : Text => Text
  deriving DecidableEq

/-- What the API server answers to a write. A lost answer is one to a write that was
made. -/
inductive Answer where
  | done
  | refused (err : Message)
  | lost (err : Message)

/-- The answers to one reconcile: to the two reads, and to the write. -/
structure Answers where
  load : Option Message
  read : Option Message
  write : Answer

section Loading

variable (c : Codec)

/-- The bundle of one domain, skipped where it does not decode or hash as it says. -/
def loadBundle (object : ConfigMap) (m : Manifest) (domain : Text) : Option Bundle :=
  match m.domains.lookup domain with
  | none => none
  | some entry =>
    match object.binaryData.lookup (payloadKey domain) with
    | none => none
    | some raw =>
      match c.decodePayload raw with
      | .error _ => none
      | .ok (spec, hash) =>
        if hash ≠ entry.hash then none else some ⟨entry.uid, entry.generation, spec⟩

def load (stored : Option ConfigMap) (domains : List Text) : State :=
  match stored with
  | none => ∅
  | some object =>
    match c.decode ((object.data.lookup manifestKey).getD []) with
    | .error _ => ∅
    | .ok m => domains.foldl (fun bundles domain =>
        match loadBundle c object m domain with
        | none => bundles
        | some bundle => bundles.insert domain bundle) ∅

end Loading

section Saving

variable (c : Codec) (operatorVersion : Text)

def configOf (state : State) : ConfigMap :=
  let rendered := render c state operatorVersion
  ⟨Finmap.singleton manifestKey rendered.manifest,
    renameKeys payloadKey payloadKey_injective rendered.payloads⟩

def renderConfig (state : State) (limit : ℕ) : Except Message ConfigMap :=
  let rendered := render c state operatorVersion
  if limit < rendered.size then
    .error ⟨"ratelimit-config would exceed the ConfigMap limit: %d bytes compressed, the limit is %d",
      [.number rendered.size, .number limit]⟩
  else .ok (configOf c operatorVersion state)

/-- The write of an object, by what is answered to it. -/
def send (stored : Option ConfigMap) (object : ConfigMap) (verb : String) :
    Answer → Except Message Unit × Option ConfigMap
  | .done => (.ok (), some object)
  | .refused err => (.error (err.wrap verb []), stored)
  | .lost err => (.error (err.wrap verb []), some object)

/-- Writes the whole object; what is stored then. -/
def save (stored : Option ConfigMap) (state : State) (limit : ℕ) (answers : Answers) :
    Except Message Unit × Option ConfigMap :=
  match renderConfig c operatorVersion state limit with
  | .error err => (.error err, stored)
  | .ok object =>
    match answers.read with
    | some err => (.error (err.wrap "read ratelimit-config: " []), stored)
    | none =>
      match stored with
      | none => send stored object "create ratelimit-config: " answers.write
      | some existing =>
        -- an identical write is spared
        if existing = object then (.ok (), stored)
        else send stored object "update ratelimit-config: " answers.write

end Saving

structure Build where
  codec : Codec
  namespaceName : Text
  version : Text
  limit : ℕ

namespace Build

variable (build : Build)

/-- What a reconcile compiles: objects that this build reads whole, and the state of
their domains. -/
def input (stored : Option ConfigMap) (policies : List Object) : Input :=
  let input : Input := ⟨build.namespaceName, policies, fun _ => [], ∅, build.version⟩
  { input with state := load build.codec stored (domains input) }

def result (stored : Option ConfigMap) (policies : List Object) : Result :=
  compileAndFit build.codec (build.input stored policies) build.limit

def reconcile (stored : Option ConfigMap) (policies : List Object) (answers : Answers) :
    Except Message Unit × Option ConfigMap :=
  match answers.load with
  | some err => (.error (err.wrap "read ratelimit-config: " []), stored)
  | none => save build.codec build.version stored (build.result stored policies).state build.limit
      answers

end Build

def persisted (c : Codec) (stored : Option ConfigMap) (domain : Text) : Bundle :=
  (load c stored [domain]).get domain

variable {c : Codec} {stored : Option ConfigMap} {domain : Text} {ds : List Text}
  {operatorVersion : Text} {state : State}

theorem lookup_foldl_bundles {f : Text → Option Bundle} (bundles : State) :
    (ds.foldl (fun bundles domain => match f domain with
      | none => bundles
      | some bundle => bundles.insert domain bundle) bundles).lookup domain =
    (if domain ∈ ds then f domain else none).or (bundles.lookup domain) := by
  induction ds generalizing bundles with
  | nil => rfl
  | cons d ds ih =>
    rw [List.foldl_cons, ih]
    by_cases hd : domain = d
    · subst hd
      by_cases hmem : domain ∈ ds <;> cases hf : f domain <;> simp [hmem]
    · by_cases hmem : domain ∈ ds <;> cases hf : f d <;>
        simp [hmem, hd, Finmap.lookup_insert_of_ne _ hd]

theorem lookup_load (h : domain ∈ ds) :
    (load c stored ds).lookup domain = (load c stored [domain]).lookup domain := by
  unfold load
  cases stored with
  | none => rfl
  | some object =>
    dsimp only
    cases c.decode ((object.data.lookup manifestKey).getD []) with
    | error err => rfl
    | ok m => rw [lookup_foldl_bundles, lookup_foldl_bundles, if_pos h, if_pos (by simp)]

theorem get_load (h : domain ∈ ds) : (load c stored ds).get domain = persisted c stored domain := by
  rw [State.get, lookup_load h]
  rfl

/-- What was written of the state can be read again. -/
structure Readable (c : Codec) (operatorVersion : Text) (state : State) : Prop where
  manifest : c.ReadsManifest (manifestOf c state operatorVersion)
  specs : ∀ domain b, state.lookup domain = some b → b.uid ≠ [] → c.ReadsSpec b.goodSpec

theorem loadBundle_configOf (h : Readable c operatorVersion state) :
    loadBundle c (configOf c operatorVersion state) (manifestOf c state operatorVersion) domain =
      (state.lookup domain).filter fun b => b.uid ≠ [] := by
  have hentry : (manifestOf c state operatorVersion).domains.lookup domain =
      (state.lookup domain).bind (Bundle.entry c) := lookup_filterMapEntries _ _
  have hpayload : (configOf c operatorVersion state).binaryData.lookup (payloadKey domain) =
      (state.lookup domain).bind (Bundle.payload c) :=
    (lookup_renameKeys payloadKey_injective _).trans (lookup_filterMapEntries _ _)
  unfold loadBundle
  rw [hentry, hpayload]
  cases hb : state.lookup domain with
  | none => rfl
  | some b =>
    by_cases huid : b.uid = []
    · simp [Bundle.entry, huid, Option.filter]
    · have hreads : c.decodePayload (c.encodePayload b.goodSpec).1 =
          .ok (b.goodSpec, (c.encodePayload b.goodSpec).2) := h.specs domain b hb huid
      simp [Bundle.entry, Bundle.payload, huid, hreads, Option.filter]

theorem persisted_configOf (h : Readable c operatorVersion state) :
    persisted c (some (configOf c operatorVersion state)) domain =
      ((state.lookup domain).filter fun b => b.uid ≠ []).getD .zero := by
  have hmanifest : (configOf c operatorVersion state).data.lookup manifestKey =
      some (c.encode (manifestOf c state operatorVersion)) := Finmap.lookup_singleton_eq
  have hdecode : c.decode (c.encode (manifestOf c state operatorVersion)) =
      .ok (manifestOf c state operatorVersion) := h.manifest
  unfold persisted State.get load
  simp only [hmanifest, Option.getD_some, hdecode]
  rw [lookup_foldl_bundles, if_pos (by simp), loadBundle_configOf h, Finmap.lookup_empty,
    Option.or_none]

theorem renderConfig_ok {limit : ℕ} {object : ConfigMap}
    (h : renderConfig c operatorVersion state limit = .ok object) :
    object = configOf c operatorVersion state := by
  unfold renderConfig at h
  dsimp only at h
  split_ifs at h
  exact (Except.ok.inj h).symm

theorem save_cases {limit : ℕ} {answers : Answers} :
    (save c operatorVersion stored state limit answers).2 = stored ∨
      (save c operatorVersion stored state limit answers).2 =
        some (configOf c operatorVersion state) := by
  have hsend : ∀ {object : ConfigMap} {verb : String} {answer : Answer},
      (send stored object verb answer).2 = stored ∨
        (send stored object verb answer).2 = some object := by
    intro object verb answer
    cases answer with
    | done => exact Or.inr rfl
    | refused err => exact Or.inl rfl
    | lost err => exact Or.inr rfl
  unfold save
  cases hrender : renderConfig c operatorVersion state limit with
  | error err => exact Or.inl rfl
  | ok object =>
    obtain rfl := renderConfig_ok hrender
    cases answers.read with
    | some err => exact Or.inl rfl
    | none =>
      cases stored with
      | none => exact hsend
      | some existing =>
        dsimp only
        split_ifs
        · exact Or.inl rfl
        · exact hsend

theorem Build.reconcile_cases {build : Build} {policies : List Object} {answers : Answers} :
    (build.reconcile stored policies answers).2 = stored ∨
      (build.reconcile stored policies answers).2 =
        some (configOf build.codec build.version (build.result stored policies).state) := by
  unfold Build.reconcile
  cases answers.load with
  | some err => exact Or.inl rfl
  | none => exact save_cases

end Ratelimit.Operator
