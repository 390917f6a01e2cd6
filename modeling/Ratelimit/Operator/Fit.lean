import Ratelimit.Api.Manifest
import Ratelimit.Library.Maps
import Ratelimit.Library.Sorting
import Ratelimit.Operator.Generations

/-!
# The fit

What is written for the namespace, and the pass that keeps it within the limit of one
ConfigMap: the generations that moved are set back to their last-good bundles, the largest
payload first, until the rest fits. The limit is positive; the code panics on any other.
-/
namespace Ratelimit.Operator

open Api Library

section Rendering

/-- The content of the configuration ConfigMap. -/
structure Rendered where
  manifest : Text
  payloads : Finmap fun _ : Text => Text
  size : ℕ

variable (c : Codec)

/-- The manifest entry of a bundle; one without a UID has nothing to enforce. -/
def Bundle.entry (b : Bundle) : Option DomainEntry :=
  if b.uid = [] then none else some ⟨b.goodGeneration, b.uid, (c.encodePayload b.goodSpec).2⟩

def Bundle.payload (b : Bundle) : Option Text :=
  if b.uid = [] then none else some (c.encodePayload b.goodSpec).1

def payloadsOf (state : State) : Finmap fun _ : Text => Text :=
  filterMapEntries (fun _ b => Bundle.payload c b) state

def manifestOf (state : State) (operatorVersion : Text) : Manifest :=
  ⟨formatVersion, operatorVersion, filterMapEntries (fun _ b => Bundle.entry c b) state⟩

def payloadSize (payloads : Finmap fun _ : Text => Text) (domain : Text) : ℕ :=
  ((payloads.lookup domain).getD []).length

def render (state : State) (operatorVersion : Text) : Rendered :=
  let payloads := payloadsOf c state
  let manifest := c.encode (manifestOf c state operatorVersion)
  ⟨manifest, payloads, manifest.length + ∑ domain ∈ payloads.keys, payloadSize payloads domain⟩

end Rendering

section Fitting

variable (c : Codec)

/-- The bundle is not the one that was persisted, so it can be set back. -/
def moved (input : Input) (domain : Text) (bundle : Bundle) : Bool :=
  decide (bundle.uid ≠ []) &&
    match input.state.lookup domain with
    | none => true
    | some previous =>
      !decide (previous.uid = bundle.uid ∧ previous.goodGeneration = bundle.goodGeneration)

/-- Largest payload first, by name among equals. -/
def Before (payloads : Finmap fun _ : Text => Text) (a b : Text) : Prop :=
  payloadSize payloads b < payloadSize payloads a ∨
    payloadSize payloads a = payloadSize payloads b ∧ a ≤ b

instance (payloads : Finmap fun _ : Text => Text) : DecidableRel (Before payloads) :=
  fun _ _ => inferInstanceAs (Decidable (_ ∨ _))

instance (payloads : Finmap fun _ : Text => Text) : Std.Total (Before payloads) where
  total a b := by
    rcases lt_trichotomy (payloadSize payloads a) (payloadSize payloads b) with hlt | heq | hlt
    · exact Or.inr (Or.inl hlt)
    · exact (le_total a b).imp (fun h => Or.inr ⟨heq, h⟩) fun h => Or.inr ⟨heq.symm, h⟩
    · exact Or.inl (Or.inl hlt)

instance (payloads : Finmap fun _ : Text => Text) : IsTrans Text (Before payloads) where
  trans a b d hab hbd := by
    rcases hab with hab | ⟨hab, hab'⟩ <;> rcases hbd with hbd | ⟨hbd, hbd'⟩
    · exact Or.inl (hbd.trans hab)
    · exact Or.inl (hbd ▸ hab)
    · exact Or.inl (hab ▸ hbd)
    · exact Or.inr ⟨hab.trans hbd, hab'.trans hbd'⟩

instance (payloads : Finmap fun _ : Text => Text) : Std.Antisymm (Before payloads) where
  antisymm a b hab hba := by
    rcases hab with hab | ⟨hab, hab'⟩ <;> rcases hba with hba | ⟨hba, hba'⟩
    · omega
    · omega
    · omega
    · exact le_antisymm hab' hba'

/-- The domains whose bundle this compilation changed, in the order they are set back. -/
def candidates (input : Input) (state : State) : List Text :=
  sortedBy (Before (payloadsOf c state))
    (state.keys.filter fun domain => moved input domain (state.get domain) = true)

/-- The object that the fit takes for the domain: the last one whose spec names it. -/
def claimant (input : Input) (domain : Text) : Option Object :=
  (input.policies.filter fun o => o.spec.domain = domain).getLast?

def overLimit (size limit : ℕ) : Message :=
  ⟨"the namespace's configuration would be %d bytes compressed, over the limit of %d",
    [.number size, .number limit]⟩

/-- The domain set back, for what the configuration came to before. -/
def setBack (input : Input) (limit size : ℕ) (r : Result) (object : Object) : Result :=
  r.settle object (compileDomainFitting input.namespaceName object
    (input.state.get object.spec.domain) (input.skew object.key) (some (overLimit size limit)))

def fitLoop (input : Input) (limit : ℕ) : List Text → ℕ → Result → Result
  | [], _, r => r
  | domain :: rest, size, r =>
    match claimant input domain with
    | none => fitLoop input limit rest size r
    | some object =>
      let r := setBack input limit size r object
      let size := (render c r.state input.operatorVersion).size
      if size ≤ limit then r else fitLoop input limit rest size r

def fit (input : Input) (r : Result) (limit : ℕ) : Result :=
  let size := (render c r.state input.operatorVersion).size
  if size ≤ limit then r else fitLoop c input limit (candidates c input r.state) size r

/-- The compilation of the namespace within the limit. -/
def compileAndFit (input : Input) (limit : ℕ) : Result := fit c input (compile input) limit

end Fitting

end Ratelimit.Operator
