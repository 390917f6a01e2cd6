import Ratelimit.Api.StoredCodec
import Ratelimit.Operator.FitRun

/-!
# The fit ends within the limit

Once every candidate is set back, each domain holds a bundle that was persisted, or
none. What was persisted was within the limit, and fewer entries are not larger.
-/
namespace Ratelimit.Operator

open Api Library

section Sizes

def GrowsWithEntries (c : Codec) : Prop :=
  ∀ (operatorVersion : Text) (m m' : Finmap fun _ : Text => DomainEntry),
    (∀ domain e, m.lookup domain = some e → m'.lookup domain = some e) →
      (c.encode ⟨formatVersion, operatorVersion, m⟩).length ≤
        (c.encode ⟨formatVersion, operatorVersion, m'⟩).length

/-- What a state enforces is part of what the other does. -/
def Within (state state' : State) : Prop :=
  ∀ domain b, state.lookup domain = some b → b.uid ≠ [] → state'.lookup domain = some b

variable {c : Codec} {state state' : State}

theorem Within.entries {β : Type} {f : Bundle → Option β} (h : Within state state')
    (hf : ∀ b, b.uid = [] → f b = none) {domain : Text} {v : β}
    (hv : (filterMapEntries (fun _ b => f b) state).lookup domain = some v) :
    (filterMapEntries (fun _ b => f b) state').lookup domain = some v := by
  rw [lookup_filterMapEntries] at hv ⊢
  obtain ⟨b, hb, hfb⟩ := Option.bind_eq_some_iff.mp hv
  have hne : b.uid ≠ [] := by
    intro hempty
    rw [hf b hempty] at hfb
    cases hfb
  rw [h domain b hb hne]
  exact hfb

theorem payloadSize_sum_le {m m' : Finmap fun _ : Text => Text}
    (h : ∀ domain t, m.lookup domain = some t → m'.lookup domain = some t) :
    ∑ domain ∈ m.keys, payloadSize m domain ≤ ∑ domain ∈ m'.keys, payloadSize m' domain := by
  have hlookup : ∀ domain ∈ m.keys, m'.lookup domain = m.lookup domain := by
    intro domain hmem
    obtain ⟨t, ht⟩ :=
      Option.isSome_iff_exists.mp (Finmap.lookup_isSome.mpr (Finmap.mem_keys.mp hmem))
    rw [ht, h domain t ht]
  calc ∑ domain ∈ m.keys, payloadSize m domain
      = ∑ domain ∈ m.keys, payloadSize m' domain := by
        refine Finset.sum_congr rfl fun domain hmem => ?_
        rw [payloadSize, payloadSize, hlookup domain hmem]
    _ ≤ ∑ domain ∈ m'.keys, payloadSize m' domain := by
        refine Finset.sum_le_sum_of_subset fun domain hmem => ?_
        obtain ⟨t, ht⟩ :=
          Option.isSome_iff_exists.mp (Finmap.lookup_isSome.mpr (Finmap.mem_keys.mp hmem))
        exact Finmap.mem_keys.mpr (Finmap.mem_of_lookup_eq_some (h domain t ht))

theorem render_size_le (hgrows : GrowsWithEntries c) (h : Within state state')
    (operatorVersion : Text) :
    (render c state operatorVersion).size ≤ (render c state' operatorVersion).size := by
  refine Nat.add_le_add (hgrows _ _ _ fun domain e he => ?_)
    (payloadSize_sum_le fun domain t ht => ?_)
  · exact h.entries (fun b hb => if_pos hb) he
  · exact h.entries (fun b hb => if_pos hb) ht

end Sizes

section Bound

variable {c : Codec} {input : Input} {limit : ℕ} {domain : Text} {b : Bundle}

/-- A persisted bundle agrees with the object on the spec where it is of the same
generation of the same object. -/
def Input.Agrees (input : Input) : Prop :=
  ∀ o ∈ input.policies, ∀ b, input.state.lookup o.spec.domain = some b → b.uid = o.uid →
    b.goodGeneration = o.generation → b.goodSpec = o.spec

theorem lookup_of_get (h : (input.state.get domain).uid ≠ []) :
    input.state.lookup domain = some (input.state.get domain) := by
  unfold State.get at h ⊢
  cases hlookup : input.state.lookup domain with
  | none =>
    rw [hlookup] at h
    exact absurd rfl h
  | some b => rfl

theorem persisted_of_unmoved (hagrees : input.Agrees)
    (hb : (compile input).state.lookup domain = some b) (hne : b.uid ≠ [])
    (hunmoved : moved input domain b = false) : input.state.lookup domain = some b := by
  obtain ⟨o, ho, hnamed, rfl, hsettled⟩ := compile_state hb
  by_cases hgood : o.Good input.namespaceName (input.skew o.key)
  · have hlatest : b = ⟨o.uid, o.generation, o.spec⟩ :=
      hsettled.trans (compileDomainFitting_latest hgood).bundle
    unfold moved at hunmoved
    rw [decide_eq_true hne, Bool.true_and] at hunmoved
    split at hunmoved
    · cases hunmoved
    · next previous hprevious =>
      obtain ⟨huid, hgeneration⟩ : previous.uid = b.uid ∧
          previous.goodGeneration = b.goodGeneration := by simpa using hunmoved
      rw [hlatest] at huid hgeneration
      have hspec := hagrees o ho previous hprevious huid hgeneration
      obtain ⟨uid, generation, spec⟩ := previous
      obtain rfl : uid = o.uid := huid
      obtain rfl : generation = o.generation := hgeneration
      obtain rfl : spec = o.spec := hspec
      rw [hprevious, hlatest]
  · rcases (compileDomainFitting_invalid hgood).1 with hlast | ⟨hzero, -⟩
    · have hprevious : b = input.state.get o.spec.domain := hsettled.trans hlast.bundle
      rw [hprevious]
      exact lookup_of_get hlast.uid_ne
    · have hb0 : b = .zero := hsettled.trans hzero
      rw [hb0] at hne
      exact absurd rfl hne

/-- The domains the fit may set back, in its order. -/
abbrev edits (c : Codec) (input : Input) : List Text :=
  candidates c input (compile input).state

theorem within_of_all (hagrees : input.Agrees) :
    Within (setBackFirst c input limit (compile input)
      (edits c input).length).state input.state := by
  intro domain b hb hne
  unfold setBackFirst at hb
  rw [List.take_length] at hb
  by_cases hmem : domain ∈ edits c input
  · obtain ⟨b', hb', -⟩ := mem_candidates.mp hmem
    obtain ⟨o, ho, -, rfl, -⟩ := compile_state hb'
    obtain ⟨o', ho'⟩ := exists_claimant ho
    rw [(foldl_setBack_mem hmem ho').1] at hb
    obtain rfl := Option.some.inj hb
    rcases setBackTo_cases input o' with hzero | ⟨hprevious, hprevious_ne⟩
    · rw [hzero] at hne
      exact absurd rfl hne
    · rw [hprevious, (claimant_mem ho').2]
      rw [(claimant_mem ho').2] at hprevious_ne
      exact lookup_of_get hprevious_ne
  · rw [(foldl_setBack_other hmem).1] at hb
    have hunmoved : moved input domain b = false := by
      by_contra hmoved
      exact hmem (mem_candidates.mpr ⟨b, hb, by simpa using hmoved⟩)
    exact persisted_of_unmoved hagrees hb hne hunmoved

/-- What the fit leaves of a compilation within a limit. -/
structure Writable (c : Codec) (input : Input) (limit : ℕ) (compiled r : Result) : Prop where
  within : (render c r.state input.operatorVersion).size ≤ limit
  /-- A domain whose bundle did not move keeps it, and its objects their outcomes. -/
  unmoved : ∀ domain b, compiled.state.lookup domain = some b → moved input domain b = false →
    r.state.lookup domain = some b ∧
      r.snapshots.lookup domain = compiled.snapshots.lookup domain ∧
      ∀ o ∈ input.policies, o.spec.domain = domain →
        r.policies.lookup o.key = compiled.policies.lookup o.key
  /-- A domain that does not keep its bundle holds the one that was persisted, or none. -/
  back : ∀ domain, r.state.lookup domain = compiled.state.lookup domain ∨
    r.state.lookup domain = some .zero ∨
    r.state.lookup domain = some (input.state.get domain) ∧ input.state.lookup domain ≠ none
  /-- So does every domain that is reported too large. -/
  tooLarge : ∀ o ∈ input.policies, ∀ outcome, r.policies.lookup o.key = some outcome →
    outcome.tooLarge = true → r.state.lookup o.spec.domain = some .zero ∨
      r.state.lookup o.spec.domain = some (input.state.get o.spec.domain) ∧
        input.state.lookup o.spec.domain ≠ none

theorem size_of_fit (hgrows : GrowsWithEntries c) (hagrees : input.Agrees)
    (hfits : (render c input.state input.operatorVersion).size ≤ limit) :
    (render c (fit c input (compile input) limit).state input.operatorVersion).size ≤ limit := by
  obtain ⟨n, hfit, hstops⟩ := fit_run c input limit (compile input)
  rw [hfit]
  rcases hstops.ends with hwithin | rfl
  · exact hwithin
  · exact (render_size_le hgrows (within_of_all hagrees) _).trans hfits

theorem setBackFirst_mem {n : ℕ} (hmem : domain ∈ (edits c input).take n) :
    let r := setBackFirst c input limit (compile input) n
    r.state.lookup domain = some .zero ∨
      r.state.lookup domain = some (input.state.get domain) ∧ input.state.lookup domain ≠ none := by
  obtain ⟨b, hb, -⟩ := mem_candidates.mp (List.mem_of_mem_take hmem)
  obtain ⟨o, ho, -, rfl, -⟩ := compile_state hb
  obtain ⟨o', ho'⟩ := exists_claimant ho
  have hto := (@foldl_setBack_mem c input limit o' _ _ hmem ho' (compile input)).1
  have hdomain : o'.spec.domain = o.spec.domain := (claimant_mem ho').2
  rcases setBackTo_cases input o' with hzero | ⟨hprevious, hne⟩
  · exact Or.inl (hto.trans (congrArg some hzero))
  · rw [hdomain] at hprevious hne
    refine Or.inr ⟨hto.trans (congrArg some hprevious), ?_⟩
    rw [lookup_of_get hne]
    exact Option.some_ne_none _

theorem policies_of_setBackFirst (hnamed : ∀ o ∈ input.policies, o.WellNamed) {n : ℕ} {o : Object}
    (ho : o ∈ input.policies) (hmem : o.spec.domain ∉ (edits c input).take n) :
    (setBackFirst c input limit (compile input) n).policies.lookup o.key =
      (compile input).policies.lookup o.key := by
  refine foldl_setBack_key fun d hd o' ho' hkey => hmem ?_
  obtain ⟨hpolicy, hdomain⟩ := claimant_mem ho'
  have hsame : o.spec.domain = o'.spec.domain := by
    rw [← hnamed o ho, ← hnamed o' hpolicy]
    exact (congrArg ObjectKey.name hkey).symm
  rw [hsame, hdomain]
  exact hd

/-- The fit always ends within a limit that what was persisted is within, leaves alone the domains that
did not move, and sets others back to what was persisted for them, or nothing. -/
theorem fit_writable (hgrows : GrowsWithEntries c) (hnamed : ∀ o ∈ input.policies, o.WellNamed)
    (hagrees : input.Agrees) (hfits : (render c input.state input.operatorVersion).size ≤ limit) :
    Writable c input limit (compile input) (fit c input (compile input) limit) := by
  have hwithin := size_of_fit hgrows hagrees hfits
  obtain ⟨n, hfit, -⟩ := fit_run c input limit (compile input)
  refine ⟨hwithin, ?_, ?_, ?_⟩
  all_goals rw [hfit]
  · intro domain b hb hunmoved
    have hmem : domain ∉ (edits c input).take n := by
      intro hmem
      obtain ⟨b', hb', hmoved⟩ := mem_candidates.mp (List.mem_of_mem_take hmem)
      obtain rfl := Option.some.inj (hb.symm.trans hb')
      rw [hunmoved] at hmoved
      cases hmoved
    obtain ⟨hstate, hsnapshots⟩ := @foldl_setBack_other c input limit _ _ hmem (compile input)
    refine ⟨hstate.trans hb, hsnapshots, ?_⟩
    rintro o ho rfl
    exact policies_of_setBackFirst hnamed ho hmem
  · intro domain
    by_cases hmem : domain ∈ (edits c input).take n
    · exact Or.inr (setBackFirst_mem hmem)
    · exact Or.inl (@foldl_setBack_other c input limit _ _ hmem (compile input)).1
  · intro o ho outcome houtcome htoo
    by_cases hmem : o.spec.domain ∈ (edits c input).take n
    · exact setBackFirst_mem hmem
    · rw [policies_of_setBackFirst hnamed ho hmem] at houtcome
      rw [compile_tooLarge houtcome] at htoo
      cases htoo

theorem grows_storedCodec (known : Known) : GrowsWithEntries (storedCodec known) :=
  fun operatorVersion _ _ h => length_manifestJson_le operatorVersion h

def longName (n : ℕ) : Text := List.replicate n (byte 'x')

def limitObject (domain : Text) (generation : ℤ) (n : ℕ) : Object :=
  ⟨ascii "prod", domain, ascii "uid-" ++ domain, generation, limitSpec domain (longName n)⟩

def limitBundle (domain : Text) (generation : ℤ) (n : ℕ) : Bundle :=
  ⟨ascii "uid-" ++ domain, generation, limitSpec domain (longName n)⟩

def knownLimits : Known where
  limits := [(ascii "a", longName 45), (ascii "a", longName 40), (ascii "b", longName 30),
    (ascii "b", longName 1)]
  digests := [
    (limitJson (ascii "a") (longName 45),
      ascii "54577280a67728641cf2c305a6ee317fefa99243c0389da90d606465b729e576"),
    (limitJson (ascii "a") (longName 40),
      ascii "1e6d9564d0324ade34fbb940105fc10927fa4bea850576c455ea4d48f2b36c7c"),
    (limitJson (ascii "b") (longName 30),
      ascii "1c0212004dc3b5172cf78281c5fa1df826dd4949cb6541901bc3d0b0575f00ab"),
    (limitJson (ascii "b") (longName 1),
      ascii "b772eecf355ff0d083f5581427c38eace6f0b29922beaeb15b07d498dcd03839")]
  manifests := []

def grownInput : Input where
  namespaceName := ascii "prod"
  policies := [limitObject (ascii "a") 2 45, limitObject (ascii "b") 2 30]
  skew _ := []
  state := (Finmap.singleton (ascii "a") (limitBundle (ascii "a") 1 40)).insert (ascii "b")
    (limitBundle (ascii "b") 1 1)
  operatorVersion := ascii "v1"

theorem grownInput_named : ∀ o ∈ grownInput.policies, o.WellNamed := by decide +kernel

theorem grownInput_agrees : grownInput.Agrees := by
  unfold Input.Agrees
  decide +kernel

theorem fit_writable_grown :
    (render (storedCodec knownLimits) (compile grownInput).state grownInput.operatorVersion).size =
        810 ∧
      Writable (storedCodec knownLimits) grownInput 781 (compile grownInput)
        (fit (storedCodec knownLimits) grownInput (compile grownInput) 781) :=
  ⟨by decide +kernel, fit_writable (grows_storedCodec _) grownInput_named grownInput_agrees
    (by decide +kernel)⟩

end Bound

end Ratelimit.Operator
