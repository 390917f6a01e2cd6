import Ratelimit.Operator.FitLimit

/-!
# What the fit keeps out

The fit orders the candidates by the size of their latest payload, not by how much
they grew. The last one it sets back never fits, and neither do those that grew at least
as much. An earlier one that grew less, or shrank, may fit again into the room that the
later ones leave, and is kept out all the same.
-/
namespace Ratelimit.Operator

open Api Library

def Object.latest (o : Object) : Bundle := ⟨o.uid, o.generation, o.spec⟩

section Growth

variable (c : Codec) (entry : Text → DomainEntry → ℕ) (input : Input)

end Growth

def Input.keepingOut (input : Input) (ds : List Text) : State :=
  ds.foldl (fun state domain => match claimant input domain with
    | none => state
    | some o => state.insert domain (input.setBackTo o).2) (compile input).state

def sizeKeepingOut (c : Codec) (input : Input) (ds : List Text) : ℕ :=
  (render c (input.keepingOut ds) input.operatorVersion).size

/-- The fit comes to the domain: with those before it set back, the rest is still over
the limit. -/
def ComesTo (c : Codec) (input : Input) (limit : ℕ) (domain : Text) : Prop :=
  let moved := edits c input
  ∃ n, moved[n]? = some domain ∧ ∀ k ≤ n, limit < sizeKeepingOut c input (moved.take k)

variable {c : Codec} {entry : Text → DomainEntry → ℕ} {input : Input} {limit n : ℕ} {o : Object}
  {domain : Text} {ds : List Text}

theorem foldl_setBack_outcome (hmem : domain ∈ ds) (ho : claimant input domain = some o)
    (hkeys : ∀ d o', claimant input d = some o' → o'.key = o.key → d = domain) :
    ∀ {r : Result}, ∃ reason, (ds.foldl (setBackDomain c input limit) r).policies.lookup o.key =
      some (compileDomainFitting input.namespaceName o (input.state.get o.spec.domain)
        (input.skew o.key) (some reason)).1 := by
  induction ds with
  | nil => cases hmem
  | cons d ds ih =>
    intro r
    by_cases hrest : domain ∈ ds
    · exact ih hrest
    · obtain rfl : domain = d := (List.mem_cons.mp hmem).resolve_right hrest
      rw [List.foldl_cons, foldl_setBack_key fun d hd o' ho' hkey => hrest (hkeys d o' ho' hkey ▸ hd)]
      simp only [setBackDomain, ho, setBack, Result.settle, Finmap.lookup_insert]
      exact ⟨_, rfl⟩

theorem candidate_latest (hmem : domain ∈ edits c input) :
    ∃ o ∈ input.policies, o.spec.domain = domain ∧ o.Good input.namespaceName (input.skew o.key) ∧
      (compile input).state.lookup domain = some o.latest := by
  obtain ⟨b, hb, hmoved⟩ := mem_candidates.mp hmem
  obtain ⟨o, ho, hnamed, rfl, hsettled⟩ := compile_state hb
  refine ⟨o, ho, rfl, ?_⟩
  by_cases hgood : o.Good input.namespaceName (input.skew o.key)
  · have hlatest : b = o.latest := hsettled.trans (compileDomainFitting_latest hgood).bundle
    exact ⟨hgood, hb.trans (congrArg some hlatest)⟩
  · exfalso
    rcases (compileDomainFitting_invalid hgood).1 with hlast | ⟨hzero, -⟩
    · have hprevious : b = input.state.get o.spec.domain := hsettled.trans hlast.bundle
      simp [moved, hprevious, lookup_of_get hlast.uid_ne] at hmoved
    · have hb0 : b = .zero := hsettled.trans hzero
      simp [moved, hb0, Bundle.zero] at hmoved

theorem lookup_keepingOut (h : ∀ d ∈ ds, ∃ o ∈ input.policies, o.spec.domain = d) :
    (input.keepingOut ds).lookup domain =
      if domain ∈ ds then (claimant input domain).map fun o => (input.setBackTo o).2
      else (compile input).state.lookup domain := by
  induction ds using List.reverseRecOn with
  | nil => rfl
  | append_singleton ds d ih =>
    obtain ⟨o, ho, rfl⟩ := h d (by simp)
    obtain ⟨o', ho'⟩ := exists_claimant ho
    have hrest := ih fun d hd => h d (List.mem_append_left _ hd)
    unfold Input.keepingOut at hrest ⊢
    rw [List.foldl_append]
    simp only [List.foldl_cons, List.foldl_nil, ho']
    by_cases hdomain : domain = o.spec.domain
    · subst hdomain
      simp [ho']
    · rw [Finmap.lookup_insert_of_ne _ hdomain, hrest]
      simp [hdomain]

theorem candidates_claimed (hsub : ∀ d ∈ ds, d ∈ edits c input) :
    ∀ d ∈ ds, ∃ o ∈ input.policies, o.spec.domain = d := by
  intro d hd
  obtain ⟨o, ho, hdomain, -⟩ := candidate_latest (hsub d hd)
  exact ⟨o, ho, hdomain⟩

theorem setBackFirst_state : (setBackFirst c input limit (compile input) n).state =
    input.keepingOut ((edits c input).take n) := by
  have hclaimed := candidates_claimed fun d (hd : d ∈ (candidates c input _).take n) =>
    List.mem_of_mem_take hd
  refine Finmap.ext_lookup fun domain => ?_
  rw [lookup_keepingOut hclaimed]
  split_ifs with hmem
  · obtain ⟨o, ho, rfl⟩ := hclaimed domain hmem
    obtain ⟨o', ho'⟩ := exists_claimant ho
    rw [setBackFirst, (foldl_setBack_mem hmem ho').1, ho']
    rfl
  · exact (foldl_setBack_other hmem).1

theorem fitStops_iff : FitStops c input limit (compile input) n ↔
    n ≤ (edits c input).length ∧ (∀ m < n, limit < sizeKeepingOut c input ((edits c input).take m)) ∧
    (sizeKeepingOut c input ((edits c input).take n) ≤ limit ∨ n = (edits c input).length) := by
  have hsize : ∀ m, (setBackFirst c input limit (compile input) m).size c input =
      sizeKeepingOut c input ((edits c input).take m) := fun m => by
    rw [Result.size, setBackFirst_state, sizeKeepingOut]
  constructor
  · intro h
    exact ⟨h.le, fun m hm => hsize m ▸ h.before m hm, hsize n ▸ h.ends⟩
  · rintro ⟨hle, hbefore, hends⟩
    exact ⟨hle, fun m hm => (hsize m).symm ▸ hbefore m hm, (hsize n).symm ▸ hends⟩

theorem comesTo_iff (hstops : FitStops c input limit (compile input) n) :
    ComesTo c input limit domain ↔ domain ∈ (edits c input).take n := by
  obtain ⟨hle, hbefore, hends⟩ := fitStops_iff.mp hstops
  constructor
  · rintro ⟨i, hi, hover⟩
    obtain ⟨hlt, hget⟩ := List.getElem?_eq_some_iff.mp hi
    have hreached : i < n := by
      by_contra hge
      rcases hends with hfits | hlast
      · exact absurd (hover n (not_lt.mp hge)) (not_lt.mpr hfits)
      · omega
    exact List.mem_take_iff_getElem.mpr ⟨i, lt_min hreached hlt, hget⟩
  · intro hmem
    obtain ⟨i, hi, hget⟩ := List.mem_take_iff_getElem.mp hmem
    refine ⟨i, ?_, fun k hk => hbefore k ?_⟩
    · rw [List.getElem?_eq_getElem (lt_of_lt_of_le hi (min_le_right _ _)), hget]
    · exact lt_of_le_of_lt hk (lt_of_lt_of_le hi (min_le_left _ _))

section Distinct

variable (hdistinct : input.Distinct) (hnamed : ∀ o ∈ input.policies, o.WellNamed)
  (ho : o ∈ input.policies)
include hdistinct hnamed ho

theorem eq_of_domain {o' : Object} (ho' : o' ∈ input.policies)
    (hdomain : o'.spec.domain = o.spec.domain) : o' = o := by
  refine List.inj_on_of_nodup_map hdistinct ho' ho ?_
  rw [hnamed o' ho', hnamed o ho, hdomain]

theorem claimant_of_distinct : claimant input o.spec.domain = some o := by
  obtain ⟨o', ho'⟩ := exists_claimant ho
  obtain ⟨hmem, hdomain⟩ := claimant_mem ho'
  rw [ho', eq_of_domain hdistinct hnamed ho hmem hdomain]

theorem tooLarge_iff :
    (∃ outcome, (setBackFirst c input limit (compile input) n).policies.lookup o.key = some outcome ∧
        outcome.tooLarge = true) ↔
      o.spec.domain ∈ (edits c input).take n := by
  constructor
  · rintro ⟨outcome, houtcome, htoo⟩
    by_contra hmem
    rw [policies_of_setBackFirst hnamed ho hmem] at houtcome
    rw [compile_tooLarge houtcome] at htoo
    cases htoo
  · intro hmem
    obtain ⟨o', ho', hdomain, hgood, -⟩ := candidate_latest (List.mem_of_mem_take hmem)
    obtain rfl := eq_of_domain hdistinct hnamed ho ho' hdomain
    obtain ⟨reason, hlookup⟩ := @foldl_setBack_outcome c input limit o' _ _ hmem
      (claimant_of_distinct hdistinct hnamed ho) (fun d o'' ho'' hkey => by
        obtain ⟨hmem'', rfl⟩ := claimant_mem ho''
        rw [← hnamed o'' hmem'', ← hnamed o' ho]
        exact congrArg ObjectKey.name hkey) (compile input)
    exact ⟨_, hlookup, (compileDomainFitting_tooLarge hgood reason).2.2⟩

end Distinct

end Ratelimit.Operator
