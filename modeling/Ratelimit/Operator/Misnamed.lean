import Ratelimit.Operator.FitNeed

/-!
# An object that is not named after its domain

The compilation takes a domain from the object that has its name. The fit looks its objects up
by the domain their specs give, and the last one wins. So where the domain has to be set back,
an object of another name takes it over and leaves it without limits.
-/
namespace Ratelimit.Operator

open Api Library

def Input.withPolicies (input : Input) (policies : List Object) : Input :=
  { input with policies := policies }

/-- One more object changes nothing but its own outcome, which is the refusal. -/
structure Unaffected (m : Object) (before after : Result) : Prop where
  snapshots : after.snapshots = before.snapshots
  state : after.state = before.state
  others : ∀ key, key ≠ m.key → after.policies.lookup key = before.policies.lookup key
  own : after.policies.lookup m.key = some (mismatch m)

/-- The domain of an object that goes in before `later` has no other object there, and
is one that has to be set back. -/
def TakesOver (c : Codec) (input : Input) (limit : ℕ) (m : Object) (later : List Object) : Prop :=
  (∀ o ∈ later, o.spec.domain ≠ m.spec.domain) ∧ ComesTo c input limit m.spec.domain

variable {c : Codec} {input : Input} {limit n : ℕ} {m o : Object} {l l₁ l₂ : List Object}
  {r r' : Result} {ds : List Text} {domain : Text}

section Steps

theorem Unaffected.insert (h : Unaffected m r r') (hkey : o.key ≠ m.key) (outcome : Outcome) :
    (∀ key, key ≠ m.key → (r'.policies.insert o.key outcome).lookup key =
      (r.policies.insert o.key outcome).lookup key) ∧
    (r'.policies.insert o.key outcome).lookup m.key = some (mismatch m) := by
  constructor
  · intro key hne
    by_cases heq : key = o.key
    · rw [heq, Finmap.lookup_insert, Finmap.lookup_insert]
    · rw [Finmap.lookup_insert_of_ne _ heq, Finmap.lookup_insert_of_ne _ heq, h.others key hne]
  · rw [Finmap.lookup_insert_of_ne _ (Ne.symm hkey), h.own]

theorem Unaffected.settle (h : Unaffected m r r') (hkey : o.key ≠ m.key)
    (settled : Outcome × Compile.Snapshot × Bundle) :
    Unaffected m (r.settle o settled) (r'.settle o settled) := by
  obtain ⟨hothers, hown⟩ := h.insert hkey settled.1
  exact ⟨congrArg (Finmap.insert _ _) h.snapshots, congrArg (Finmap.insert _ _) h.state,
    hothers, hown⟩

theorem Unaffected.compileObject (h : Unaffected m r r') (hkey : o.key ≠ m.key) :
    Unaffected m (compileObject input r o) (compileObject input r' o) := by
  by_cases hnamed : o.WellNamed
  · rw [compileObject_wellNamed hnamed, compileObject_wellNamed hnamed]
    exact h.settle hkey _
  · rw [compileObject_misnamed hnamed, compileObject_misnamed hnamed]
    obtain ⟨hothers, hown⟩ := h.insert hkey (mismatch o)
    exact ⟨h.snapshots, h.state, hothers, hown⟩

theorem Unaffected.foldl_compileObject (hkeys : ∀ o ∈ l, o.key ≠ m.key) :
    ∀ {r r' : Result}, Unaffected m r r' →
      Unaffected m (l.foldl (Operator.compileObject input) r)
        (l.foldl (Operator.compileObject input) r') := by
  induction l with
  | nil => exact fun h => h
  | cons o l ih =>
    intro r r' h
    exact ih (fun o ho => hkeys o (List.mem_cons_of_mem _ ho))
      (h.compileObject (hkeys o List.mem_cons_self))

theorem compile_misnamed (hm : ¬m.WellNamed) (hnew : ∀ o ∈ l₁ ++ l₂, o.name ≠ m.name) :
    Unaffected m (compile (input.withPolicies (l₁ ++ l₂)))
      (compile (input.withPolicies (l₁ ++ m :: l₂))) := by
  obtain ⟨s₁, s₂, hwith, hwithout⟩ :=
    @insertionSort_append_cons _ Object.le _ _ _ l₁ l₂ m
  have hkeys : ∀ o ∈ s₂, o.key ≠ m.key := by
    intro o ho heq
    have hmem : o ∈ (l₁ ++ l₂).insertionSort Object.le :=
      hwithout ▸ List.mem_append_right s₁ ho
    exact hnew o (mem_sortedPolicies.mp hmem) (congrArg ObjectKey.name heq)
  have hcompile : ∀ l l', l.insertionSort Object.le = l' →
      compile (input.withPolicies l) = l'.foldl (compileObject input) ⟨∅, ∅, ∅⟩ := by
    rintro l - rfl
    rfl
  rw [hcompile _ _ hwith, hcompile _ _ hwithout, List.foldl_append, List.foldl_append,
    List.foldl_cons]
  refine Unaffected.foldl_compileObject hkeys ?_
  rw [compileObject_misnamed hm]
  exact ⟨rfl, rfl, fun key hne => Finmap.lookup_insert_of_ne _ hne, Finmap.lookup_insert _⟩

theorem Unaffected.size (h : Unaffected m r r') {l' : List Object} :
    r'.size c (input.withPolicies l') = r.size c (input.withPolicies l) := by
  rw [Result.size, Result.size, h.state]
  rfl

theorem Unaffected.setBackDomain {l' : List Object} (h : Unaffected m r r')
    (hclaimant : claimant (input.withPolicies l') domain = claimant (input.withPolicies l) domain)
    (hkeys : ∀ o ∈ l, o.key ≠ m.key) :
    Unaffected m (setBackDomain c (input.withPolicies l) limit r domain)
      (setBackDomain c (input.withPolicies l') limit r' domain) := by
  unfold Operator.setBackDomain
  rw [hclaimant, h.size]
  cases hfound : claimant (input.withPolicies l) domain with
  | none => exact h
  | some o => exact h.settle (hkeys o (claimant_mem hfound).1) _

theorem Unaffected.foldl_setBack {l' : List Object}
    (hclaimant : ∀ d ∈ ds, claimant (input.withPolicies l') d = claimant (input.withPolicies l) d)
    (hkeys : ∀ o ∈ l, o.key ≠ m.key) : ∀ {r r' : Result}, Unaffected m r r' →
      Unaffected m (ds.foldl (Operator.setBackDomain c (input.withPolicies l) limit) r)
        (ds.foldl (Operator.setBackDomain c (input.withPolicies l') limit) r') := by
  induction ds with
  | nil => exact fun h => h
  | cons d ds ih =>
    intro r r' h
    exact ih (fun d hd => hclaimant d (List.mem_cons_of_mem _ hd))
      (h.setBackDomain (hclaimant d List.mem_cons_self) hkeys)

end Steps

section Claimants

theorem claimant_last (h : ∀ o ∈ l₂, o.spec.domain ≠ m.spec.domain) :
    claimant (input.withPolicies (l₁ ++ m :: l₂)) m.spec.domain = some m := by
  have hnone : l₂.filter (fun o => decide (o.spec.domain = m.spec.domain)) = [] := by
    simpa [List.filter_eq_nil_iff] using h
  simp [claimant, Input.withPolicies, List.filter_append, hnone]

theorem claimant_others (h : domain = m.spec.domain → ∃ o ∈ l₂, o.spec.domain = m.spec.domain) :
    claimant (input.withPolicies (l₁ ++ m :: l₂)) domain =
      claimant (input.withPolicies (l₁ ++ l₂)) domain := by
  unfold claimant Input.withPolicies
  by_cases hdomain : m.spec.domain = domain
  · obtain ⟨o, ho, hsame⟩ := h hdomain.symm
    have hne : l₂.filter (fun o => decide (o.spec.domain = domain)) ≠ [] :=
      List.ne_nil_of_mem (List.mem_filter.mpr ⟨ho, decide_eq_true (hsame.trans hdomain)⟩)
    simp only [List.filter_append, List.filter_cons, hdomain, decide_true, if_true]
    rw [List.append_cons, List.getLast?_append_of_ne_nil _ hne, List.getLast?_append_of_ne_nil _ hne]
  · simp [hdomain]

theorem mismatch_err_ne {namespaceName : Text} {previous : Bundle} {skew : List RuleProblem}
    {reason : Message} :
    (compileDomainFitting namespaceName o previous skew (some reason)).1 ≠ mismatch m := by
  intro heq
  have herr : (compileDomainFitting namespaceName o previous skew (some reason)).1.err =
      (mismatch m).err := congrArg Outcome.err heq
  by_cases hgood : o.Good namespaceName skew
  · rw [(compileDomainFitting_tooLarge hgood reason).2.1] at herr
    cases herr
  · rw [compileDomainFitting_bad hgood, fallBack_cases.1.1] at herr
    unfold latestGeneration blockingError at herr
    split_ifs at herr
    · simp [mismatch] at herr
    · simp only at herr
      split_ifs at herr
      · cases herr
      · simp [mismatch] at herr

end Claimants

section TwoRuns

variable {base more : Input} (hbase : base = input.withPolicies (l₁ ++ l₂))
  (hmore : more = input.withPolicies (l₁ ++ m :: l₂)) (hm : ¬m.WellNamed)
  (hnew : ∀ o ∈ l₁ ++ l₂, o.name ≠ m.name)

include hbase hmore hm hnew

theorem candidates_misnamed :
    candidates c more (compile more).state = candidates c base (compile base).state := by
  subst hbase hmore
  rw [(compile_misnamed hm hnew).state]
  rfl

theorem unaffected_setBackFirst (h : ∀ d ∈ (edits c base).take n, claimant more d = claimant base d) :
    Unaffected m (setBackFirst c base limit (compile base) n)
      (setBackFirst c more limit (compile more) n) := by
  have hcandidates := @candidates_misnamed c _ _ _ _ base more hbase hmore hm hnew
  unfold setBackFirst
  rw [hcandidates]
  subst hbase hmore
  refine Unaffected.foldl_setBack h (fun o ho heq => ?_) (compile_misnamed hm hnew)
  exact hnew o ho (congrArg ObjectKey.name heq)

theorem size_setBackFirst (h : ∀ d ∈ (edits c base).take n, claimant more d = claimant base d) :
    (setBackFirst c more limit (compile more) n).size c more =
      (setBackFirst c base limit (compile base) n).size c base := by
  have hsame := @unaffected_setBackFirst c _ limit n _ _ _ base more hbase hmore hm hnew h
  subst hbase hmore
  exact hsame.size

theorem fitStops_misnamed (hstops : FitStops c base limit (compile base) n)
    (h : ∀ d ∈ (edits c base).take n, claimant more d = claimant base d) :
    FitStops c more limit (compile more) n := by
  have hcandidates := @candidates_misnamed c _ _ _ _ base more hbase hmore hm hnew
  refine ⟨hcandidates ▸ hstops.le, fun k hk => ?_, ?_⟩
  · rw [size_setBackFirst hbase hmore hm hnew fun d hd =>
      h d ((List.take_sublist_take_left hk.le).subset hd)]
    exact hstops.before k hk
  · rw [size_setBackFirst hbase hmore hm hnew h, hcandidates]
    exact hstops.ends

omit hm hnew in
theorem claimant_before {i : ℕ} (hi : (edits c base)[i]? = some m.spec.domain) :
    ∀ d ∈ (edits c base).take i, claimant more d = claimant base d := by
  have hnodup : (edits c base).Nodup := nodup_sortedBy _
  intro d hd
  subst hbase hmore
  refine claimant_others fun hdomain => ?_
  obtain ⟨j, hj, hget⟩ := List.mem_take_iff_getElem.mp hd
  obtain ⟨hlt, hget'⟩ := List.getElem?_eq_some_iff.mp hi
  have hij : j = i := (hnodup.getElem_inj_iff).mp (hget.trans (hdomain.trans hget'.symm))
  omega

end TwoRuns

/-- An object of a new name, not named after its domain, changes nothing, exactly if it
does not take over a domain that has to be set back. -/
theorem unaffected_iff (hm : ¬m.WellNamed) (hnew : ∀ o ∈ l₁ ++ l₂, o.name ≠ m.name) :
    Unaffected m (compileAndFit c (input.withPolicies (l₁ ++ l₂)) limit)
        (compileAndFit c (input.withPolicies (l₁ ++ m :: l₂)) limit) ↔
      ¬TakesOver c (input.withPolicies (l₁ ++ l₂)) limit m l₂ := by
  generalize hbase : input.withPolicies (l₁ ++ l₂) = base
  generalize hmore : input.withPolicies (l₁ ++ m :: l₂) = more
  replace hbase := hbase.symm
  replace hmore := hmore.symm
  have hcandidates := @candidates_misnamed c _ _ _ _ base more hbase hmore hm hnew
  obtain ⟨n, hfit, hstops⟩ := fit_run c base limit (compile base)
  obtain ⟨n', hfit', hstops'⟩ := fit_run c more limit (compile more)
  unfold compileAndFit
  rw [hfit, hfit']
  constructor
  · rintro hun ⟨hlast, i, hi, hover⟩
    have hbefore := claimant_before hbase hmore hi
    -- the second run is still over the limit when it comes to the domain
    have hreached : i < n' := by
      by_contra hle
      have hsize := @size_setBackFirst c _ limit _ _ _ _ base more hbase hmore hm hnew
        fun d hd => hbefore d ((List.take_sublist_take_left (not_lt.mp hle)).subset hd)
      rcases hstops'.ends with hends | hends
      · rw [hsize, Result.size, setBackFirst_state] at hends
        exact absurd (hover n' (not_lt.mp hle)) (not_lt.mpr hends)
      · obtain ⟨hlt, -⟩ := List.getElem?_eq_some_iff.mp hi
        rw [hcandidates] at hends
        exact hle (hends ▸ hlt)
    have hmem : m.spec.domain ∈ (candidates c more (compile more).state).take n' := by
      obtain ⟨hlt, hget⟩ := List.getElem?_eq_some_iff.mp hi
      rw [hcandidates]
      exact List.mem_take_iff_getElem.mpr ⟨i, lt_min hreached hlt, hget⟩
    obtain ⟨reason, hlookup⟩ := @foldl_setBack_outcome c more limit m _ _ hmem
      (hmore ▸ claimant_last hlast) (fun d o ho hkey => by
        obtain ⟨hpolicy, rfl⟩ := claimant_mem ho
        have hname : o.name = m.name := congrArg ObjectKey.name hkey
        subst hmore
        rcases List.mem_append.mp hpolicy with hin | hin
        · exact absurd hname (hnew o (List.mem_append_left _ hin))
        · rcases List.mem_cons.mp hin with rfl | hin
          · rfl
          · exact absurd hname (hnew o (List.mem_append_right _ hin))) (compile more)
    exact mismatch_err_ne (Option.some.inj (hlookup.symm.trans hun.own))
  · intro hnot
    have hagree : ∀ d ∈ (edits c base).take n, claimant more d = claimant base d := by
      intro d hd
      subst hmore hbase
      refine claimant_others ?_
      rintro rfl
      by_contra hnone
      exact hnot ⟨fun o ho heq => hnone ⟨o, ho, heq⟩, (comesTo_iff hstops).mpr hd⟩
    rw [hstops'.unique (fitStops_misnamed hbase hmore hm hnew hstops hagree)]
    exact unaffected_setBackFirst hbase hmore hm hnew hagree

def strayObject : Object :=
  ⟨ascii "prod", ascii "z", ascii "uid-z", 1, limitSpec (ascii "a") (longName 45)⟩

theorem unaffected_stray :
    Unaffected strayObject (compileAndFit (storedCodec knownLimits) grownInput 805)
      (compileAndFit (storedCodec knownLimits)
        (grownInput.withPolicies (strayObject :: grownInput.policies)) 805) := by
  refine (@unaffected_iff (storedCodec knownLimits) grownInput 805 strayObject []
    grownInput.policies (by decide +kernel) (by decide +kernel)).mpr ?_
  rintro ⟨hlast, -⟩
  exact absurd hlast (by decide +kernel)

/-- After it, it takes the domain over and leaves it without limits. -/
theorem unaffected_stray_last :
    (compileAndFit (storedCodec knownLimits) grownInput 805).state.get (ascii "a") =
        limitBundle (ascii "a") 1 40 ∧
      (compileAndFit (storedCodec knownLimits)
        (grownInput.withPolicies (grownInput.policies ++ [strayObject])) 805).state.get
          (ascii "a") = .zero ∧
      ¬Unaffected strayObject (compileAndFit (storedCodec knownLimits) grownInput 805)
        (compileAndFit (storedCodec knownLimits)
          (grownInput.withPolicies (grownInput.policies ++ [strayObject])) 805) := by
  have hbefore : (compileAndFit (storedCodec knownLimits) grownInput 805).state.get (ascii "a") =
      limitBundle (ascii "a") 1 40 := by decide +kernel
  have hafter : (compileAndFit (storedCodec knownLimits)
      (grownInput.withPolicies (grownInput.policies ++ [strayObject])) 805).state.get
        (ascii "a") = .zero := by decide +kernel
  refine ⟨hbefore, hafter, fun hun => ?_⟩
  rw [hun.state, hbefore] at hafter
  exact absurd hafter (by decide +kernel)

end Ratelimit.Operator
