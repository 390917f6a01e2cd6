import Ratelimit.Management.Listing

/-!
# More identity only sharpens the answer

A second query supplies what a first one does and more. Of the rules in a block that some
request of the second query reaches, the second listing decides every one that the first does,
and alike. Without such a request the listing may answer for nobody.
-/
namespace Ratelimit.Management

open Library Compile Match Ruleview

section Supplies

/-- The query supplies what the other one does, under every name with the same set. -/
def Query.Extends (q' q : Query) : Prop :=
  ∀ name raw, q.Supplies name raw →
    ∃ raw', q'.Supplies name raw' ∧ raw'.toFinset = raw.toFinset

variable {snap : Snapshot} {q q' : Query} {sc sc' : Scope} {name : Text} {raw values : List Text}

theorem supplyAxis_ok {entry : Text × List Text} (h : supplyAxis snap sc entry = .ok sc') :
    (cutAxisParameter entry.1 = none ∧ sc' = sc) ∨
      ∃ name, cutAxisParameter entry.1 = some name ∧ sc' = sc.supply name (sortedUnique entry.2) := by
  unfold supplyAxis at h
  cases hname : cutAxisParameter entry.1 with
  | none =>
    rw [hname] at h
    exact Or.inl ⟨rfl, (Except.ok.inj h).symm⟩
  | some name =>
    simp only [hname] at h
    split_ifs at h
    exact Or.inr ⟨name, rfl, (Except.ok.inj h).symm⟩

theorem supplyAbsent_ok (h : supplyAbsent snap sc name = .ok sc') :
    name ∉ sc.values ∧ sc' = sc.supply name [] := by
  unfold supplyAbsent at h
  split_ifs at h with hknown hsupplied
  exact ⟨hsupplied, (Except.ok.inj h).symm⟩

theorem cutAxisParameter_append (hne : name ≠ []) :
    cutAxisParameter (axisPrefix ++ name) = some name := by
  have hlength : ¬(axisPrefix ++ name).length ≤ axisPrefix.length := by
    have := List.length_pos_of_ne_nil hne
    rw [List.length_append]
    omega
  have hstart : Strings.hasPrefix (axisPrefix ++ name) axisPrefix = true :=
    Strings.hasPrefix_iff.mpr (List.prefix_append _ _)
  rw [cutAxisParameter, if_neg (not_or.mpr ⟨hlength, by simp [hstart]⟩), List.drop_left]

theorem parseScope_supplied (h : parseScope snap q = .ok sc) (hsupplied : q.Supplies name raw) :
    sc.values.lookup name = some (sortedUnique raw) := by
  obtain ⟨axes, haxes, habsent⟩ := passed_iff.mp h
  have hother : ∀ {s : Scope} {other : Text} {set : List Text}, other ≠ name →
      s.values.lookup name = some (sortedUnique raw) →
      (s.supply other set).values.lookup name = some (sortedUnique raw) := by
    intro s other set hne hs
    rw [Scope.supply, Finmap.lookup_insert_of_ne _ hne.symm, hs]
  cases hsupplied with
  | axis hne hlookup =>
    have hmiddle : axes.values.lookup name = some (sortedUnique raw) := by
      refine foldlM_ok_of_mem (P := fun s => s.values.lookup name = some (sortedUnique raw)) haxes
        (mem_entries (e := (axisPrefix ++ name, raw)).mpr hlookup) ?_ ?_
      · intro s s' hs'
        rcases supplyAxis_ok hs' with ⟨hcut, -⟩ | ⟨other, hcut, rfl⟩
        · rw [cutAxisParameter_append hne] at hcut
          cases hcut
        · rw [cutAxisParameter_append hne] at hcut
          obtain rfl := Option.some.inj hcut
          exact Finmap.lookup_insert _
      · intro entry hentry s s' hs hs'
        rcases supplyAxis_ok hs' with ⟨-, rfl⟩ | ⟨other, hcut, rfl⟩
        · exact hs
        · by_cases hname : other = name
          · subst hname
            -- the parameter is the same one, so its values are
            have hentry := mem_entries.mp hentry
            rw [(cutAxisParameter_some hcut).2, hlookup] at hentry
            rw [← Option.some.inj hentry]
            exact Finmap.lookup_insert _
          · exact hother hname hs
    refine foldlM_ok_induction (P := fun s => s.values.lookup name = some (sortedUnique raw)) habsent
      hmiddle fun other _ s s' hs hs' => ?_
    obtain ⟨hfresh, rfl⟩ := supplyAbsent_ok hs'
    refine hother ?_ hs
    rintro rfl
    exact hfresh (Finmap.mem_of_lookup_eq_some hs)
  | absent hmem =>
    have hnil : sortedUnique [] = [] := Finset.sort_empty _
    refine foldlM_ok_of_mem (P := fun s => s.values.lookup name = some (sortedUnique [])) habsent hmem
      ?_ fun other _ s s' hs hs' => ?_
    · intro s s' hs'
      obtain ⟨-, rfl⟩ := supplyAbsent_ok hs'
      rw [hnil]
      exact Finmap.lookup_insert _
    · obtain ⟨hfresh, rfl⟩ := supplyAbsent_ok hs'
      refine hother ?_ hs
      rintro rfl
      exact hfresh (Finmap.mem_of_lookup_eq_some hs)

theorem parseScope_present (h : parseScope snap q = .ok sc) :
    sc.present = true ↔ ∃ name, name ∈ sc.values := by
  obtain ⟨axes, haxes, habsent⟩ := passed_iff.mp h
  have hsupply : ∀ (s : Scope) (name : Text) (set : List Text),
      (s.supply name set).present = true ↔ ∃ name', name' ∈ (s.supply name set).values := by
    intro s name set
    exact iff_of_true rfl ⟨name, Finmap.mem_insert.mpr (Or.inl rfl)⟩
  have hmiddle : axes.present = true ↔ ∃ name, name ∈ axes.values := by
    refine foldlM_ok_induction (P := fun s => s.present = true ↔ ∃ name, name ∈ s.values) haxes ?_ ?_
    · simp [Finmap.notMem_empty]
    · intro entry _ s s' hs hs'
      rcases supplyAxis_ok hs' with ⟨-, rfl⟩ | ⟨name, -, rfl⟩
      · exact hs
      · exact hsupply s name _
  refine foldlM_ok_induction (P := fun s => s.present = true ↔ ∃ name, name ∈ s.values) habsent
    hmiddle fun name _ s s' _ hs' => ?_
  obtain ⟨-, rfl⟩ := supplyAbsent_ok hs'
  exact hsupply s name []

theorem lookup_of_extends (h : parseScope snap q = .ok sc) (h' : parseScope snap q' = .ok sc')
    (hmore : q'.Extends q) (hvalues : sc.values.lookup name = some values) :
    sc'.values.lookup name = some values := by
  obtain ⟨-, raw, hsupplied, -⟩ := (parseScope_from h).supplied name values hvalues
  obtain ⟨raw', hsupplied', hsets⟩ := hmore name raw hsupplied
  rw [parseScope_supplied h' hsupplied', ← hvalues, parseScope_supplied h hsupplied, sortedUnique,
    sortedUnique, hsets]

theorem present_of_extends (h : parseScope snap q = .ok sc) (h' : parseScope snap q' = .ok sc')
    (hmore : q'.Extends q) (hpresent : sc.present = true) : sc'.present = true := by
  obtain ⟨name, hname⟩ := (parseScope_present h).mp hpresent
  obtain ⟨values, hvalues⟩ := Finmap.mem_iff.mp hname
  exact (parseScope_present h').mpr
    ⟨name, Finmap.mem_of_lookup_eq_some (lookup_of_extends h h' hmore hvalues)⟩

theorem forTarget_extends {target : Target} {question question' : Scope}
    (heffective : sc'.effective = sc.effective)
    (hextends : ∀ name values, sc.values.lookup name = some values →
      sc'.values.lookup name = some values)
    (h : sc.forTarget target = .ok question) (h' : sc'.forTarget target = .ok question')
    (hvalues : question.values.lookup name = some values) :
    question'.values.lookup name = some values := by
  rw [forTarget_lookup h] at hvalues
  rw [forTarget_lookup h']
  by_cases hcapture : name ∈ target.block.captures
  · rw [if_pos hcapture] at hvalues ⊢
    unfold Scope.narrowed at hvalues ⊢
    rw [heffective]
    by_cases hundecided : name ∈ target.undecided
    · rw [if_pos hundecided] at hvalues ⊢
      split_ifs at hvalues ⊢
      exact hextends name values hvalues
    · rw [if_neg hundecided] at hvalues ⊢
      cases hproduced : target.captures.lookup name with
      | some value => simpa [hproduced] using hvalues
      | none =>
        simp only [hproduced] at hvalues ⊢
        split_ifs at hvalues ⊢
        · exact hextends name values hvalues
        · exact hvalues
  · rw [if_neg hcapture] at hvalues ⊢
    exact hextends name values hvalues

end Supplies

section States

/-- The second scope says of a key what the first does, and more at most. -/
structure Sharper (block : Block) (sc sc' : Scope) (k : Text) : Prop where
  known : (sc.lookup block k).known = true → sc'.lookup block k = sc.lookup block k
  valued : (sc.lookup block k).nonEmpty = true → (sc'.lookup block k).known = true →
    (sc'.lookup block k).values.length = 1
  present : (sc.lookup block k).nonEmpty = true → (sc'.lookup block k).known = false →
    (sc'.lookup block k).nonEmpty = true

variable {block : Block} {sc sc' : Scope} {rule : Rule} {p : Predicate} {axis : Text} {i : ℕ}

theorem presenceState_cases {nonEmpty : Bool} (h : presenceState p nonEmpty ≠ .undecided) :
    nonEmpty = true ∧ ((p.operator = .exist ∧ presenceState p nonEmpty = .satisfied) ∨
      p.operator = .doesNotExist ∧ presenceState p nonEmpty = .failed) := by
  unfold presenceState at h ⊢
  split_ifs at h ⊢ with hempty
  · exact absurd rfl h
  · refine ⟨by simpa using hempty, ?_⟩
    cases hop : p.operator with
    | exist => exact Or.inl ⟨rfl, rfl⟩
    | doesNotExist => exact Or.inr ⟨rfl, rfl⟩
    | _ => simp [hop] at h

theorem conditionState_of_sharper (h : Sharper block sc sc' p.key)
    (hdecided : conditionState block p sc ≠ .undecided) :
    conditionState block p sc' = conditionState block p sc := by
  unfold conditionState at hdecided ⊢
  dsimp only at hdecided ⊢
  by_cases hknown : (sc.lookup block p.key).known = true
  · rw [h.known hknown]
  · rw [if_neg hknown] at hdecided ⊢
    obtain ⟨hpresent, hcases⟩ := presenceState_cases hdecided
    by_cases hknown' : (sc'.lookup block p.key).known = true
    · have hone := h.valued hpresent hknown'
      rw [if_pos hknown']
      rcases hcases with ⟨hop, hstate⟩ | ⟨hop, hstate⟩
      · rw [hstate]
        simp [setState, hop, hone, boolState]
      · rw [hstate]
        simp [setState, hop, hone, boolState]
    · rw [if_neg hknown', h.present hpresent (by simpa using hknown'), hpresent]

theorem axisSure_of_sharper (h : Sharper block sc sc' axis) (hsure : AxisSure block sc axis) :
    AxisSure block sc' axis := by
  unfold AxisSure at hsure ⊢
  by_cases hknown : (sc.lookup block axis).known = true
  · rw [h.known hknown]
    exact hsure
  · rw [if_neg hknown] at hsure
    by_cases hknown' : (sc'.lookup block axis).known = true
    · rw [if_pos hknown']
      exact h.valued hsure hknown'
    · rw [if_neg hknown']
      exact h.present hsure (by simpa using hknown')

theorem assured_of_sharper (h : rule.Reads (Sharper block sc sc')) (hassured : Assured block sc rule) :
    Assured block sc' rule := by
  refine ⟨fun p hp => ?_, fun axis haxis => ?_⟩
  · have hstate := hassured.1 p hp
    rw [conditionState_of_sharper (h.predicates p hp) (by simp [hstate]), hstate]
  · exact axisSure_of_sharper (h.counters axis haxis) (hassured.2 axis haxis)

theorem refuted_of_sharper (h : rule.Reads (Sharper block sc sc')) (hrefuted : Refuted block sc rule) :
    Refuted block sc' rule := by
  rcases hrefuted with ⟨p, hp, hstate⟩ | ⟨axis, haxis, hknown, hlength⟩
  · left
    refine ⟨p, hp, ?_⟩
    rw [conditionState_of_sharper (h.predicates p hp) (by simp [hstate]), hstate]
  · right
    refine ⟨axis, haxis, ?_⟩
    rw [(h.counters axis haxis).known hknown]
    exact ⟨hknown, hlength⟩

/-- What is decided of a rule and of those that could preempt it stays decided. -/
theorem preempt_of_sharper (h : ∀ r ∈ block.rules, r.Reads (Sharper block sc sc'))
    (hrule : rule ∈ block.rules) (hdecided : (preempt block sc i rule).1 ≠ .conditional) :
    (preempt block sc' i rule).1 = (preempt block sc i rule).1 := by
  cases hstate : (preempt block sc i rule).1 with
  | conditional => exact absurd hstate hdecided
  | always =>
    obtain ⟨hassured, hothers⟩ := preempt_eq_always_iff.mp hstate
    refine preempt_eq_always_iff.mpr ⟨assured_of_sharper (h rule hrule) hassured, fun other ho => ?_⟩
    exact refuted_of_sharper (h other (mem_of_mem_preemptors ho)) (hothers other ho)
  | never =>
    refine preempt_eq_never_iff.mpr ?_
    rcases preempt_eq_never_iff.mp hstate with hrefuted | ⟨other, ho, hassured⟩
    · exact Or.inl (refuted_of_sharper (h rule hrule) hrefuted)
    · exact Or.inr ⟨other, ho, assured_of_sharper (h other (mem_of_mem_preemptors ho)) hassured⟩

end States

section Keys

variable {block : Block} {ctx : BlockCtx} {question question' : Scope} {k : Text}

/-- What the block alone says of a key does not change, and what the second scope adds
is right about a request. -/
theorem sharper_of_fits (hentered : Entered block ctx) (hne : k ≠ [])
    (hextends : ∀ values, question.values.lookup k = some values →
      question'.values.lookup k = some values)
    (hfits : ScopeFits block question' ctx k) : Sharper block question question' k := by
  cases hvalues : question.values.lookup k with
  | some values =>
    have heq : question'.lookup block k = question.lookup block k := by
      simp [Scope.lookup, hvalues, hextends values hvalues]
    have hnone : (question.lookup block k).nonEmpty = false := by simp [Scope.lookup, hvalues]
    exact ⟨fun _ => heq, by simp [hnone], by simp [hnone]⟩
  | none =>
    have hunknown : (question.lookup block k).known = false := by
      simp only [Scope.lookup, hvalues]
      split_ifs <;> rfl
    -- a key that is sure to have a value has one in the request
    have hone : (question.lookup block k).nonEmpty = true → (ctx.valueOf k).length = 1 := by
      simp only [Scope.lookup, hvalues]
      split_ifs with hbuiltin
      · exact fun _ => length_valueOf_builtin (by simpa using hbuiltin)
      · exact fun hevery => length_valueOf_captured (hentered.produced k hne hevery)
    refine ⟨by simp [hunknown], fun hpresent hknown' => ?_, fun hpresent hunknown' => ?_⟩
    · rw [← (hfits.known hknown').length_eq]
      exact hone hpresent
    · cases hvalues' : question'.values.lookup k with
      | some values => simp [Scope.lookup, hvalues'] at hunknown'
      | none =>
        simp only [Scope.lookup, hvalues] at hpresent
        simp only [Scope.lookup, hvalues']
        exact hpresent

end Keys

section Listings

/-- The second listing has the rules of the first at their places, and keeps what the
first decides about those of the given blocks. -/
def KeepsDecided (reached : Text → Prop) (view view' : RuleSetView) : Prop :=
  List.Forall₂ (fun bv bv' : BlockView => bv'.block = bv.block ∧
    List.Forall₂ (fun rv rv' : RuleView => rv'.block = rv.block ∧ rv'.rule = rv.rule ∧
      (reached rv.block → rv.applicability = some .always ∨ rv.applicability = some .never →
        rv'.applicability = rv.applicability)) bv.rules bv'.rules) view.blocks view'.blocks

theorem listBlock_rules {sc : Scope} {path : Text} {target : Target} {bv : BlockView}
    (h : listBlock sc path target = .ok bv) :
    bv.block = target.block.name ∧ ∃ note : Rule × ℕ → Option Applicability × List ApplicabilityGate,
      bv.rules = target.block.rules.zipIdx.map (fun x =>
        { Ruleview.rule target.block.name x.1 with
          applicability := (note x).1, conditionalOn := (note x).2 }) ∧
      ((sc.present = false ∧ ∀ x, (note x).1 = none) ∨
        sc.present = true ∧ ∃ question, questionFor sc path target = .ok question ∧
          ∀ x, (note x).1 = some (preempt target.block question x.2 x.1).1) := by
  unfold listBlock at h
  split_ifs at h with hpresent
  · obtain rfl := Except.ok.inj h
    exact ⟨rfl, fun _ => (none, []), block_rules _, Or.inl ⟨hpresent, fun _ => rfl⟩⟩
  · obtain ⟨question, hquestion, h⟩ := passed_iff.mp h
    obtain rfl := Except.ok.inj h
    exact ⟨rfl, fun x => (some (preempt target.block question x.2 x.1).1,
      (preempt target.block question x.2 x.1).2), annotate_rules _ _,
      Or.inr ⟨by simpa using hpresent, question, hquestion, fun _ => rfl⟩⟩

/-- More identity only sharpens applicability: of two accepted queries about one path, the second with
everything the first supplies, a rule that the first annotates `always` or `never` has the same note
in the second, in every block that some request of the second reaches. -/
theorem applicability_sharpens (std : Stdlib) (namespaceName domain version : Text)
    (p : Option Model.Policy) (q q' : Query) (view view' : RuleSetView)
    (hview : handleRules std (compile namespaceName domain p).1 version q = .ok view)
    (hview' : handleRules std (compile namespaceName domain p).1 version q' = .ok view')
    (hpath : q.get "path" ≠ []) (hsame : q'.get "path" = q.get "path")
    (hmethod : q'.get "method" = q.get "method") (hmore : q'.Extends q) :
    KeepsDecided (fun block => ∃ a : Arrival, a.Asked q' ∧
      a.Completes (compile namespaceName domain p).1 q' block) view view' := by
  obtain ⟨scope, hsound⟩ := compile_sound namespaceName domain p
  have hresolved := compile_resolved namespaceName domain p
  generalize (compile namespaceName domain p).1 = snap at *
  obtain ⟨sc, hsc, hblocks⟩ := handleRules_blocks hview
  obtain ⟨sc', hsc', hblocks'⟩ := handleRules_blocks hview'
  have heffective : sc'.effective = sc.effective :=
    (parseScope_from hsc').effective_eq.trans (parseScope_from hsc).effective_eq.symm
  rw [hsame, hmethod] at hblocks'
  refine forall₂_of_common (forall₂_of_mapM hblocks) (forall₂_of_mapM hblocks') ?_
  intro target htarget bv bv' hbv hbv'
  obtain ⟨hname, note, hrules, hnote⟩ := listBlock_rules hbv
  obtain ⟨hname', note', hrules', hnote'⟩ := listBlock_rules hbv'
  refine ⟨hname'.trans hname.symm, ?_⟩
  rw [hrules, hrules', List.forall₂_map_left_iff, List.forall₂_map_right_iff, List.forall₂_same]
  rintro ⟨r, i⟩ hr
  refine ⟨rfl, rfl, ?_⟩
  rintro ⟨a, hasked, hit, hhit, hblockname, hagrees⟩ hdecided
  dsimp only at hdecided hblockname ⊢
  rcases hnote with ⟨-, hnone⟩ | ⟨hpresent, question, hquestion, hsome⟩
  · simp [hnone] at hdecided
  have hpresent' := present_of_extends hsc hsc' hmore hpresent
  rcases hnote' with ⟨habsent, -⟩ | ⟨-, question', hquestion', hsome'⟩
  · rw [hpresent'] at habsent
    cases habsent
  rw [questionFor, if_neg hpath] at hquestion hquestion'
  rw [hsome] at hdecided
  rw [hsome, hsome', Option.some.injEq]
  -- the request that reaches the block vouches for what the second query adds
  have htarget' : target ∈ selectTargets snap (q'.get "path") (q'.get "method") := by
    rwa [hsame, hmethod]
  obtain ⟨hblock, hsettled⟩ :=
    selectTargets_sound hsound.names_nodup htarget' (hsame ▸ hpath) hasked hhit hblockname
  obtain ⟨hmem, hentered⟩ := entered_of_hit hresolved hhit
  rw [hblock] at hmem hentered hagrees
  have hkeys := hresolved.blocks target.block hmem
  have hsharper : ∀ k, k ∈ snap.effectiveKeys ∨ k ∈ target.block.captures →
      Sharper target.block question question' k := by
    intro k hk
    have hne := key_ne_nil hresolved hmem hk
    refine sharper_of_fits hentered hne (fun values hvalues => ?_) ?_
    · exact forTarget_extends heffective (fun _ _ => lookup_of_extends hsc hsc' hmore) hquestion
        hquestion' hvalues
    · exact fits_forTarget (parseScope_from hsc') hagrees hentered hkeys rfl hsettled hquestion'
        hne hk
  refine preempt_of_sharper (fun r hr => ?_) ?_ ?_
  · have hreads := hkeys.rules r hr
    exact ⟨fun p hp => hsharper _ (hreads.predicates p hp),
      fun axis haxis => hsharper _ (hreads.counters axis haxis)⟩
  · exact List.mem_of_getElem? (List.mem_zipIdx_iff_getElem?.mp hr)
  · rcases hdecided with halways | hnever
    · simp [Option.some.inj halways]
    · simp [Option.some.inj hnever]

def subQuery : Query :=
  (((∅ : Query).insert (ascii "path") [ascii "/plans/silver/items"]).insert (ascii "method")
    [ascii "GET"]).insert (ascii "axis.sub") [ascii "dave"]

theorem plansQuery_extends : plansQuery.Extends subQuery := by
  have hnone : subQuery.lookup (ascii "axis.plan") = none := by decide +kernel
  have hkept : ∀ parameter raw, subQuery.lookup parameter = some raw →
      plansQuery.lookup parameter = some raw := by
    intro parameter raw hlookup
    have hne : parameter ≠ ascii "axis.plan" := by
      rintro rfl
      rw [hnone] at hlookup
      cases hlookup
    exact (Finmap.lookup_insert_of_ne _ hne).trans hlookup
  rintro name raw hsupplied
  cases hsupplied with
  | axis hne hlookup => exact ⟨raw, .axis hne (hkept _ _ hlookup), rfl⟩
  | absent hmem =>
    have habsent : subQuery.absent = [] := by decide +kernel
    rw [habsent] at hmem
    cases hmem

theorem subQuery_lists :
    lists (handleRules sampleStdlib (compileShop plansPolicy).1 (ascii "v1") subQuery)
      (fun rv => rv.applicability = some .always) = true := by
  rw [plansSnapshot_eq, handleRules, checkQueryNames, parseScope, entries, sort_eq_sortedBy]
  decide +kernel

theorem applicability_sharpens_plans :
    ∃ view view' bv rv,
      handleRules sampleStdlib (compileShop plansPolicy).1 (ascii "v1") subQuery = .ok view ∧
      handleRules sampleStdlib (compileShop plansPolicy).1 (ascii "v1") plansQuery = .ok view' ∧
      bv ∈ view.blocks ∧ rv ∈ bv.rules ∧ rv.applicability = some .always ∧
      KeepsDecided (fun block => ∃ a : Arrival, a.Asked plansQuery ∧
        a.Completes (compileShop plansPolicy).1 plansQuery block) view view' := by
  obtain ⟨view, bv, rv, hview, hbv, hrv, htest⟩ := exists_of_lists subQuery_lists
  obtain ⟨view', -, -, hview', -⟩ := exists_of_lists plansQuery_lists
  refine ⟨view, view', bv, rv, hview, hview', hbv, hrv, of_decide_eq_true htest, ?_⟩
  exact applicability_sharpens sampleStdlib (ascii "prod") (ascii "shop") (ascii "v1")
    (some plansPolicy) subQuery plansQuery view view' hview hview' (by decide +kernel)
    (by decide +kernel) (by decide +kernel) plansQuery_extends

end Listings

end Ratelimit.Management
