import Ratelimit.Management.Listing

/-!
# A capture that shadows a supplied key

Without a path the annotations read a supplied identity key although a template of the block
captures under its name. They are right about a rule that reads no such key, as long as none that
may preempt it does.
-/
namespace Ratelimit.Management

open Library Compile Match Ruleview

section Unshadowed

/-- No template of the block captures under the name of a supplied identity key that the rule
reads, or one that may preempt it. -/
def Unshadowed (block : Block) (sc : Scope) (i : ℕ) (r : Rule) : Prop :=
  ∀ other ∈ r :: preemptors block i r,
    other.Reads fun k => k ∈ block.captures → k ∈ sc.values → k ∉ sc.effective

/-- The scope of the whole query fits a request that completes it, but for the keys that a
capture shadows. -/
theorem fits_of_unshadowed {snap : Snapshot} {q : Query} {block : Block} {ctx : BlockCtx}
    {sc : Scope} {k : Text} (hsc : sc.From snap q) (hagrees : Agrees snap q block ctx)
    (hentered : Entered block ctx) (hne : k ≠ []) (hk : k ∈ snap.effectiveKeys ∨ k ∈ block.captures)
    (hclear : k ∈ block.captures → k ∈ sc.values → k ∉ sc.effective) :
    ScopeFits block sc ctx k := by
  refine fits_of_perm (fun _ => hentered.produced k hne) fun values hvalues => ?_
  have hsupplied : k ∈ sc.values := Finmap.mem_iff.mpr ⟨values, hvalues⟩
  by_cases hbuiltin : k ∈ [Model.keyPath, Model.keyMethod]
  · exact perm_request hsc hagrees hbuiltin hvalues
  · by_cases heffective : k ∈ sc.effective
    · have hfree : ctx.captures.lookup k = none := Finmap.lookup_eq_none.mpr fun hmem =>
        hclear (hentered.mem_captures k hmem) hsupplied heffective
      rw [valueOf_eq hbuiltin, hfree]
      exact perm_identity hsc hagrees hbuiltin heffective hvalues
    · -- a name that only a capture has is supplied as the capture's
      have hcapture : k ∈ block.captures := hk.resolve_left (hsc.effective_eq ▸ heffective)
      rw [valueOf_undeclared hsc hagrees hbuiltin heffective]
      exact perm_captured hsc hagrees hcapture heffective hvalues

theorem listed_without_path {std : Stdlib} {snap : Snapshot} {version : Text} {q : Query}
    {view : RuleSetView} (hview : handleRules std snap version q = .ok view)
    (hpath : q.get "path" = []) {sc : Scope} (hsc : parseScope snap q = .ok sc)
    (hpresent : sc.present = true) {scope : Key.Scope} (hsound : snap.Sound scope) {bv : BlockView}
    (hbv : bv ∈ view.blocks) {rv : RuleView} (hrv : rv ∈ bv.rules) {block : Block}
    (hblock : block ∈ snap.blocks) (hname : rv.block = block.name) {i : ℕ} {r : Rule}
    (hi : block.rules[i]? = some r) (hrule : rv.rule = r.name) :
    Annotated block sc i r rv := by
  rcases listed_cases hview hbv hrv with ⟨sc', hsc', hnone, -⟩ | ⟨sc', target, question, i', r',
    hsc', htarget, hquestion, hannotated⟩
  · obtain rfl := Except.ok.inj (hsc.symm.trans hsc')
    simp [hpresent] at hnone
  · obtain rfl := Except.ok.inj (hsc.symm.trans hsc')
    rw [questionFor, if_pos hpath] at hquestion
    obtain rfl := Except.ok.inj hquestion
    rw [selectTargets, if_pos hpath] at htarget
    obtain ⟨b, hb, rfl⟩ := List.mem_map.mp htarget
    obtain rfl : b = block := List.inj_on_of_nodup_map hsound.names_nodup hb hblock
      (hannotated.block_eq.symm.trans hname)
    have hnodup := (hsound.blocks b hblock).names_nodup
    have hsame : (b.rules.map Rule.name)[i]? = (b.rules.map Rule.name)[i']? := by
      rw [List.getElem?_map, List.getElem?_map, hi, hannotated.at_index]
      simp only [Option.map_some, ← hrule, hannotated.rule_eq]
    have hlength : i < (b.rules.map Rule.name).length := by
      rw [List.length_map]
      exact (List.getElem?_eq_some_iff.mp hi).1
    obtain rfl : i = i' := (List.getElem?_inj hlength hnodup).mp hsame
    obtain rfl := Option.some.inj (hi.symm.trans hannotated.at_index)
    exact hannotated

end Unshadowed

/-- Applicability answers without a path: what a listing says of a rule is right for every request
that agrees with the query, where no template of the block captures under the name of a supplied
identity key that the rule or one that may preempt it reads. -/
theorem applicability_sound_of_unshadowed (std : Stdlib) (namespaceName domain version : Text)
    (p : Option Model.Policy) (q : Query) (view : RuleSetView)
    (hview : handleRules std (compile namespaceName domain p).1 version q = .ok view)
    (hpath : q.get "path" = []) (sc : Scope)
    (hsc : parseScope (compile namespaceName domain p).1 q = .ok sc) (hpresent : sc.present = true)
    (bv : BlockView) (hbv : bv ∈ view.blocks) (rv : RuleView) (hrv : rv ∈ bv.rules)
    (hmode : rv.mode ≠ .bypass) (block : Block)
    (hblock : block ∈ (compile namespaceName domain p).1.blocks) (hname : rv.block = block.name)
    (i : ℕ) (r : Rule) (hi : block.rules[i]? = some r) (hrule : rv.rule = r.name)
    (hclear : Unshadowed block sc i r) :
    SoundAmong (compile namespaceName domain p).1 rv
      {a | a.Completes (compile namespaceName domain p).1 q rv.block} := by
  obtain ⟨scope, hsound⟩ := compile_sound namespaceName domain p
  have hresolved := compile_resolved namespaceName domain p
  generalize (compile namespaceName domain p).1 = snap at *
  have hannotated := listed_without_path hview hpath hsc hpresent hsound hbv hrv hblock hname hi
    hrule
  rw [hannotated.soundAmong_iff]
  rintro a ⟨hit, hhit, hhitName, hagrees⟩
  obtain ⟨hmem, hentered⟩ := entered_of_hit hresolved hhit
  obtain rfl : hit.block = block :=
    List.inj_on_of_nodup_map hsound.names_nodup hmem hblock (hhitName.trans hname)
  rw [applies_iff hsound.names_nodup hhit]
  refine preempt_sound_of_fits hsound hresolved hblock hi (hannotated.counts hmode)
    fun other hother => ⟨fun p hp hne hk => ?_, fun axis haxis hne hk => ?_⟩
  · exact fits_of_unshadowed (parseScope_from hsc) hagrees hentered hne hk
      ((hclear other hother).predicates p hp)
  · exact fits_of_unshadowed (parseScope_from hsc) hagrees hentered hne hk
      ((hclear other hother).counters axis haxis)

section Sample

def nobodyQuery : Query := Finmap.singleton (ascii "absent") [ascii "sub"]

def goldQuery : Query := Finmap.singleton (ascii "axis.plan") [ascii "gold"]

/-- Through the template the plan of the request is not the one of its identity. -/
def silverArrival : Arrival :=
  { path := ascii "/plans/silver/items"
    method := ascii "GET"
    keys := ((∅ : Keys).insert (ascii "plan") [ascii "gold"]).insert (ascii "sub") [ascii "dave"]
    cost := 1 }

theorem applicability_sound_of_unshadowed_nobody :
    ∃ view bv rv,
      handleRules sampleStdlib (compileShop plansPolicy).1 (ascii "v1") nobodyQuery = .ok view ∧
      bv ∈ view.blocks ∧ rv ∈ bv.rules ∧ rv.applicability = some .never ∧
      SoundAmong (compileShop plansPolicy).1 rv
        {a | a.Completes (compileShop plansPolicy).1 nobodyQuery rv.block} := by
  have hlists :
      lists (handleRules sampleStdlib (compileShop plansPolicy).1 (ascii "v1") nobodyQuery)
        (fun rv => rv.mode ≠ .bypass && rv.applicability = some .never &&
          rv.block = ascii "plan-ops" && rv.rule = ascii "per-client") = true := by
    rw [plansSnapshot_eq]
    decide +kernel
  obtain ⟨view, bv, rv, hview, hbv, hrv, htest⟩ := exists_of_lists hlists
  simp only [Bool.and_eq_true, decide_eq_true_eq] at htest
  obtain ⟨⟨⟨hmode, hnever⟩, hblock⟩, hrule⟩ := htest
  obtain ⟨sc, hsc, -⟩ := handleRules_blocks hview
  have hblocks : (compileShop plansPolicy).1.blocks.any
      (fun b => b.name = ascii "plan-ops" && b.captures = [ascii "plan"] &&
        b.rules[1]?.map Rule.name = some (ascii "per-client")) = true := by
    decide +kernel
  obtain ⟨block, hmem, hfound⟩ := List.any_eq_true.mp hblocks
  simp only [Bool.and_eq_true, decide_eq_true_eq] at hfound
  obtain ⟨⟨hname, hcaptures⟩, hlast⟩ := hfound
  obtain ⟨r, hi, hr⟩ := Option.map_eq_some_iff.mp hlast
  have hvalues : sc.present = true ∧ sc.values.lookup (ascii "plan") = none := by
    have hparsed : (parseScope plansSnapshot nobodyQuery).toOption.map
        (fun sc => (sc.present, sc.values.lookup (ascii "plan"))) = some (true, none) := by
      decide +kernel
    rw [← plansSnapshot_eq, hsc] at hparsed
    exact Prod.mk.inj (Option.some.inj hparsed)
  refine ⟨view, bv, rv, hview, hbv, hrv, hnever, ?_⟩
  have hclear : ∀ k ∈ block.captures, k ∈ sc.values → k ∉ sc.effective := by
    intro k hk hsupplied
    obtain rfl : k = ascii "plan" := by simpa [hcaptures] using hk
    exact absurd hsupplied (Finmap.lookup_eq_none.mp hvalues.2)
  exact applicability_sound_of_unshadowed sampleStdlib (ascii "prod") (ascii "shop")
    (ascii "v1") (some plansPolicy) nobodyQuery view hview (by decide +kernel) sc hsc
    hvalues.1 bv hbv rv hrv hmode block hmem (hblock.trans hname.symm) 1 r hi
    (hrule.trans hr.symm) fun other _ => ⟨fun p _ => hclear p.key, fun axis _ => hclear axis⟩

theorem goldQuery_supplies {name : Text} {raw : List Text} (h : goldQuery.Supplies name raw) :
    name = ascii "plan" ∧ raw = [ascii "gold"] := by
  have hother : ∀ k, k ≠ ascii "axis.plan" → goldQuery.lookup k = none := fun k hk =>
    Finmap.lookup_eq_none.mpr fun hmem => hk (Finmap.mem_singleton _ _ _ |>.mp hmem)
  cases h with
  | axis hne hlookup =>
    have hkey : axisPrefix ++ name = axisPrefix ++ ascii "plan" := by
      by_contra hkey
      rw [hother _ hkey] at hlookup
      cases hlookup
    obtain rfl := List.append_cancel_left hkey
    exact ⟨rfl, (Option.some.inj hlookup).symm⟩
  | absent hmem =>
    rw [Query.absent, hother _ (by decide)] at hmem
    cases hmem

theorem silverArrival_lookup (k : Text) :
    (silverArrival.keys.lookup k).getD [] =
      if k = ascii "sub" then [ascii "dave"] else if k = ascii "plan" then [ascii "gold"]
      else [] := by
  unfold silverArrival
  split_ifs with hsub hplan
  · rw [hsub, Finmap.lookup_insert]
    rfl
  · rw [Finmap.lookup_insert_of_ne _ hsub, hplan, Finmap.lookup_insert]
    rfl
  · rw [Finmap.lookup_insert_of_ne _ hsub, Finmap.lookup_insert_of_ne _ hplan]
    rfl

theorem silverArrival_agrees (block : Block) (hit : Hit) :
    Agrees plansSnapshot goldQuery block
      (hit.ctx silverArrival.method silverArrival.keys silverArrival.cost) where
  declared := by
    intro k hk
    have hnames : k = ascii "sub" ∨ k = ascii "plan" := by
      simpa [Hit.ctx, silverArrival, Finmap.notMem_empty] using hk
    rcases hnames with rfl | rfl <;> decide +kernel
  nodup := by
    intro k
    simp only [Hit.ctx, silverArrival_lookup]
    split_ifs <;> simp
  scalar := by
    intro k _
    simp only [Hit.ctx, silverArrival_lookup]
    split_ifs <;> simp
  request := by
    intro name raw hraw hname
    rw [(goldQuery_supplies hraw).1] at hname
    exact absurd hname (by decide)
  identity := by
    intro name raw hraw _ _
    obtain ⟨rfl, rfl⟩ := goldQuery_supplies hraw
    simp only [Hit.ctx, silverArrival_lookup]
    rfl
  captured := by
    intro name raw hraw hname
    rw [(goldQuery_supplies hraw).1] at hname
    exact absurd hname (by decide +kernel)

theorem applicability_unsound_of_capture :
    ∃ view bv rv,
      handleRules sampleStdlib (compileShop plansPolicy).1 (ascii "v1") goldQuery = .ok view ∧
      bv ∈ view.blocks ∧ rv ∈ bv.rules ∧ rv.mode = .enforce ∧ rv.applicability = some .never ∧
      silverArrival.Completes (compileShop plansPolicy).1 goldQuery rv.block ∧
      silverArrival.Applies (compileShop plansPolicy).1 rv.block rv.rule := by
  have hlists :
      lists (handleRules sampleStdlib (compileShop plansPolicy).1 (ascii "v1") goldQuery)
        (fun rv => rv.mode = .enforce && rv.applicability = some .never &&
          rv.block = ascii "plan-ops" && rv.rule = ascii "silver-only") = true := by
    rw [plansSnapshot_eq]
    decide +kernel
  obtain ⟨view, bv, rv, hview, hbv, hrv, htest⟩ := exists_of_lists hlists
  simp only [Bool.and_eq_true, decide_eq_true_eq] at htest
  obtain ⟨⟨⟨hmode, hnever⟩, hblock⟩, hrule⟩ := htest
  refine ⟨view, bv, rv, hview, hbv, hrv, hmode, hnever, ?_, ?_⟩
  · rw [plansSnapshot_eq, hblock]
    have hreached : (candidates plansSnapshot silverArrival.path silverArrival.method).hits.any
        (fun hit => hit.block.name = ascii "plan-ops") = true := by
      decide +kernel
    obtain ⟨hit, hhit, hname⟩ := List.any_eq_true.mp hreached
    exact ⟨hit, hhit, of_decide_eq_true hname, silverArrival_agrees hit.block hit⟩
  · rw [plansSnapshot_eq, hblock, hrule]
    unfold Arrival.Applies
    decide +kernel

end Sample

end Ratelimit.Management
