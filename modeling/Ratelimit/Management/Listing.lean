import Ratelimit.Management.Evaluation
import Ratelimit.Management.Handlers
import Ratelimit.Management.Narrowing
import Ratelimit.Match.AnyMethod

/-!
# The listing of the rules that guard a path

A request completes the partial identity of a query where its value sets agree with the
supplied ones. What a listing with a path says of a rule is right for every such request.
-/
namespace Ratelimit.Management

open Library Compile Match Ruleview

section Requests

/-- The identity values of a request, sets over the declared keys, agree with what the
query supplies, as one block sees them. -/
structure Agrees (snap : Snapshot) (q : Query) (block : Block) (ctx : BlockCtx) : Prop where
  declared : ∀ k ∈ ctx.keys, k ∈ snap.effectiveKeys
  nodup : ∀ k, ((ctx.keys.lookup k).getD []).Nodup
  scalar : ∀ k, k ∉ listValuedKeys snap → ((ctx.keys.lookup k).getD []).length ≤ 1
  request : ∀ name raw, q.Supplies name raw → name ∈ [Model.keyPath, Model.keyMethod] →
    (ctx.valueOf name).toFinset = raw.toFinset
  identity : ∀ name raw, q.Supplies name raw → name ∈ snap.effectiveKeys →
    name ∉ [Model.keyPath, Model.keyMethod] →
      ((ctx.keys.lookup name).getD []).toFinset = raw.toFinset
  captured : ∀ name raw, q.Supplies name raw → name ∉ snap.effectiveKeys →
    name ∈ block.captures → (ctx.captures.lookup name).toList.toFinset = raw.toFinset

structure Arrival where
  path : Text
  method : Text
  keys : Keys
  cost : ℤ

namespace Arrival

def Applies (snap : Snapshot) (a : Arrival) (block rule : Text) : Prop :=
  ∃ m ∈ (candidates snap a.path a.method).evaluate a.keys a.cost, m.block = block ∧ m.rule = rule

def Completes (snap : Snapshot) (q : Query) (a : Arrival) (block : Text) : Prop :=
  ∃ hit ∈ (candidates snap a.path a.method).hits, hit.block.name = block ∧
    Agrees snap q hit.block (hit.ctx a.method a.keys a.cost)

def Asked (q : Query) (a : Arrival) : Prop :=
  (Strings.cut a.path (byte '?')).1 = (Strings.cut (q.get "path") (byte '?')).1 ∧
    (q.get "method" ≠ [] → a.method = q.get "method")

end Arrival

/-- What the listing says of a rule is right for the requests: `always` names a rule that
each of them has, and `never` one that none of them has. -/
structure SoundAmong (snap : Snapshot) (rule : RuleView) (arrivals : Set Arrival) : Prop where
  always : rule.applicability = some .always →
    ∀ a ∈ arrivals, a.Applies snap rule.block rule.rule
  never : rule.applicability = some .never →
    ∀ a ∈ arrivals, ¬ a.Applies snap rule.block rule.rule

variable {snap : Snapshot}

/-- The result of a request has a rule of a block exactly where the block applies it:
no two blocks share a name. -/
theorem applies_iff (hnames : (snap.blocks.map Block.name).Nodup) {a : Arrival} {hit : Hit}
    (hhit : hit ∈ (candidates snap a.path a.method).hits) (rule : Text) :
    a.Applies snap hit.block.name rule ↔
      ∃ m ∈ evalBlock hit.block (hit.ctx a.method a.keys a.cost), m.rule = rule := by
  have hblock : ∀ b ctx, ∀ m ∈ evalBlock b ctx, m.block = b.name := by
    intro b ctx m hm
    rw [evalBlock_eq] at hm
    obtain ⟨r, -, rfl⟩ := List.mem_map.mp hm
    rfl
  have hmethod : (candidates snap a.path a.method).method = a.method := rfl
  unfold Arrival.Applies Candidates.evaluate
  rw [hmethod]
  constructor
  · rintro ⟨m, hm, hname, hrule⟩
    obtain ⟨other, hother, hm⟩ := List.mem_flatMap.mp hm
    rw [hblock _ _ m hm] at hname
    obtain ⟨b, hb, hhitOf⟩ := mem_hits_iff.mp hhit
    obtain ⟨b', hb', hotherOf⟩ := mem_hits_iff.mp hother
    rw [(hitOf_some hhitOf).1, (hitOf_some hotherOf).1] at hname
    obtain rfl := List.inj_on_of_nodup_map hnames hb' hb hname
    obtain rfl := Option.some.inj (hhitOf.symm.trans hotherOf)
    exact ⟨m, hm, hrule⟩
  · rintro ⟨m, hm, hrule⟩
    exact ⟨m, List.mem_flatMap.mpr ⟨hit, hhit, hm⟩, hblock _ _ m hm, hrule⟩

end Requests

section Views

variable {snap : Snapshot} {q : Query} {block : Block} {ctx : BlockCtx} {sc : Scope} {k : Text}

/-- The captures of a request that reached the block. -/
structure Entered (block : Block) (ctx : BlockCtx) : Prop where
  mem_captures : ∀ k ∈ ctx.captures, k ∈ block.captures
  produced : ∀ k ≠ [], capturedByEveryRoute block k = true → k ∈ ctx.captures

theorem entered_of_matchTarget {declared : Text → Prop} (hblock : block.Resolved declared)
    {path method : Text} {m : Option Route × Text × Captures}
    (hm : matchTarget block path method = some m) (hctx : ctx.captures = m.2.2) :
    Entered block ctx := by
  obtain ⟨hmem, hproduced⟩ := matchTarget_captures hblock hm
  rw [← hctx] at hmem hproduced
  refine ⟨hmem, fun k hne hevery => ?_⟩
  simp only [capturedByEveryRoute, Bool.and_eq_true, decide_eq_true_eq, List.all_eq_true,
    List.any_eq_true] at hevery
  exact hproduced k hne hevery.1 hevery.2

theorem length_valueOf_captured (hk : k ∈ ctx.captures) : (ctx.valueOf k).length = 1 := by
  by_cases hbuiltin : k ∈ [Model.keyPath, Model.keyMethod]
  · exact length_valueOf_builtin hbuiltin
  · obtain ⟨v, hv⟩ := Finmap.mem_iff.mp hk
    rw [valueOf_eq hbuiltin, hv]
    rfl

/-- A scope fits where its value sets are those of the request. -/
theorem fits_of_perm
    (hcaptured : sc.values.lookup k = none → capturedByEveryRoute block k = true → k ∈ ctx.captures)
    (h : ∀ values, sc.values.lookup k = some values → (ctx.valueOf k).Perm values) :
    ScopeFits block sc ctx k := by
  cases hvalues : sc.values.lookup k with
  | some values =>
    constructor
    · simpa [Scope.lookup, hvalues] using h values hvalues
    · simp [Scope.lookup, hvalues]
  | none =>
    constructor
    · simp only [Scope.lookup, hvalues]
      split_ifs <;> simp
    · simp only [Scope.lookup, hvalues]
      split_ifs with hbuiltin
      · exact fun _ => length_valueOf_builtin (by simpa using hbuiltin)
      · exact fun hevery => length_valueOf_captured (hcaptured hvalues hevery)

section Supplied

variable {values : List Text} (hsc : sc.From snap q) (hagrees : Agrees snap q block ctx)
include hsc hagrees

theorem perm_request (hk : k ∈ [Model.keyPath, Model.keyMethod])
    (hvalues : sc.values.lookup k = some values) : (ctx.valueOf k).Perm values := by
  obtain ⟨hnodup, raw, hraw, heq⟩ := hsc.supplied k values hvalues
  have hsets := (hagrees.request k raw hraw hk).trans heq.symm
  refine List.perm_of_nodup_nodup_toFinset_eq ?_ hnodup hsets
  have hlength : (ctx.valueOf k).length = 1 := length_valueOf_builtin hk
  obtain ⟨v, hv⟩ := List.length_eq_one_iff.mp hlength
  rw [hv]
  exact List.nodup_singleton v

theorem perm_identity (hk : k ∉ [Model.keyPath, Model.keyMethod]) (heffective : k ∈ sc.effective)
    (hvalues : sc.values.lookup k = some values) : ((ctx.keys.lookup k).getD []).Perm values := by
  obtain ⟨hnodup, raw, hraw, heq⟩ := hsc.supplied k values hvalues
  refine List.perm_of_nodup_nodup_toFinset_eq (hagrees.nodup k) hnodup ?_
  exact (hagrees.identity k raw hraw (hsc.effective_eq ▸ heffective) hk).trans heq.symm

theorem perm_captured (hcapture : k ∈ block.captures) (heffective : k ∉ sc.effective)
    (hvalues : sc.values.lookup k = some values) :
    (ctx.captures.lookup k).toList.Perm values := by
  obtain ⟨hnodup, raw, hraw, heq⟩ := hsc.supplied k values hvalues
  refine List.perm_of_nodup_nodup_toFinset_eq ?_ hnodup ?_
  · cases ctx.captures.lookup k <;> simp
  · exact (hagrees.captured k raw hraw (hsc.effective_eq ▸ heffective) hcapture).trans heq.symm

theorem valueOf_undeclared (hk : k ∉ [Model.keyPath, Model.keyMethod])
    (heffective : k ∉ sc.effective) : ctx.valueOf k = (ctx.captures.lookup k).toList := by
  have hkeys : ctx.keys.lookup k = none :=
    Finmap.lookup_eq_none.mpr fun hmem => heffective (hsc.effective_eq ▸ hagrees.declared k hmem)
  rw [valueOf_eq hk, hkeys]
  cases ctx.captures.lookup k <;> rfl

end Supplied

theorem fits_forTarget (hsc : sc.From snap q) (hagrees : Agrees snap q block ctx)
    (hentered : Entered block ctx) (hblock : block.Resolved (· ∈ snap.effectiveKeys))
    {target : Target} (htarget : target.block = block)
    (hsettled : ∀ name ∈ block.captures, name ∉ target.undecided →
      ctx.captures.lookup name = target.captures.lookup name)
    {question : Scope} (hquestion : sc.forTarget target = .ok question) (hne : k ≠ [])
    (hk : k ∈ snap.effectiveKeys ∨ k ∈ block.captures) : ScopeFits block question ctx k := by
  refine fits_of_perm (fun _ => hentered.produced k hne) fun values hvalues => ?_
  rw [forTarget_lookup hquestion, htarget] at hvalues
  by_cases hcapture : k ∈ block.captures
  · have hbuiltin := (hblock.capture_ne hcapture).2
    rw [if_pos hcapture, Scope.narrowed] at hvalues
    by_cases heffective : k ∈ sc.effective
    · -- the identity's value applies where the route is known to produce none
      by_cases hundecided : k ∈ target.undecided
      · simp [hundecided, heffective] at hvalues
      · rw [if_neg hundecided, ← hsettled k hcapture hundecided] at hvalues
        rw [valueOf_eq hbuiltin]
        cases hproduced : ctx.captures.lookup k with
        | some value =>
          obtain rfl : [value] = values := by simpa [hproduced] using hvalues
          exact List.Perm.refl _
        | none =>
          have hidentity : sc.values.lookup k = some values := by
            simpa [hproduced, heffective] using hvalues
          exact perm_identity hsc hagrees hbuiltin heffective hidentity
    · -- the caller speaks of the capture alone
      rw [valueOf_undeclared hsc hagrees hbuiltin heffective]
      by_cases hundecided : k ∈ target.undecided
      · have hsupplied : sc.values.lookup k = some values := by
          simpa [hundecided, heffective] using hvalues
        exact perm_captured hsc hagrees hcapture heffective hsupplied
      · rw [if_neg hundecided, ← hsettled k hcapture hundecided] at hvalues
        cases hproduced : ctx.captures.lookup k with
        | some value =>
          obtain rfl : [value] = values := by simpa [hproduced] using hvalues
          exact List.Perm.refl _
        | none =>
          obtain rfl : [] = values := by simpa [hproduced, heffective] using hvalues
          exact List.Perm.refl _
  · rw [if_neg hcapture] at hvalues
    have heffective : k ∈ sc.effective := hsc.effective_eq ▸ hk.resolve_right hcapture
    by_cases hbuiltin : k ∈ [Model.keyPath, Model.keyMethod]
    · exact perm_request hsc hagrees hbuiltin hvalues
    · have hfree : ctx.captures.lookup k = none :=
        Finmap.lookup_eq_none.mpr fun hmem => hcapture (hentered.mem_captures k hmem)
      rw [valueOf_eq hbuiltin, hfree]
      exact perm_identity hsc hagrees hbuiltin heffective hvalues

end Views

section Handler

variable {std : Stdlib} {snap : Snapshot} {version : Text} {q : Query} {view : RuleSetView}

theorem handleRules_blocks (h : handleRules std snap version q = .ok view) :
    ∃ sc, parseScope snap q = .ok sc ∧
      (selectTargets snap (q.get "path") (q.get "method")).mapM (listBlock sc (q.get "path")) =
        .ok view.blocks := by
  unfold handleRules at h
  obtain ⟨-, -, h⟩ := passed_iff.mp h
  dsimp only at h
  split_ifs at h
  obtain ⟨sc, hsc, h⟩ := passed_iff.mp h
  split at h
  · cases h
  · obtain ⟨blocks, hblocks, h⟩ := passed_iff.mp h
    obtain rfl := Except.ok.inj h
    exact ⟨sc, hsc, hblocks⟩

theorem listBlock_ok {sc : Scope} {path : Text} {target : Target} {bv : BlockView}
    (h : listBlock sc path target = .ok bv) :
    (sc.present = false ∧ bv = Ruleview.block target.block) ∨
      ∃ question, questionFor sc path target = .ok question ∧
        bv = annotate target.block (Ruleview.block target.block) question := by
  unfold listBlock at h
  split_ifs at h with hpresent
  · exact Or.inl ⟨hpresent, (Except.ok.inj h).symm⟩
  · obtain ⟨question, hquestion, h⟩ := passed_iff.mp h
    exact Or.inr ⟨question, hquestion, (Except.ok.inj h).symm⟩

/-- An annotated rule of a rendered block, by its place in the block. -/
structure Annotated (block : Block) (question : Scope) (i : ℕ) (r : Rule) (rv : RuleView) :
    Prop where
  at_index : block.rules[i]? = some r
  block_eq : rv.block = block.name
  rule_eq : rv.rule = r.name
  mode_eq : rv.mode = mode r.behavior
  applicability_eq : rv.applicability = some (preempt block question i r).1

theorem block_rules (block : Block) : (Ruleview.block block).rules =
    block.rules.zipIdx.map fun x => Ruleview.rule block.name x.1 := by
  have hfst : block.rules.zipIdx.map Prod.fst = block.rules := List.zipIdx_map_fst _ _
  conv_lhs => rw [Ruleview.block, ← hfst]
  rw [List.map_map]
  rfl

theorem annotate_rules (block : Block) (sc : Scope) :
    (annotate block (Ruleview.block block) sc).rules = block.rules.zipIdx.map fun x =>
      { Ruleview.rule block.name x.1 with
        applicability := some (preempt block sc x.2 x.1).1
        conditionalOn := (preempt block sc x.2 x.1).2 } := by
  have hzip : (block.rules.zipIdx.map fun x => Ruleview.rule block.name x.1).zip
      (block.rules.zipIdx.map id) =
      block.rules.zipIdx.map fun x => (Ruleview.rule block.name x.1, id x) := List.zip_map'
  rw [List.map_id] at hzip
  dsimp only [annotate]
  rw [block_rules, hzip, List.map_map]
  rfl

theorem annotated_of_mem {block : Block} {question : Scope} {rv : RuleView}
    (h : rv ∈ (annotate block (Ruleview.block block) question).rules) :
    ∃ i r, Annotated block question i r rv := by
  rw [annotate_rules] at h
  obtain ⟨⟨r, i⟩, hx, rfl⟩ := List.mem_map.mp h
  exact ⟨i, r, List.mem_zipIdx_iff_getElem?.mp hx, rfl, rfl, rfl, rfl⟩

/-- Every rule of a listing is rendered alone, or annotated for the question of its
block. -/
theorem listed_cases (h : handleRules std snap version q = .ok view) {bv : BlockView}
    (hbv : bv ∈ view.blocks) {rv : RuleView} (hrv : rv ∈ bv.rules) :
    (∃ sc, parseScope snap q = .ok sc ∧ sc.present = false ∧ rv.applicability = none) ∨
    ∃ sc target question i r, parseScope snap q = .ok sc ∧
      target ∈ selectTargets snap (q.get "path") (q.get "method") ∧
      questionFor sc (q.get "path") target = .ok question ∧
      Annotated target.block question i r rv := by
  obtain ⟨sc, hsc, hblocks⟩ := handleRules_blocks h
  obtain ⟨target, htarget, hlisted⟩ := exists_of_mem_right (forall₂_of_mapM hblocks) hbv
  rcases listBlock_ok hlisted with ⟨hpresent, rfl⟩ | ⟨question, hquestion, rfl⟩
  · obtain ⟨r, -, rfl⟩ := List.mem_map.mp hrv
    exact Or.inl ⟨sc, hsc, hpresent, rfl⟩
  · obtain ⟨i, r, hannotated⟩ := annotated_of_mem hrv
    exact Or.inr ⟨sc, target, question, i, r, hsc, htarget, hquestion, hannotated⟩

/-- A target selected for a path stands for the requests for it that reach its block. -/
theorem selectTargets_sound (hnames : (snap.blocks.map Block.name).Nodup) {target : Target}
    (htarget : target ∈ selectTargets snap (q.get "path") (q.get "method"))
    (hpath : q.get "path" ≠ []) {a : Arrival} (hasked : a.Asked q) {hit : Hit}
    (hhit : hit ∈ (candidates snap a.path a.method).hits)
    (hname : hit.block.name = target.block.name) :
    hit.block = target.block ∧ ∀ name ∈ target.block.captures, name ∉ target.undecided →
      hit.captures.lookup name = target.captures.lookup name := by
  obtain ⟨b, hb, hhitOf⟩ := mem_hits_iff.mp hhit
  obtain ⟨hblock, m, hm, hcaptures⟩ := hitOf_some hhitOf
  rw [hasked.1] at hm
  rw [hblock] at hname
  rw [hblock, hcaptures]
  unfold selectTargets at htarget
  rw [if_neg hpath] at htarget
  split_ifs at htarget with hmethod
  · obtain ⟨b', hb', hselected⟩ := List.mem_filterMap.mp htarget
    rw [(targetByPath_spec hselected).1] at hname ⊢
    obtain rfl := List.inj_on_of_nodup_map hnames hb hb' hname
    exact ⟨rfl, (targetByPath_sound hselected hm).2⟩
  · obtain ⟨other, hother, rfl⟩ := List.mem_map.mp htarget
    obtain ⟨b', hb', hotherOf⟩ := mem_hits_iff.mp hother
    obtain ⟨hother, m', hm', hcaptures'⟩ := hitOf_some hotherOf
    dsimp only at hname ⊢
    rw [hother] at hname ⊢
    obtain rfl := List.inj_on_of_nodup_map hnames hb hb' hname
    rw [hasked.2 hmethod] at hm
    obtain rfl := Option.some.inj (hm.symm.trans hm')
    exact ⟨rfl, fun name _ _ => by rw [hcaptures']⟩

theorem key_ne_nil (hresolved : snap.Resolved) {block : Block} (hblock : block ∈ snap.blocks)
    {k : Text} (hk : k ∈ snap.effectiveKeys ∨ k ∈ block.captures) : k ≠ [] := by
  rintro rfl
  rcases hk with hk | hk
  · exact hresolved.named block hblock hk
  · exact ((hresolved.blocks block hblock).capture_ne hk).1 rfl

/-- The annotation of a rule is right for a request where the scope fits the keys that the rule
and those that may preempt it read. -/
theorem preempt_sound_of_fits {scope : Key.Scope} (hsound : snap.Sound scope)
    (hresolved : snap.Resolved) {block : Block} (hblock : block ∈ snap.blocks) {sc : Scope}
    {ctx : BlockCtx} {i : ℕ} {r : Rule} (hi : block.rules[i]? = some r)
    (hcounts : r.behavior ≠ .bypass)
    (hfits : ∀ other ∈ r :: preemptors block i r, other.Reads fun k =>
      k ≠ [] → k ∈ snap.effectiveKeys ∨ k ∈ block.captures → ScopeFits block sc ctx k) :
    ((preempt block sc i r).1 = .always → ∃ m ∈ evalBlock block ctx, m.rule = r.name) ∧
      ((preempt block sc i r).1 = .never → ¬ ∃ m ∈ evalBlock block ctx, m.rule = r.name) := by
  have hkeys := hresolved.blocks block hblock
  refine preempt_sound (hsound.blocks block hblock).names_nodup hkeys.replaced hi hcounts ?_
  intro other hother
  have hmem : other ∈ block.rules := by
    rcases List.mem_cons.mp hother with rfl | hpreempts
    · exact List.mem_of_getElem? hi
    · exact mem_of_mem_preemptors hpreempts
  have hreads := hkeys.rules other hmem
  constructor
  · intro p hp
    have hkey := hreads.predicates p hp
    exact (hfits other hother).predicates p hp (key_ne_nil hresolved hblock hkey) hkey
  · intro axis haxis
    have hkey := hreads.counters axis haxis
    exact (hfits other hother).counters axis haxis (key_ne_nil hresolved hblock hkey) hkey

theorem Annotated.counts {block : Block} {question : Scope} {i : ℕ} {r : Rule} {rv : RuleView}
    (h : Annotated block question i r rv) (hmode : rv.mode ≠ .bypass) : r.behavior ≠ .bypass := by
  rw [h.mode_eq] at hmode
  exact fun hbypass => hmode (mode_eq_bypass_iff.mpr hbypass)

theorem Annotated.soundAmong_iff {block : Block} {question : Scope} {i : ℕ} {r : Rule}
    {rv : RuleView} (h : Annotated block question i r rv) {arrivals : Set Arrival} :
    SoundAmong snap rv arrivals ↔ ∀ a ∈ arrivals,
      ((preempt block question i r).1 = .always → a.Applies snap block.name r.name) ∧
        ((preempt block question i r).1 = .never → ¬ a.Applies snap block.name r.name) := by
  have hnote : ∀ x, rv.applicability = some x ↔ (preempt block question i r).1 = x := fun x => by
    rw [h.applicability_eq, Option.some.injEq]
  simp only [← h.block_eq, ← h.rule_eq, ← hnote]
  exact ⟨fun hs a ha => ⟨fun he => hs.always he a ha, fun he => hs.never he a ha⟩,
    fun hs => ⟨fun he a ha => (hs a ha).1 he, fun he a ha => (hs a ha).2 he⟩⟩

theorem entered_of_hit (hresolved : snap.Resolved) {a : Arrival} {hit : Hit}
    (hhit : hit ∈ (candidates snap a.path a.method).hits) :
    hit.block ∈ snap.blocks ∧ Entered hit.block (hit.ctx a.method a.keys a.cost) := by
  obtain ⟨b, hb, hhitOf⟩ := mem_hits_iff.mp hhit
  obtain ⟨rfl, m, hm, hcaptures⟩ := hitOf_some hhitOf
  exact ⟨hb, entered_of_matchTarget (hresolved.blocks _ hb) hm hcaptures⟩

end Handler

/-- Applicability answers for a path are sound: a rule annotated `always` is in the result of every
request for that path that reaches the block with an identity that agrees with the query, and one
annotated `never` in the result of none. -/
theorem applicability_sound_of_path (std : Stdlib) (namespaceName domain version : Text)
    (p : Option Model.Policy) (q : Query) (view : RuleSetView)
    (hview : handleRules std (compile namespaceName domain p).1 version q = .ok view)
    (hpath : q.get "path" ≠ []) (bv : BlockView) (hbv : bv ∈ view.blocks) (rv : RuleView)
    (hrv : rv ∈ bv.rules) (hmode : rv.mode ≠ .bypass) :
    SoundAmong (compile namespaceName domain p).1 rv
      {a | a.Asked q ∧ a.Completes (compile namespaceName domain p).1 q rv.block} := by
  obtain ⟨scope, hsound⟩ := compile_sound namespaceName domain p
  have hresolved := compile_resolved namespaceName domain p
  generalize (compile namespaceName domain p).1 = snap at *
  rcases listed_cases hview hbv hrv with ⟨-, -, -, hnone⟩ | ⟨sc, target, question, i, r, hsc,
    htarget, hquestion, hannotated⟩
  · exact ⟨by simp [hnone], by simp [hnone]⟩
  rw [questionFor, if_neg hpath] at hquestion
  rw [hannotated.soundAmong_iff]
  rintro a ⟨hasked, hit, hhit, hname, hagrees⟩
  rw [hannotated.block_eq] at hname
  obtain ⟨hblock, hsettled⟩ :=
    selectTargets_sound hsound.names_nodup htarget hpath hasked hhit hname
  obtain ⟨hmem, hentered⟩ := entered_of_hit hresolved hhit
  have happlies := applies_iff hsound.names_nodup hhit r.name
  rw [hblock] at hmem hentered hagrees happlies
  rw [happlies]
  have hfits : ∀ k, k ≠ [] → k ∈ snap.effectiveKeys ∨ k ∈ target.block.captures →
      ScopeFits target.block question (hit.ctx a.method a.keys a.cost) k := fun k hne hk =>
    fits_forTarget (parseScope_from hsc) hagrees hentered (hresolved.blocks _ hmem) rfl hsettled
      hquestion hne hk
  exact preempt_sound_of_fits hsound hresolved hmem hannotated.at_index (hannotated.counts hmode)
    fun other _ => ⟨fun p _ => hfits p.key, fun axis _ => hfits axis⟩

section Sample

/-- A cascade whose template captures under the name of a mapped key. -/
def plansPolicy : Model.Policy :=
  { domain := ascii "shop"
    mappings := [{ key := ascii "plan", claim := ascii "plan" }]
    blocks := [
      { name := ascii "plan-ops"
        routes := [
          ⟨⟨.pathPrefix, ascii "/plans"⟩, [ascii "POST"], none⟩,
          ⟨⟨.template, ascii "/plans/\x7bplan\x7d/items"⟩, [], none⟩]
        mode := .firstMatch
        rules := [
          { name := ascii "silver-only"
            predicates := [⟨ascii "plan", .equals, ascii "silver", []⟩]
            counters := [ascii "sub"], rates := [⟨10, 60 * Algo.second, 0, []⟩] },
          { name := ascii "per-client", counters := [ascii "sub"]
            rates := [⟨50, 60 * Algo.second, 0, []⟩] }] }] }

theorem blocking_plansPolicy : blocking (compileShop plansPolicy).2 = false := by
  decide +kernel

def plansSnapshot : Snapshot :=
  { (compileShop plansPolicy).1 with
    effectiveKeys := [ascii "method", ascii "path", ascii "plan", ascii "sub"] }

theorem plansSnapshot_eq :
    (compileShop plansPolicy).1 = plansSnapshot := by
  have hkeys : (compileShop plansPolicy).1.effectiveKeys =
      [ascii "method", ascii "path", ascii "plan", ascii "sub"] := by
    rw [compile_effectiveKeys blocking_plansPolicy, Environment.effectiveKeys, sort_eq_sortedBy]
    decide +kernel
  rw [plansSnapshot, ← hkeys]

def plansQuery : Query :=
  ((((∅ : Query).insert (ascii "path") [ascii "/plans/silver/items"]).insert (ascii "method")
    [ascii "GET"]).insert (ascii "axis.sub") [ascii "dave"]).insert (ascii "axis.plan")
      [ascii "gold"]

def lists (listing : Except ApiError RuleSetView) (test : RuleView → Bool) : Bool :=
  match listing with
  | .error _ => false
  | .ok view => view.blocks.any fun bv => bv.rules.any test

theorem exists_of_lists {listing : Except ApiError RuleSetView} {test : RuleView → Bool}
    (h : lists listing test = true) :
    ∃ view bv rv, listing = .ok view ∧ bv ∈ view.blocks ∧ rv ∈ bv.rules ∧ test rv = true := by
  cases listing with
  | error e => simp [lists] at h
  | ok view =>
    obtain ⟨bv, hbv, hrules⟩ := List.any_eq_true.mp h
    obtain ⟨rv, hrv, htest⟩ := List.any_eq_true.mp hrules
    exact ⟨view, bv, rv, rfl, hbv, hrv, htest⟩

theorem plansQuery_lists :
    lists (handleRules sampleStdlib (compileShop plansPolicy).1 (ascii "v1") plansQuery)
      (fun rv => rv.applicability = some .always && rv.mode ≠ .bypass) = true := by
  rw [plansSnapshot_eq, handleRules, checkQueryNames, parseScope, entries, sort_eq_sortedBy]
  decide +kernel

theorem applicability_sound_of_path_plans :
    ∃ view bv rv,
      handleRules sampleStdlib (compileShop plansPolicy).1 (ascii "v1") plansQuery = .ok view ∧
      bv ∈ view.blocks ∧ rv ∈ bv.rules ∧ rv.applicability = some .always ∧
      SoundAmong (compileShop plansPolicy).1 rv
        {a | a.Asked plansQuery ∧ a.Completes (compileShop plansPolicy).1 plansQuery rv.block} := by
  obtain ⟨view, bv, rv, hview, hbv, hrv, htest⟩ := exists_of_lists plansQuery_lists
  simp only [Bool.and_eq_true, decide_eq_true_eq] at htest
  refine ⟨view, bv, rv, hview, hbv, hrv, htest.1, ?_⟩
  exact applicability_sound_of_path sampleStdlib (ascii "prod") (ascii "shop") (ascii "v1")
    (some plansPolicy) plansQuery view hview (by decide +kernel) bv hbv rv hrv htest.2

end Sample

end Ratelimit.Management
