import Ratelimit.Operator.ConfigStore
import Ratelimit.Operator.FitNeed

/-!
# The last-good state over whole histories

Whatever the history of policies, reconciles and failed writes, what is persisted for a domain
compiles and was a generation of the object whose UID it carries, and a policy of which a
generation is persisted stays protected.
-/
namespace Ratelimit.Operator

open Api Library

/-- The policies of the namespace, every generation that there was of them, and the
stored configuration. -/
structure World where
  objects : List Object
  past : List Object
  stored : Option ConfigMap

def World.start : World := ⟨[], [], none⟩

/-- What the API server admits is what the codec can write and read again. -/
structure Admits (build : Build) (Admitted : Object → Prop) : Prop where
  specs : ∀ o, Admitted o → build.codec.ReadsSpec o.spec
  manifests : ∀ m : Manifest, m.formatVersion = formatVersion → m.operatorVersion = build.version →
    (∀ domain e, m.domains.lookup domain = some e → ∃ o, Admitted o ∧ o.spec.domain = domain ∧
      e = ⟨o.generation, o.uid, (build.codec.encodePayload o.spec).2⟩) →
    build.codec.ReadsManifest m

/-- A policy the API server admits, named after its domain. -/
structure Proper (Admitted : Object → Prop) (o : Object) : Prop where
  admitted : Admitted o
  named : o.WellNamed
  uid_ne : o.uid ≠ []

inductive Step (build : Build) (Admitted : Object → Prop) : World → World → Prop
  /-- A new object has a UID of its own, under whatever name. -/
  | create {w : World} (o : Object) (proper : Proper Admitted o)
      (new : ∀ p ∈ w.past, p.uid ≠ o.uid) (free : ∀ p ∈ w.objects, p.name ≠ o.name) :
      Step build Admitted w { w with objects := o :: w.objects, past := o :: w.past }
  | edit {w : World} (o o' : Object) (mem : o ∈ w.objects) (key : o'.key = o.key)
      (uid : o'.uid = o.uid) (grows : o.generation < o'.generation)
      (proper : Proper Admitted o') :
      Step build Admitted w
        { w with objects := o' :: w.objects.erase o, past := o' :: w.past }
  | delete {w : World} (o : Object) (mem : o ∈ w.objects) :
      Step build Admitted w { w with objects := w.objects.erase o }
  /-- The objects are listed in any order. -/
  | reconcile {w : World} (policies : List Object) (listed : policies.Perm w.objects)
      (answers : Answers) :
      Step build Admitted w { w with stored := (build.reconcile w.stored policies answers).2 }

abbrev Run (build : Build) (Admitted : Object → Prop) : World → World → Prop :=
  Relation.ReflTransGen (Step build Admitted)

def Build.held (build : Build) (w : World) (domain : Text) : Bundle :=
  persisted build.codec w.stored domain

/-- The bundle is a generation of the domain that there was, and compiles. -/
def Build.Generation (build : Build) (w : World) (domain : Text) (b : Bundle) : Prop :=
  Compiles build.namespaceName domain b.goodSpec ∧
    ∃ p ∈ w.past, p.spec.domain = domain ∧ b = p.latest

section Settling

variable {namespaceName : Text} {object : Object} {previous : Bundle}

theorem fallBack_bundle {outcome : Outcome} {snapshot : Compile.Snapshot}
    (hcompiles : previous.uid ≠ [] → Compiles namespaceName object.spec.domain previous.goodSpec) :
    (fallBack namespaceName object previous [] outcome snapshot).2.2 =
      (previous.good object.uid).getD .zero := by
  cases hgood : previous.good object.uid with
  | none => simp [fallBack, hgood]
  | some good =>
    obtain ⟨hne, hown, rfl⟩ := good_eq_some.mp hgood
    exact (fallBack_own hne hown (hcompiles hne)).bundle

end Settling

section Reconciling

variable {build : Build} {stored : Option ConfigMap} {policies : List Object} {o : Object}

theorem input_state (ho : o ∈ policies) :
    (build.input stored policies).state.get o.spec.domain =
      persisted build.codec stored o.spec.domain := by
  refine get_load ?_
  rw [domains, List.mem_insertionSort, List.mem_dedup]
  exact List.mem_map.mpr ⟨o, ho, rfl⟩

/-- What a reconcile settles for a policy: its latest generation, if that compiles and
fits, and otherwise what was persisted of it. -/
theorem result_settles (hdistinct : (policies.map Object.name).Nodup)
    (hnamed : ∀ o ∈ policies, o.WellNamed) (ho : o ∈ policies)
    (hcompiles : (persisted build.codec stored o.spec.domain).uid ≠ [] →
      Compiles build.namespaceName o.spec.domain
        (persisted build.codec stored o.spec.domain).goodSpec) :
    ∃ outcome, (build.result stored policies).policies.lookup o.key = some outcome ∧
      (build.result stored policies).state.lookup o.spec.domain =
        some (if Compiles build.namespaceName o.spec.domain o.spec ∧ outcome.tooLarge = false
          then o.latest
          else ((persisted build.codec stored o.spec.domain).good o.uid).getD .zero) := by
  have hinput : (build.input stored policies).Distinct := hdistinct
  have hgood : o.Good (build.input stored policies).namespaceName
      ((build.input stored policies).skew o.key) ↔
      Compiles build.namespaceName o.spec.domain o.spec :=
    ⟨fun h => h.2, fun h => ⟨rfl, h⟩⟩
  have hback : ∀ {outcome : Outcome} {snapshot : Compile.Snapshot},
      (fallBack build.namespaceName o ((build.input stored policies).state.get o.spec.domain) []
        outcome snapshot).2.2 =
      ((persisted build.codec stored o.spec.domain).good o.uid).getD .zero := by
    intro outcome snapshot
    rw [input_state ho]
    exact fallBack_bundle hcompiles
  obtain ⟨n, hfit, -⟩ := fit_run build.codec (build.input stored policies) build.limit
    (compile (build.input stored policies))
  rw [Build.result, compileAndFit, hfit]
  by_cases hmem : o.spec.domain ∈ (candidates build.codec (build.input stored policies)
      (compile (build.input stored policies)).state).take n
  · -- the domain was set back, so its latest generation compiles
    obtain ⟨outcome, houtcome, htoo⟩ :=
      (@tooLarge_iff build.codec _ build.limit n o hinput hnamed ho).mpr hmem
    obtain ⟨o', ho', hdomain, hgood', -⟩ := candidate_latest (List.mem_of_mem_take hmem)
    have hname : o'.name = o.name := by rw [hnamed o' ho', hnamed o ho, hdomain]
    rw [List.inj_on_of_nodup_map hdistinct ho' ho hname] at hgood'
    refine ⟨outcome, houtcome, ?_⟩
    rw [htoo, if_neg (by simp), setBackFirst,
      (foldl_setBack_mem hmem (claimant_of_distinct hinput hnamed ho)).1,
      ← setBackTo_eq ⟨"", []⟩, compileDomainFitting_over hgood']
    exact congrArg some hback
  · obtain ⟨hstate, -, hpolicies⟩ := @compile_mem (build.input stored policies) o hdistinct ho
      (hnamed o ho)
    refine ⟨_, (policies_of_setBackFirst hnamed ho hmem).trans hpolicies, ?_⟩
    rw [setBackFirst, (foldl_setBack_other hmem).1, hstate, settled_tooLarge]
    by_cases hlatest : Compiles build.namespaceName o.spec.domain o.spec
    · rw [if_pos ⟨hlatest, rfl⟩]
      exact congrArg some (compileDomainFitting_latest (hgood.mpr hlatest)).bundle
    · rw [if_neg fun h => hlatest h.1, Input.settled, compileDomain,
        compileDomainFitting_bad fun h => hlatest (hgood.mp h)]
      exact congrArg some hback

theorem result_state {domain : Text} {b : Bundle}
    (h : (build.result stored policies).state.lookup domain = some b) :
    ∃ o ∈ policies, o.spec.domain = domain := by
  obtain ⟨n, hfit, -⟩ := fit_run build.codec (build.input stored policies) build.limit
    (compile (build.input stored policies))
  rw [Build.result, compileAndFit, hfit] at h
  by_cases hmem : domain ∈ (candidates build.codec (build.input stored policies)
      (compile (build.input stored policies)).state).take n
  · exact candidates_claimed (fun d hd => List.mem_of_mem_take hd) domain hmem
  · rw [setBackFirst, (foldl_setBack_other hmem).1] at h
    obtain ⟨o, ho, -, hdomain, -⟩ := compile_state h
    exact ⟨o, ho, hdomain⟩

end Reconciling

section Histories

variable {build : Build} {Admitted : Object → Prop} {w w' : World} {uid domain : Text}

structure Invariant (build : Build) (Admitted : Object → Prop) (w : World) : Prop where
  names : (w.objects.map Object.name).Nodup
  uids : (w.objects.map Object.uid).Nodup
  proper : ∀ p ∈ w.past, Proper Admitted p
  live : ∀ o ∈ w.objects, o ∈ w.past
  stored : w.stored = none ∨ ∃ state, w.stored = some (configOf build.codec build.version state) ∧
    ∀ domain b, state.lookup domain = some b → b.uid ≠ [] → build.Generation w domain b

theorem Build.Generation.mono {domain : Text} {b : Bundle} (h : build.Generation w domain b)
    (hpast : ∀ p ∈ w.past, p ∈ w'.past) : build.Generation w' domain b := by
  obtain ⟨hcompiles, p, hp, hof⟩ := h
  exact ⟨hcompiles, p, hpast p hp, hof⟩

theorem Invariant.start : Invariant build Admitted .start :=
  ⟨List.nodup_nil, List.nodup_nil, nofun, nofun, Or.inl rfl⟩

/-- The object exists, and a generation of it is persisted. -/
structure Protected (build : Build) (w : World) (uid domain : Text) : Prop where
  exists_object : ∃ o ∈ w.objects, o.uid = uid ∧ o.spec.domain = domain
  held : (build.held w domain).uid = uid

structure Gone (w : World) (uid : Text) : Prop where
  was : ∃ p ∈ w.past, p.uid = uid
  not_live : ∀ o ∈ w.objects, o.uid ≠ uid

theorem Gone.step (h : Gone w uid) (hstep : Step build Admitted w w') : Gone w' uid := by
  obtain ⟨p, hp, hpuid⟩ := h.was
  cases hstep with
  | create o proper new free =>
    refine ⟨⟨p, List.mem_cons_of_mem _ hp, hpuid⟩, List.forall_mem_cons.mpr ⟨?_, h.not_live⟩⟩
    exact fun heq => new p hp (hpuid.trans heq.symm)
  | edit o o' mem key hsame grows proper =>
    refine ⟨⟨p, List.mem_cons_of_mem _ hp, hpuid⟩, List.forall_mem_cons.mpr ⟨?_, fun q hq => ?_⟩⟩
    · rw [hsame]
      exact h.not_live o mem
    · exact h.not_live q (List.mem_of_mem_erase hq)
  | delete o mem => exact ⟨h.was, fun q hq => h.not_live q (List.mem_of_mem_erase hq)⟩
  | reconcile policies listed answers => exact ⟨h.was, h.not_live⟩

section Kept

variable (hadmits : Admits build Admitted) (hinv : Invariant build Admitted w)

include hadmits hinv

theorem Invariant.readable {state : State}
    (hstate : ∀ domain b, state.lookup domain = some b → b.uid ≠ [] → build.Generation w domain b) :
    Readable build.codec build.version state := by
  refine ⟨hadmits.manifests _ rfl rfl fun domain e he => ?_, fun domain b hb huid => ?_⟩
  · have hentry : (state.lookup domain).bind (Bundle.entry build.codec) = some e :=
      (lookup_filterMapEntries _ _).symm.trans he
    obtain ⟨b, hb, hof⟩ := Option.bind_eq_some_iff.mp hentry
    unfold Bundle.entry at hof
    split_ifs at hof with huid
    obtain ⟨-, p, hp, hdomain, rfl⟩ := hstate domain b hb huid
    exact ⟨p, (hinv.proper p hp).admitted, hdomain, (Option.some.inj hof).symm⟩
  · obtain ⟨-, p, hp, -, rfl⟩ := hstate domain b hb huid
    exact hadmits.specs p (hinv.proper p hp).admitted

theorem Invariant.held (domain : Text) :
    build.held w domain = .zero ∨ build.Generation w domain (build.held w domain) := by
  unfold Build.held
  rcases hinv.stored with hnone | ⟨state, hstored, hstate⟩
  · rw [hnone]
    exact Or.inl rfl
  · rw [hstored, persisted_configOf (hinv.readable hadmits hstate)]
    cases hfound : (state.lookup domain).filter fun b => b.uid ≠ [] with
    | none => exact Or.inl rfl
    | some b =>
      obtain ⟨hb, huid⟩ := Option.filter_eq_some_iff.mp hfound
      exact Or.inr (hstate domain b hb (of_decide_eq_true huid))

theorem Invariant.compiles {domain : Text} (hne : (build.held w domain).uid ≠ []) :
    Compiles build.namespaceName domain (build.held w domain).goodSpec := by
  rcases hinv.held hadmits domain with hzero | hgeneration
  · rw [hzero] at hne
    exact absurd rfl hne
  · exact hgeneration.1

theorem Invariant.settles {policies : List Object} (hlisted : policies.Perm w.objects) {o : Object}
    (ho : o ∈ w.objects) :
    ∃ outcome, (build.result w.stored policies).policies.lookup o.key = some outcome ∧
      (build.result w.stored policies).state.lookup o.spec.domain =
        some (if Compiles build.namespaceName o.spec.domain o.spec ∧ outcome.tooLarge = false
          then o.latest else ((build.held w o.spec.domain).good o.uid).getD .zero) := by
  refine result_settles ((hlisted.map Object.name).nodup_iff.mpr hinv.names) (fun o ho => ?_)
    (hlisted.mem_iff.mpr ho) fun hne => hinv.compiles hadmits hne
  exact (hinv.proper o (hinv.live o (hlisted.mem_iff.mp ho))).named

theorem Invariant.own {policies : List Object} (hlisted : policies.Perm w.objects) {o : Object}
    (ho : o ∈ w.objects) :
    (build.result w.stored policies).state.get o.spec.domain = .zero ∨
      ((build.result w.stored policies).state.get o.spec.domain).uid = o.uid ∧
        build.Generation w o.spec.domain
          ((build.result w.stored policies).state.get o.spec.domain) := by
  obtain ⟨outcome, -, hstate⟩ := hinv.settles hadmits hlisted ho
  rw [State.get, hstate, Option.getD_some]
  split_ifs with hlatest
  · exact Or.inr ⟨rfl, hlatest.1, o, hinv.live o ho, rfl, rfl⟩
  · cases hgood : (build.held w o.spec.domain).good o.uid with
    | none => exact Or.inl rfl
    | some b =>
      obtain ⟨hne, hown, rfl⟩ := good_eq_some.mp hgood
      rcases hinv.held hadmits o.spec.domain with hzero | hgeneration
      · exact Or.inl hzero
      · exact Or.inr ⟨hown, hgeneration⟩

theorem Invariant.result {policies : List Object} (hlisted : policies.Perm w.objects)
    {domain : Text} {b : Bundle}
    (hb : (build.result w.stored policies).state.lookup domain = some b) (hne : b.uid ≠ []) :
    build.Generation w domain b := by
  obtain ⟨o, ho, rfl⟩ := result_state hb
  have hown := hinv.own hadmits hlisted (hlisted.mem_iff.mp ho)
  rw [State.get, hb, Option.getD_some] at hown
  rcases hown with rfl | ⟨-, hgeneration⟩
  · exact absurd rfl hne
  · exact hgeneration

theorem Invariant.step (hstep : Step build Admitted w w') : Invariant build Admitted w' := by
  -- the stored state stays what it was, of generations that are still in the past
  have hstored : ∀ {objects past : List Object}, (∀ p ∈ w.past, p ∈ past) →
      w.stored = none ∨ ∃ state, w.stored = some (configOf build.codec build.version state) ∧
        ∀ domain b, state.lookup domain = some b → b.uid ≠ [] →
          build.Generation ⟨objects, past, w.stored⟩ domain b := by
    intro objects past hpast
    refine hinv.stored.imp_right ?_
    rintro ⟨state, heq, hstate⟩
    exact ⟨state, heq, fun domain b hb hne => (hstate domain b hb hne).mono hpast⟩
  cases hstep with
  | create o proper new free =>
    refine ⟨List.nodup_cons.mpr ⟨fun hmem => ?_, hinv.names⟩,
      List.nodup_cons.mpr ⟨fun hmem => ?_, hinv.uids⟩, List.forall_mem_cons.mpr ⟨proper, hinv.proper⟩,
      fun p hp => ?_, hstored fun p hp => List.mem_cons_of_mem _ hp⟩
    · obtain ⟨p, hp, hname⟩ := List.mem_map.mp hmem
      exact free p hp hname
    · obtain ⟨p, hp, huid⟩ := List.mem_map.mp hmem
      exact new p (hinv.live p hp) huid
    · exact (List.mem_cons.mp hp).elim (fun heq => heq ▸ List.mem_cons_self)
        fun hp => List.mem_cons_of_mem _ (hinv.live p hp)
  | edit o o' mem key uid grows proper =>
    have hperm := List.perm_cons_erase mem
    refine ⟨?_, ?_, List.forall_mem_cons.mpr ⟨proper, hinv.proper⟩, fun p hp => ?_,
      hstored fun p hp => List.mem_cons_of_mem _ hp⟩
    · have hname : o'.name = o.name := congrArg ObjectKey.name key
      rw [List.map_cons, hname]
      exact (hperm.map Object.name).nodup_iff.mp hinv.names
    · rw [List.map_cons, uid]
      exact (hperm.map Object.uid).nodup_iff.mp hinv.uids
    · exact (List.mem_cons.mp hp).elim (fun heq => heq ▸ List.mem_cons_self)
        fun hp => List.mem_cons_of_mem _ (hinv.live p (List.mem_of_mem_erase hp))
  | delete o mem =>
    have hsub : (w.objects.erase o).Sublist w.objects := List.erase_sublist
    exact ⟨hinv.names.sublist (hsub.map Object.name), hinv.uids.sublist (hsub.map Object.uid),
      hinv.proper, fun p hp => hinv.live p (List.mem_of_mem_erase hp), hstored fun p hp => hp⟩
  | reconcile policies listed answers =>
    refine ⟨hinv.names, hinv.uids, hinv.proper, hinv.live, ?_⟩
    rcases @Build.reconcile_cases w.stored build policies answers with hkept | hwritten
    · rw [hkept]
      exact hstored fun p hp => hp
    · refine Or.inr ⟨_, hwritten, fun domain b hb hne => ?_⟩
      exact (hinv.result hadmits listed hb hne).mono fun p hp => hp

theorem Invariant.run (hrun : Run build Admitted w w') : Invariant build Admitted w' := by
  induction hrun with
  | refl => exact hinv
  | tail _ hstep ih => exact ih.step hadmits hstep

theorem Protected.result (h : Protected build w uid domain) {policies : List Object}
    (hlisted : policies.Perm w.objects) :
    ∃ b, (build.result w.stored policies).state.lookup domain = some b ∧ b.uid = uid ∧
      b.uid ≠ [] := by
  obtain ⟨o, ho, rfl, rfl⟩ := h.exists_object
  have hne : o.uid ≠ [] := (hinv.proper o (hinv.live o ho)).uid_ne
  obtain ⟨outcome, -, hstate⟩ := hinv.settles hadmits hlisted ho
  refine ⟨_, hstate, ?_⟩
  split_ifs with hlatest
  · exact ⟨rfl, hne⟩
  · have hgood : (build.held w o.spec.domain).good o.uid = some (build.held w o.spec.domain) :=
      good_eq_some.mpr ⟨h.held ▸ hne, h.held, rfl⟩
    rw [hgood]
    exact ⟨h.held, h.held ▸ hne⟩

theorem Protected.step (h : Protected build w uid domain) (hstep : Step build Admitted w w') :
    Protected build w' uid domain ∨ Gone w' uid := by
  obtain ⟨o, ho, huid, hdomain⟩ := h.exists_object
  cases hstep with
  | create o' proper new free =>
    exact Or.inl ⟨⟨o, List.mem_cons_of_mem _ ho, huid, hdomain⟩, h.held⟩
  | edit p p' mem key hsame grows proper =>
    refine Or.inl ⟨?_, h.held⟩
    by_cases heq : o = p
    · subst heq
      have hnamed : o.WellNamed := (hinv.proper o (hinv.live o ho)).named
      have hname : p'.name = o.name := congrArg ObjectKey.name key
      refine ⟨p', List.mem_cons_self, hsame.trans huid, ?_⟩
      rw [← hdomain, ← hnamed, ← proper.named, hname]
    · exact ⟨o, List.mem_cons_of_mem _ ((List.mem_erase_of_ne heq).mpr ho), huid, hdomain⟩
  | delete p mem =>
    by_cases heq : o = p
    · subst heq
      refine Or.inr ⟨⟨o, hinv.live o ho, huid⟩, fun q hq hquid => ?_⟩
      have hperm := List.perm_cons_erase mem
      have hnodup := (hperm.map Object.uid).nodup_iff.mp hinv.uids
      exact (List.nodup_cons.mp hnodup).1 (List.mem_map.mpr ⟨q, hq, hquid.trans huid.symm⟩)
    · exact Or.inl ⟨⟨o, (List.mem_erase_of_ne heq).mpr ho, huid, hdomain⟩, h.held⟩
  | reconcile policies listed answers =>
    refine Or.inl ⟨⟨o, ho, huid, hdomain⟩, ?_⟩
    rcases @Build.reconcile_cases w.stored build policies answers with hkept | hwritten
    · unfold Build.held
      rw [hkept]
      exact h.held
    · obtain ⟨b, hb, hbuid, hne⟩ := h.result hadmits hinv listed
      have hreadable := hinv.readable hadmits fun domain b => hinv.result hadmits listed
      unfold Build.held
      have hfilter : (some b).filter (fun b => decide (b.uid ≠ [])) = some b := by
        simp [Option.filter, hne]
      rw [hwritten, persisted_configOf hreadable, hb, hfilter]
      exact hbuid

theorem Protected.run (h : Protected build w uid domain) (hrun : Run build Admitted w w') :
    Protected build w' uid domain ∨ Gone w' uid := by
  induction hrun with
  | refl => exact Or.inl h
  | tail hbefore hstep ih =>
    rcases ih with hprotected | hgone
    · exact hprotected.step hadmits (hinv.run hadmits hbefore) hstep
    · exact Or.inr (hgone.step hstep)

end Kept

end Histories

/-- What the last-good state is for, at one point of a history. -/
structure LastGoodKept (build : Build) (Admitted : Object → Prop) (w : World) : Prop where
  /-- What is persisted compiles, and was a generation of the object it is of. -/
  persisted : ∀ domain, build.held w domain = .zero ∨
    build.Generation w domain (build.held w domain)
  /-- A reconcile enforces the latest generation of a policy, if that compiles and is not
  reported too large, and otherwise what was persisted of it. -/
  enforced : ∀ policies, policies.Perm w.objects → ∀ o ∈ w.objects, ∃ outcome,
    (build.result w.stored policies).policies.lookup o.key = some outcome ∧
      (build.result w.stored policies).state.get o.spec.domain =
        if Compiles build.namespaceName o.spec.domain o.spec ∧ outcome.tooLarge = false
        then o.latest else ((build.held w o.spec.domain).good o.uid).getD .zero
  /-- What it enforces is of the policy, not of another that had its name. -/
  own : ∀ policies, policies.Perm w.objects → ∀ o ∈ w.objects,
    (build.result w.stored policies).state.get o.spec.domain = .zero ∨
      ((build.result w.stored policies).state.get o.spec.domain).uid = o.uid ∧
        build.Generation w o.spec.domain
          ((build.result w.stored policies).state.get o.spec.domain)
  /-- A policy that has a generation persisted keeps one, whatever comes. -/
  kept : ∀ o ∈ w.objects, (build.held w o.spec.domain).uid = o.uid →
    ∀ w', Run build Admitted w w' → ∀ o' ∈ w'.objects, o'.uid = o.uid →
      (build.held w' o.spec.domain).uid = o.uid ∧ ∀ policies, policies.Perm w'.objects →
        ((build.result w'.stored policies).state.get o.spec.domain).uid = o.uid

/-- The last-good state survives any history. -/
theorem lastGood_kept {build : Build} {Admitted : Object → Prop} {w : World}
    (hadmits : Admits build Admitted) (hrun : Run build Admitted .start w) :
    LastGoodKept build Admitted w := by
  have hinv : Invariant build Admitted w := Invariant.start.run hadmits hrun
  refine ⟨hinv.held hadmits, fun policies hlisted o ho => ?_,
    fun policies hlisted o ho => hinv.own hadmits hlisted ho, ?_⟩
  · obtain ⟨outcome, houtcome, hstate⟩ := hinv.settles hadmits hlisted ho
    refine ⟨outcome, houtcome, ?_⟩
    rw [State.get, hstate, Option.getD_some]
  · intro o ho hheld w' hrun' o' ho' huid
    have hprotected : Protected build w o.uid o.spec.domain := ⟨⟨o, ho, rfl, rfl⟩, hheld⟩
    rcases hprotected.run hadmits hinv hrun' with hstill | hgone
    · refine ⟨hstill.held, fun policies hlisted => ?_⟩
      obtain ⟨b, hb, hbuid, -⟩ := hstill.result hadmits (hinv.run hadmits hrun') hlisted
      rw [State.get, hb]
      exact hbuid
    · exact absurd huid (hgone.not_live o' ho')

section Sample

def firstLimit : Object := limitObject (ascii "a") 1 40

def secondLimit : Object := limitObject (ascii "a") 2 45

def limitEntry (o : Object) : DomainEntry :=
  ⟨o.generation, o.uid, ((storedCodec knownLimits).encodePayload o.spec).2⟩

def limitManifests : List Manifest :=
  [⟨1, ascii "v1", ∅⟩, ⟨1, ascii "v1", Finmap.singleton (ascii "a") (limitEntry firstLimit)⟩,
    ⟨1, ascii "v1", Finmap.singleton (ascii "a") (limitEntry secondLimit)⟩]

def limitBuild : Build where
  codec := storedCodec { knownLimits with manifests := limitManifests }
  namespaceName := ascii "prod"
  version := ascii "v1"
  limit := 2 ^ 20

def LimitAdmitted (o : Object) : Prop := o = firstLimit ∨ o = secondLimit

theorem limitManifests_read : ∀ m ∈ limitManifests, limitBuild.codec.ReadsManifest m := by
  unfold Codec.ReadsManifest
  decide +kernel

theorem limitBuild_admits : Admits limitBuild LimitAdmitted := by
  constructor
  · rintro o (rfl | rfl)
    · unfold Codec.ReadsSpec
      decide +kernel
    · unfold Codec.ReadsSpec
      decide +kernel
  · intro m hformat hversion hentries
    refine limitManifests_read m ?_
    obtain ⟨format, version, domains⟩ := m
    obtain rfl : format = 1 := hformat
    obtain rfl : version = ascii "v1" := hversion
    have hdomain : ∀ domain, domain ≠ ascii "a" → domains.lookup domain = none := by
      intro domain hne
      by_contra hsome
      obtain ⟨e, he⟩ := Option.ne_none_iff_exists'.mp hsome
      obtain ⟨o, rfl | rfl, rfl, -⟩ := hentries domain e he
      · exact hne rfl
      · exact hne rfl
    have hsingleton : ∀ e, domains.lookup (ascii "a") = some e →
        domains = Finmap.singleton (ascii "a") e := by
      intro e he
      refine Finmap.ext_lookup fun domain => ?_
      by_cases hd : domain = ascii "a"
      · rw [hd, he, Finmap.lookup_singleton_eq]
      · rw [hdomain domain hd, Finmap.lookup_eq_none.mpr (by simpa using hd)]
    cases hlookup : domains.lookup (ascii "a") with
    | none =>
      have hempty : domains = ∅ := by
        refine Finmap.ext_lookup fun domain => ?_
        by_cases hd : domain = ascii "a"
        · rw [hd, hlookup, Finmap.lookup_empty]
        · rw [hdomain domain hd, Finmap.lookup_empty]
      rw [hempty]
      exact List.mem_cons_self
    | some e =>
      rw [hsingleton e hlookup]
      obtain ⟨o, rfl | rfl, -, rfl⟩ := hentries _ e hlookup
      · exact List.mem_cons_of_mem _ List.mem_cons_self
      · exact List.mem_cons_of_mem _ (List.mem_cons_of_mem _ List.mem_cons_self)

def writtenWorld : World where
  objects := [firstLimit]
  past := [firstLimit]
  stored := (limitBuild.reconcile none [firstLimit] ⟨none, none, .done⟩).2

def editedWorld : World :=
  { writtenWorld with objects := [secondLimit], past := [secondLimit, firstLimit] }

theorem writtenWorld_run : Run limitBuild LimitAdmitted .start writtenWorld := by
  have hcreate : Step limitBuild LimitAdmitted .start ⟨[firstLimit], [firstLimit], none⟩ :=
    Step.create firstLimit ⟨Or.inl rfl, by decide +kernel, by decide +kernel⟩ nofun nofun
  exact (Relation.ReflTransGen.single hcreate).tail
    (Step.reconcile [firstLimit] (List.Perm.refl _) ⟨none, none, .done⟩)

theorem editedWorld_run : Run limitBuild LimitAdmitted .start editedWorld := by
  have hedit := @Step.edit limitBuild LimitAdmitted writtenWorld firstLimit secondLimit
    List.mem_cons_self rfl rfl (by decide) ⟨Or.inr rfl, by decide +kernel, by decide +kernel⟩
  have herase : writtenWorld.objects.erase firstLimit = [] := List.erase_cons_head _ _
  rw [herase] at hedit
  exact writtenWorld_run.tail hedit

theorem lastGood_kept_edited :
    limitBuild.held editedWorld (ascii "a") = limitBundle (ascii "a") 1 40 ∧
      LastGoodKept limitBuild LimitAdmitted editedWorld :=
  ⟨by decide +kernel, lastGood_kept limitBuild_admits editedWorld_run⟩

end Sample

end Ratelimit.Operator
