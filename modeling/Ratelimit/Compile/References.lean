import Ratelimit.Compile.Accepted

/-!
# What the rules of an accepted snapshot refer to

A rule reads keys of the domain and captures of its own block, and nothing else.
The captures of a block are the placeholders of its template routes, and none of
them is one of the request keys.
-/
namespace Ratelimit.Compile

open Library

section Segments

variable {c : BlockCompiler} {b : Model.Block}

theorem capture_not_builtin {value : Text} {i : ℕ} {seen texts : List Text} {s : Segment}
    (hs : s ∈ (compileSegments c b value i seen texts).value) :
    s.capture ∉ [Model.keyPath, Model.keyMethod] := by
  have hliteral : ([] : Text) ∉ [Model.keyPath, Model.keyMethod] := by decide
  induction texts generalizing i seen with
  | nil => simp [compileSegments] at hs
  | cons t rest ih =>
    rw [compileSegments] at hs
    split_ifs at hs with hnil hlit hbrace hname hbuiltin hseen
    · exact ih hs
    · exact ih hs
    · rcases List.mem_cons.mp hs with rfl | hs
      · exact hliteral
      · exact ih hs
    · exact ih hs
    · exact ih hs
    · exact ih hs
    · rcases List.mem_cons.mp hs with rfl | hs
      · exact fun hm => hbuiltin (by simp only [List.mem_cons, List.not_mem_nil] at hm ⊢; tauto)
      · exact ih hs

/-- Only a template has segments, and they capture under no request key. -/
structure Route.Placed (r : Route) : Prop where
  template_of_mem : ∀ s ∈ r.segments, r.type = .template
  capture_ne : ∀ s ∈ r.segments, s.capture ∉ [Model.keyPath, Model.keyMethod]

theorem compileRoute_placed (r : Model.Route) : (compileRoute c b r).value.Placed := by
  have hpath : (compileRoute c b r).value.segments = (compilePath c b r.path).value := rfl
  have htype : (compileRoute c b r).value.type = r.path.type := rfl
  constructor
  · intro s hs
    rw [hpath] at hs
    rw [htype]
    cases ht : r.path.type with
    | template => rfl
    | _ => simp [compilePath, ht] at hs
  · intro s hs
    rw [hpath] at hs
    cases ht : r.path.type with
    | template =>
      simp only [compilePath, ht] at hs
      exact capture_not_builtin hs
    | _ => simp [compilePath, ht] at hs

end Segments

section Rules

variable {c : BlockCompiler} {b : Model.Block} {r : Model.Rule} {keys : BlockKeys}

theorem compilePredicate_key {p : Model.Predicate}
    (hacc : Accepted (compilePredicate c b r keys p)) : p.key ∈ keys := by
  unfold compilePredicate at hacc
  split_ifs at hacc with hbuiltin
  · simp at hacc
  · cases hkey : keys.lookup p.key with
    | none => simp [hkey] at hacc
    | some isArray => exact Finmap.mem_of_lookup_eq_some hkey

theorem each_accepted {α : Type} {f : α → Checked Unit} {xs : List α}
    (hacc : Accepted (Logged.each f xs)) : ∀ x ∈ xs, Accepted (f x) := by
  induction xs with
  | nil => simp
  | cons x xs ih =>
    obtain ⟨hx, hxs⟩ := accepted_bind_iff.mp hacc
    exact List.forall_mem_cons.mpr ⟨hx, ih hxs⟩

theorem compileCounters_keys (hacc : Accepted (compileCounters b r keys)) :
    ∀ axis ∈ r.counters, axis ∈ keys := by
  intro axis haxis
  have hvisit := each_accepted hacc axis haxis
  cases hkey : keys.lookup axis with
  | none => simp [hkey] at hvisit
  | some isArray => exact Finmap.mem_of_lookup_eq_some hkey

/-- Every key that the rule reads is among the given ones. -/
structure Rule.Reads (r : Rule) (known : Text → Prop) : Prop where
  predicates : ∀ p ∈ r.predicates, known p.key
  counters : ∀ axis ∈ r.counters, known axis

theorem compileRule_reads (hacc : Accepted (compileRule c b keys r)) :
    (compileRule c b keys r).value.Reads (· ∈ keys) := by
  simp only [compileRule, accepted_bind_iff] at hacc
  obtain ⟨-, -, hpredicates, hcounters, -⟩ := hacc
  refine ⟨?_, compileCounters_keys hcounters⟩
  have hpaired : List.Forall₂ (fun p out => out.key = p.key ∧ p.key ∈ keys) r.predicates
      (Logged.collect (compilePredicate c b r keys) r.predicates).value := by
    refine Logged.forall₂_collect hpredicates fun p _ hp => ?_
    obtain ⟨out, hout, hof⟩ := compilePredicate_accepted hp
    exact ⟨out, hout, hof.key_eq, compilePredicate_key hp⟩
  intro out hout
  obtain ⟨p, -, heq, hmem⟩ := exists_of_mem_right hpaired hout
  exact heq ▸ hmem

theorem mem_blockKeys {keys : BlockKeys} {captures : List Text} {k : Text} :
    k ∈ blockKeys keys captures ↔ k ∈ keys ∨ k ∈ captures := by
  unfold blockKeys
  induction captures generalizing keys with
  | nil => simp
  | cons name captures ih =>
    rw [List.foldl_cons, ih, Finmap.mem_insert, List.mem_cons]
    tauto

theorem checkReplacedRules_accepted {mode : Model.Mode} {names : List Text}
    (hacc : Accepted (checkReplacedRules b mode names)) :
    ∀ r ∈ b.rules, r.name ∉ r.replacedRules := by
  intro r hr hself
  have hvisit := each_accepted hacc r hr
  split_ifs at hvisit with hnone hmode
  · exact absurd hnone (List.ne_nil_of_mem hself)
  · simp at hvisit
  · have htarget := each_accepted hvisit r.name hself
    exact not_of_accepted_reportIf htarget rfl (Or.inr rfl)

end Rules

section Block

variable {c : BlockCompiler} {b : Model.Block}

/-- The captures of a block are those of its routes, its rules read keys of the domain or captures. -/
structure Block.Resolved (declared : Text → Prop) (b : Block) : Prop where
  routes : ∀ r ∈ b.routes, r.Placed
  mem_captures : ∀ name, name ∈ b.captures ↔ ∃ r ∈ b.routes, name ∈ r.captureNames
  rules : ∀ r ∈ b.rules, r.Reads fun k => declared k ∨ k ∈ b.captures
  replaced : ∀ r ∈ b.rules, r.name ∉ r.replacedRules

theorem Block.Resolved.capture_ne {declared : Text → Prop} {b : Block} (h : b.Resolved declared)
    {k : Text} (hk : k ∈ b.captures) : k ≠ [] ∧ k ∉ [Model.keyPath, Model.keyMethod] := by
  obtain ⟨r, hr, hname⟩ := (h.mem_captures k).mp hk
  obtain ⟨hsegment, hne⟩ := List.mem_filter.mp hname
  obtain ⟨s, hs, rfl⟩ := List.mem_map.mp hsegment
  exact ⟨of_decide_eq_true hne, (h.routes r hr).capture_ne s hs⟩

theorem compileBlock_resolved (hacc : Accepted (compileBlock c b)) :
    (compileBlock c b).value.Resolved (· ∈ c.env.keys) := by
  simp only [compileBlock, accepted_bind_iff] at hacc
  obtain ⟨-, hroutes, -, hrules, hreplaced, -⟩ := hacc
  obtain ⟨-, heq⟩ := nodup_of_accepted_collectDistinct hrules fun _ => rfl
  rw [heq] at hrules
  have hwalk : List.Forall₂ (fun r out => out.name = r.name ∧ out.replacedRules = r.replacedRules ∧
      out.Reads (· ∈ blockKeys c.env.keys (compileRoutes c b).value.2)) b.rules
      (compileBlock c b).value.rules := by
    simp only [compileBlock, Logged.value_bind, Logged.value_pure, heq]
    refine Logged.forall₂_collect hrules fun r _ hr => ⟨_, rfl, rfl, rfl, ?_⟩
    exact compileRule_reads (accepted_bind_iff.mp hr).1
  have hplaced : List.Forall₂ (fun (_ : Model.Route) (out : Route) => out.Placed) b.routes
      (compileBlock c b).value.routes := by
    simp only [compileRoutes, accepted_bind_iff] at hroutes
    exact Logged.forall₂_collect hroutes.1 fun r _ _ => ⟨_, rfl, compileRoute_placed r⟩
  refine ⟨?_, ?_, ?_, ?_⟩
  · intro r hr
    obtain ⟨_, -, hof⟩ := exists_of_mem_right hplaced hr
    exact hof
  · intro name
    have hcaptures : (compileBlock c b).value.captures =
        ((compileBlock c b).value.routes.flatMap Route.captureNames).dedup.insertionSort
          (· ≤ ·) := rfl
    rw [hcaptures, List.mem_insertionSort, List.mem_dedup, List.mem_flatMap]
  · intro out hout
    obtain ⟨r, -, -, -, hreads⟩ := exists_of_mem_right hwalk hout
    exact ⟨fun p hp => mem_blockKeys.mp (hreads.predicates p hp),
      fun axis haxis => mem_blockKeys.mp (hreads.counters axis haxis)⟩
  · intro out hout
    obtain ⟨r, hr, hname, hrules, -⟩ := exists_of_mem_right hwalk hout
    rw [hname, hrules]
    exact checkReplacedRules_accepted hreplaced r hr

theorem compileBlocks_resolved {p : Model.Policy} (hacc : Accepted (compileBlocks c p)) :
    ∀ b ∈ (compileBlocks c p).value, b.Resolved (· ∈ c.env.keys) := by
  simp only [compileBlocks, accepted_bind_iff] at hacc
  obtain ⟨-, heq⟩ := nodup_of_accepted_collectDistinct hacc.2 fun _ => rfl
  have hwalk := hacc.2
  rw [heq] at hwalk
  have hpaired : List.Forall₂ (fun (_ : Model.Block) (out : Block) => out.Resolved (· ∈ c.env.keys))
      p.blocks (compileBlocks c p).value := by
    simp only [compileBlocks, Logged.value_bind, heq]
    refine Logged.forall₂_collect hwalk fun b _ hb => ⟨_, rfl, ?_⟩
    exact compileBlock_resolved (accepted_bind_iff.mp hb).1
  intro b hb
  obtain ⟨_, -, hof⟩ := exists_of_mem_right hpaired hb
  exact hof

end Block

section Environment

variable {domain : Text} {p : Model.Policy}

/-- A mapping is refused as a defect of the policy, or it extracts its own key. -/
theorem compileKeyMapping_cases (km : Model.KeyMapping) :
    (∃ e, compileKeyMapping km = .ok e ∧ e.key = km.key ∧ keyName km.key = true) ∨
      ∃ format args, compileKeyMapping km = .error (specFailure format args) := by
  unfold compileKeyMapping
  extract_lets path fallbacks
  by_cases hname : keyName km.key = false ∨ maxKeyLength < km.key.length
  · rw [if_pos hname]
    exact Or.inr ⟨_, _, rfl⟩
  · rw [if_neg hname]
    iterate 6
      split
      · exact Or.inr ⟨_, _, rfl⟩
    exact Or.inl ⟨_, rfl, rfl, by simpa using (not_or.mp hname).1⟩

theorem visitMapping_accepted {km : Model.KeyMapping} (hacc : Accepted (visitMapping km)) :
    ∃ e, (visitMapping km).value = some e ∧ e.key ≠ [] := by
  unfold visitMapping at hacc ⊢
  rcases compileKeyMapping_cases km with ⟨e, hkm, hkey, hname⟩ | ⟨format, args, hkm⟩
  · rw [hkm]
    exact ⟨e, rfl, hkey ▸ keyName_ne_nil hname⟩
  · simp [hkm] at hacc

theorem mem_mappedKeys {extraction : List KeyExtraction} {k : Text} :
    k ∈ mappedKeys extraction ↔ k ∈ builtinKeys ∨ ∃ e ∈ extraction, e.key = k := by
  have hfold : ∀ (es : List KeyExtraction) (keys : Finmap fun _ : Text => Bool),
      k ∈ es.foldl (fun keys e => keys.insert e.key (decide (e.type = .stringArray))) keys ↔
        k ∈ keys ∨ ∃ e ∈ es, e.key = k := by
    intro es
    induction es with
    | nil => simp
    | cons e es ih =>
      intro keys
      rw [List.foldl_cons, ih, Finmap.mem_insert]
      simp only [List.mem_cons, exists_eq_or_imp]
      tauto
  exact hfold extraction builtinKeys

theorem compileEnvironment_keys (hacc : Accepted (compileEnvironment domain (some p))) :
    ∀ k ∈ (compileEnvironment domain (some p)).value.keys, k ≠ [] := by
  simp only [compileEnvironment, accepted_bind_iff] at hacc
  obtain ⟨-, hmappings, -⟩ := hacc
  obtain ⟨-, heq⟩ := nodup_of_accepted_collectDistinct hmappings fun _ => rfl
  rw [heq] at hmappings
  have hpaired : List.Forall₂ (fun (_ : Model.KeyMapping) (e : KeyExtraction) => e.key ≠ [])
      p.mappings (Logged.collect visitMapping p.mappings).value :=
    Logged.forall₂_collect hmappings fun km _ hkm => visitMapping_accepted hkm
  intro k hk
  simp only [compileEnvironment, Logged.value_bind, Logged.value_pure, heq] at hk
  rcases mem_mappedKeys.mp hk with hbuiltin | ⟨e, he, rfl⟩
  · rintro rfl
    exact absurd hbuiltin (by decide)
  · obtain ⟨_, -, hne⟩ := exists_of_mem_right hpaired he
    exact hne

theorem compileEnvironment_extraction (domain : Text) (p : Option Model.Policy) :
    ∀ e ∈ (compileEnvironment domain p).value.extraction,
      e.key ∈ (compileEnvironment domain p).value.keys := by
  cases p with
  | none =>
    intro e he
    obtain rfl : e = builtinSub := List.mem_singleton.mp he
    exact (by decide : builtinSub.key ∈ builtinKeys)
  | some p =>
    intro e he
    simp only [compileEnvironment, Logged.value_bind, Logged.value_pure] at he ⊢
    rw [mem_mappedKeys]
    split_ifs at he
    · exact Or.inr ⟨e, he, rfl⟩
    · rcases List.mem_cons.mp he with rfl | he
      · exact Or.inl (by decide)
      · exact Or.inr ⟨e, he, rfl⟩

theorem visitMapping_key {km : Model.KeyMapping} {e : KeyExtraction}
    (h : (visitMapping km).value = some e) : e.key = km.key := by
  unfold visitMapping at h
  rcases compileKeyMapping_cases km with ⟨e', hkm, hkey, -⟩ | ⟨format, args, hkm⟩
  · rw [hkm] at h
    obtain rfl := Option.some.inj h
    exact hkey
  · rw [hkm] at h
    cases h

theorem compileEnvironment_nodup (domain : Text) (p : Option Model.Policy) :
    ((compileEnvironment domain p).value.extraction.map KeyExtraction.key).Nodup := by
  cases p with
  | none => exact List.nodup_singleton _
  | some p =>
    simp only [compileEnvironment, Logged.value_bind, Logged.value_pure]
    split_ifs with hsub
    · exact (Logged.nodup_collectDistinct (fun _ _ h => visitMapping_key h) [] p.mappings).1
    · refine List.nodup_cons.mpr ⟨fun hmem => hsub ?_,
        (Logged.nodup_collectDistinct (fun _ _ h => visitMapping_key h) [] p.mappings).1⟩
      obtain ⟨e, he, hkey⟩ := List.mem_map.mp hmem
      exact List.any_eq_true.mpr ⟨e, he, decide_eq_true hkey⟩

theorem mem_effectiveKeys {e : Environment} {k : Text} : k ∈ e.effectiveKeys ↔ k ∈ e.keys := by
  rw [Environment.effectiveKeys, Finset.mem_sort, Finmap.mem_keys]

end Environment

section Snapshot

/-- The blocks of a snapshot are in order, and a key that a rule reads has a name. -/
structure Snapshot.Resolved (snap : Snapshot) : Prop where
  blocks : ∀ b ∈ snap.blocks, b.Resolved (· ∈ snap.effectiveKeys)
  named : ∀ b ∈ snap.blocks, [] ∉ snap.effectiveKeys

theorem compilePolicy_effectiveKeys (scope : Key.Scope) (p : Model.Policy) :
    (compilePolicy scope p).1.effectiveKeys =
      (compileEnvironment scope.domain (some p)).value.effectiveKeys := by
  unfold compilePolicy
  dsimp only
  split_ifs <;> rfl

/-- Without a blocking problem the snapshot holds every block. -/
theorem compilePolicy_free {scope : Key.Scope} {p : Model.Policy}
    (hfree : blocking (compilePolicy scope p).2 = false) :
    let env := compileEnvironment scope.domain (some p)
    let blocks := compileBlocks ⟨scope, env.value⟩ p
    Accepted env ∧ Accepted blocks ∧ (compilePolicy scope p).1.blocks = blocks.value := by
  unfold compilePolicy at hfree ⊢
  dsimp only at hfree ⊢
  split_ifs at hfree ⊢ with h
  · exact absurd hfree (by simp [h])
  · obtain ⟨henv, hblocks, -⟩ := policyProblems_accepted hfree
    exact ⟨henv, hblocks, rfl⟩

theorem compilePolicy_resolved (scope : Key.Scope) (p : Model.Policy) :
    (compilePolicy scope p).1.Resolved := by
  cases hblocking : blocking (compilePolicy scope p).2 with
  | true =>
    have hnone := (compilePolicy_blocks_of_blocking hblocking).1
    exact ⟨by simp [hnone], by simp [hnone]⟩
  | false =>
    obtain ⟨henv, hacc, hblocks⟩ := compilePolicy_free hblocking
    have hkeys : ∀ k, k ∈ (compilePolicy scope p).1.effectiveKeys ↔
        k ∈ (compileEnvironment scope.domain (some p)).value.keys := by
      intro k
      rw [compilePolicy_effectiveKeys, mem_effectiveKeys]
    constructor
    · intro b hb
      simp only [hkeys]
      exact compileBlocks_resolved hacc b (hblocks ▸ hb)
    · intro b _ hnil
      exact compileEnvironment_keys henv [] ((hkeys []).mp hnil) rfl

theorem compile_effectiveKeys {namespaceName domain : Text} {p : Model.Policy}
    (hfree : blocking (compile namespaceName domain (some p)).2 = false) :
    (compile namespaceName domain (some p)).1.effectiveKeys =
      (compileEnvironment domain (some p)).value.effectiveKeys := by
  unfold compile at hfree ⊢
  split_ifs at hfree ⊢ with hn hd
  · exact absurd hfree (by simp [blocking])
  · exact absurd hfree (by simp [blocking])
  · exact compilePolicy_effectiveKeys _ p

theorem compile_extraction (namespaceName domain : Text) (p : Option Model.Policy) :
    ∀ e ∈ (compile namespaceName domain p).1.extraction,
      e.key ∈ (compile namespaceName domain p).1.effectiveKeys := by
  unfold compile
  split_ifs
  · simp [bareSnapshot]
  · simp [bareSnapshot]
  · cases p with
    | none =>
      intro e he
      exact mem_effectiveKeys.mpr (compileEnvironment_extraction domain none e he)
    | some p =>
      intro e he
      rw [compilePolicy_effectiveKeys, mem_effectiveKeys]
      refine compileEnvironment_extraction domain (some p) e ?_
      unfold compilePolicy at he
      dsimp only at he
      split_ifs at he <;> exact he

theorem compile_extraction_nodup (namespaceName domain : Text) (p : Option Model.Policy) :
    ((compile namespaceName domain p).1.extraction.map KeyExtraction.key).Nodup := by
  unfold compile
  split_ifs
  · exact List.nodup_nil
  · exact List.nodup_nil
  · cases p with
    | none => exact compileEnvironment_nodup domain none
    | some p =>
      dsimp only
      unfold compilePolicy
      dsimp only
      split_ifs <;> exact compileEnvironment_nodup domain (some p)

theorem compile_resolved (namespaceName domain : Text) (p : Option Model.Policy) :
    (compile namespaceName domain p).1.Resolved := by
  have hnone : ∀ effectiveKeys extraction,
      (bareSnapshot domain effectiveKeys extraction).Resolved := by
    intro effectiveKeys extraction
    exact ⟨by simp [bareSnapshot], by simp [bareSnapshot]⟩
  unfold compile
  split_ifs
  · exact hnone _ _
  · exact hnone _ _
  · cases p with
    | none => exact hnone _ _
    | some p => exact compilePolicy_resolved _ p

/-- Whatever was authored, the snapshot that is returned is in order: checked windows under the
keys of its own scope, names that resolve, and a worst case within the budget. -/
theorem compile_wellFormed (namespaceName domain : Text) (p : Option Model.Policy) :
    let snap := (compile namespaceName domain p).1
    (snap.blocks = [] ∨ ∃ scope : Key.Scope, scope.namespaceName = namespaceName ∧
      scope.domain = domain ∧ snap.Sound scope) ∧
    snap.Resolved ∧ (snap.extraction.map KeyExtraction.key).Nodup ∧
    (∀ e ∈ snap.extraction, e.key ∈ snap.effectiveKeys) ∧
    snap.decisionBuckets = decisionBuckets snap.blocks ∧
    snap.decisionBuckets ≤ Model.maxDomainDecisionBuckets := by
  refine ⟨?_, compile_resolved .., compile_extraction_nodup .., compile_extraction _ _ _,
    compile_decisionBuckets ..⟩
  rcases compile_cases namespaceName domain p with ⟨hnil, -⟩ | ⟨scope, _, hname, hdomain, hsnap⟩
  · exact Or.inl hnil
  · exact Or.inr ⟨scope, hname, hdomain, snapshot_sound hsnap⟩

end Snapshot

end Ratelimit.Compile
