import Ratelimit.Compile.Blocks
import Ratelimit.Library.Pointwise

/-!
# What an accepted policy compiles to

Every authored block, rule, predicate and window of an accepted policy has its compiled
counterpart, in the same order. `Sound` is what the decision path relies on; every snapshot
the compiler returns is sound.
-/
namespace Ratelimit.Compile

open Algo Library

abbrev Groups := Text → Option (List Text)

structure PredicateOf (groups : Groups) (p : Model.Predicate) (out : Predicate) : Prop where
  key_eq : out.key = p.key
  operator_eq : out.operator = p.operator
  value_eq : out.value = p.value
  known : ∀ t ht, p.operator ≠ .other t ht
  isIn : p.operator = .isIn → out.values = p.values.toFinset
  inGroup : p.operator = .inGroup →
    ∃ values, groups p.value = some values ∧ out.values = values.toFinset

structure RateOf (ident : Key.Ident) (rate : Model.Rate) (out : Rate) : Prop where
  algorithm_eq : byName (resolveAlgorithm rate.algorithm) = some out.algorithm
  window_eq : out.window = resolveWindow out.algorithm rate
  checked : check out.algorithm out.window = .ok ()
  keyPrefix_eq : out.keyPrefix = Key.ratePrefix ident out.algorithm out.window

structure RuleOf (scope : Key.Scope) (groups : Groups) (b : Model.Block) (r : Model.Rule)
    (out : Rule) : Prop where
  name_eq : out.name = r.name
  behavior_eq : out.behavior = resolveBehavior r.behavior
  known : out.behavior ∈ [Model.Behavior.enforce, .shadow, .bypass]
  predicates : List.Forall₂ (PredicateOf groups) r.predicates out.predicates
  counters_eq : out.counters = r.counters
  rates : List.Forall₂ (RateOf ⟨scope, b.name, r.name⟩) r.rates out.rates
  periods_nodup : (r.rates.map Model.Rate.period).Nodup
  rates_ne : out.behavior ≠ .bypass → r.rates ≠ []
  replacedRules_eq : out.replacedRules = r.replacedRules

structure BlockOf (scope : Key.Scope) (groups : Groups) (b : Model.Block) (out : Block) :
    Prop where
  name_eq : out.name = b.name
  mode_eq : out.mode = resolveMode b.mode
  known : out.mode = .all ∨ out.mode = .firstMatch
  routes : List.Forall₂ RouteOf b.routes out.routes
  rules : List.Forall₂ (RuleOf scope groups b) b.rules out.rules
  names_nodup : (b.rules.map Model.Rule.name).Nodup

section Rule

variable {c : BlockCompiler} {b : Model.Block} {r : Model.Rule}

theorem operatorArity_accepted {p : Model.Predicate} (hacc : Accepted (operatorArity b r p)) :
    (operatorArity b r p).value = true ∧ ∀ t ht, p.operator ≠ .other t ht := by
  unfold operatorArity at hacc ⊢
  cases hop : p.operator with
  | other t ht => simp [hop] at hacc
  | _ =>
    simp only [hop] at hacc ⊢
    split_ifs at hacc ⊢
    · simp at hacc
    · simp

theorem compileOperator_accepted {p : Model.Predicate} {isArray : Bool}
    (hacc : Accepted (compileOperator c b r p isArray))
    (hknown : ∀ t ht, p.operator ≠ .other t ht) :
    ∃ out, (compileOperator c b r p isArray).value = some out ∧
      PredicateOf c.env.groups.lookup p out := by
  unfold compileOperator at hacc ⊢
  cases hop : p.operator with
  | inGroup =>
    cases hgroup : c.env.groups.lookup p.value with
    | none => simp [hop, hgroup] at hacc
    | some values =>
      exact ⟨_, rfl, rfl, hop.symm, rfl, hknown, by simp [hop], fun _ => ⟨values, hgroup, rfl⟩⟩
  | isIn =>
    exact ⟨_, rfl, rfl, hop.symm, rfl, hknown, fun _ => rfl, by simp [hop]⟩
  | _ =>
    exact ⟨_, rfl, rfl, hop.symm, rfl, hknown, by simp [hop], by simp [hop]⟩

theorem compilePredicate_accepted {keys : BlockKeys} {p : Model.Predicate}
    (hacc : Accepted (compilePredicate c b r keys p)) :
    ∃ out, (compilePredicate c b r keys p).value = some out ∧
      PredicateOf c.env.groups.lookup p out := by
  unfold compilePredicate at hacc ⊢
  split_ifs at hacc ⊢ with hbuiltin
  · simp at hacc
  · cases hkey : keys.lookup p.key with
    | none => simp [hkey] at hacc
    | some isArray =>
      simp only [hkey, accepted_bind_iff] at hacc
      obtain ⟨hfits, hknown⟩ := operatorArity_accepted hacc.1
      have hop : Accepted (compileOperator c b r p isArray) := by simpa [hfits] using hacc.2
      simpa [hkey, hfits] using compileOperator_accepted hop hknown

theorem compileRate_accepted {ident : Key.Ident} {rate : Model.Rate}
    (hacc : Accepted (compileRate b r ident rate)) :
    ∃ out, (compileRate b r ident rate).value = some out ∧ RateOf ident rate out := by
  unfold compileRate at hacc ⊢
  cases ha : byName (resolveAlgorithm rate.algorithm) with
  | none => simp [ha] at hacc
  | some a =>
    cases hw : check a (resolveWindow a rate) with
    | error e => simp [ha, hw] at hacc
    | ok u =>
      simp only [ha, hw]
      exact ⟨_, rfl, ha, rfl, hw, rfl⟩

theorem ratesCompilable_accepted {behavior : Model.Behavior}
    (hacc : Accepted (ratesCompilable b r behavior)) :
    (ratesCompilable b r behavior).value = true ∧ r.rates ≠ [] ∨
      (ratesCompilable b r behavior).value = false ∧ behavior = .bypass ∧ r.rates = [] := by
  unfold ratesCompilable at hacc ⊢
  split_ifs at hacc ⊢ with hbypass hnone
  · have hrates := not_of_accepted_reportIf (accepted_bind_iff.mp hacc).1 rfl
    exact Or.inr ⟨rfl, hbypass, not_not.mp hrates⟩
  · simp at hacc
  · exact Or.inl ⟨rfl, hnone⟩

theorem compileRates_accepted {behavior : Model.Behavior}
    (hacc : Accepted (compileRates c b r behavior)) :
    List.Forall₂ (RateOf ⟨c.scope, b.name, r.name⟩) r.rates (compileRates c b r behavior).value ∧
      (r.rates.map Model.Rate.period).Nodup ∧ (behavior ≠ .bypass → r.rates ≠ []) := by
  unfold compileRates at hacc ⊢
  obtain ⟨hwalk, hacc⟩ := accepted_bind_iff.mp hacc
  rw [Logged.value_bind]
  rcases ratesCompilable_accepted hwalk with ⟨hwalked, hsome⟩ | ⟨hwalked, hbypass, hnone⟩
  · rw [if_pos hwalked] at hacc ⊢
    obtain ⟨hnodup, heq⟩ := nodup_of_accepted_collectDistinct hacc fun _ => rfl
    rw [heq] at hacc ⊢
    exact ⟨Logged.forall₂_collect hacc fun rate _ hrate => compileRate_accepted hrate, hnodup,
      fun _ => hsome⟩
  · subst hbypass
    simp [hwalked, hnone]

theorem compileRule_accepted {keys : BlockKeys} (hacc : Accepted (compileRule c b keys r)) :
    RuleOf c.scope c.env.groups.lookup b r (compileRule c b keys r).value := by
  simp only [compileRule, accepted_bind_iff] at hacc
  obtain ⟨hknown, -, hpredicates, -, hrates, -⟩ := hacc
  have hknown := not_not.mp (not_of_accepted_reportIf hknown rfl)
  obtain ⟨hrates, hperiods, hne⟩ := compileRates_accepted hrates
  exact
    { name_eq := rfl
      behavior_eq := rfl
      known := hknown
      predicates := Logged.forall₂_collect hpredicates fun p _ hp => compilePredicate_accepted hp
      counters_eq := rfl
      rates := hrates
      periods_nodup := hperiods
      rates_ne := hne
      replacedRules_eq := rfl }

end Rule

section Block

variable {c : BlockCompiler} {b : Model.Block}

theorem compileBlock_accepted (hacc : Accepted (compileBlock c b)) :
    BlockOf c.scope c.env.groups.lookup b (compileBlock c b).value := by
  simp only [compileBlock, accepted_bind_iff] at hacc
  obtain ⟨hmode, hroutes, -, hrules, -⟩ := hacc
  have hmode := not_of_accepted_reportIf hmode rfl
  obtain ⟨hnodup, heq⟩ := nodup_of_accepted_collectDistinct hrules fun _ => rfl
  refine ⟨rfl, rfl, ?_, compileRoutes_accepted hroutes, ?_, hnodup⟩
  · by_contra h
    exact hmode (not_or.mp h)
  · simp only [compileBlock, Logged.value_bind, Logged.value_pure]
    rw [heq] at hrules ⊢
    refine Logged.forall₂_collect hrules fun r _ hr => ⟨_, rfl, ?_⟩
    exact compileRule_accepted (accepted_bind_iff.mp hr).1

theorem compileBlocks_accepted {p : Model.Policy} (hacc : Accepted (compileBlocks c p)) :
    List.Forall₂ (BlockOf c.scope c.env.groups.lookup) p.blocks (compileBlocks c p).value ∧
      (p.blocks.map Model.Block.name).Nodup := by
  simp only [compileBlocks, accepted_bind_iff] at hacc
  obtain ⟨hnodup, heq⟩ := nodup_of_accepted_collectDistinct hacc.2 fun _ => rfl
  have hwalk := hacc.2
  rw [heq] at hwalk
  refine ⟨?_, hnodup⟩
  simp only [compileBlocks, Logged.value_bind, heq]
  refine Logged.forall₂_collect hwalk fun b _ hb => ⟨_, rfl, ?_⟩
  exact compileBlock_accepted (accepted_bind_iff.mp hb).1

end Block

section Snapshot

/-- An accepted snapshot is the policy, block by block. -/
structure SnapshotOf (scope : Key.Scope) (p : Model.Policy) (snap : Snapshot) : Prop where
  blocks : List.Forall₂ (BlockOf scope (groupNamed p.groups)) p.blocks snap.blocks
  names_nodup : (p.blocks.map Model.Block.name).Nodup
  buckets_eq : snap.decisionBuckets = decisionBuckets snap.blocks
  buckets_le : snap.decisionBuckets ≤ Model.maxDomainDecisionBuckets

theorem compilePolicy_blocks_of_blocking {scope : Key.Scope} {p : Model.Policy}
    (hblocking : blocking (compilePolicy scope p).2 = true) :
    (compilePolicy scope p).1.blocks = [] ∧ (compilePolicy scope p).1.decisionBuckets = 0 := by
  unfold compilePolicy at hblocking ⊢
  dsimp only at hblocking ⊢
  split_ifs at hblocking ⊢ with h
  · exact ⟨rfl, rfl⟩
  · exact absurd hblocking h

theorem policyProblems_accepted {env : Checked Environment} {blocks : Checked (List Block)}
    (hfree : blocking (policyProblems env blocks) = false) :
    Accepted env ∧ Accepted blocks ∧
      decisionBuckets blocks.value ≤ Model.maxDomainDecisionBuckets := by
  unfold policyProblems at hfree
  simp only [blocking, List.any_append, Bool.or_eq_false_iff, List.any_eq_false] at hfree
  refine ⟨hfree.1.1, hfree.1.2, not_lt.mp fun hlt => ?_⟩
  exact absurd rfl (hfree.2 (budgetFailure (decisionBuckets blocks.value)) (by simp [hlt]))

theorem compilePolicy_accepted {scope : Key.Scope} {p : Model.Policy}
    (hfree : blocking (compilePolicy scope p).2 = false) :
    SnapshotOf scope p (compilePolicy scope p).1 := by
  unfold compilePolicy at hfree ⊢
  dsimp only at hfree ⊢
  split_ifs at hfree ⊢ with h
  · exact absurd hfree (by simp [h])
  · obtain ⟨henv, hblocks, hbudget⟩ := policyProblems_accepted hfree
    obtain ⟨hblocks, hnodup⟩ := compileBlocks_accepted hblocks
    have hgroups := funext (lookup_groups henv)
    exact ⟨hgroups ▸ hblocks, hnodup, rfl, hbudget⟩

theorem compile_blocks_of_blocking {namespaceName domain : Text} {p : Option Model.Policy}
    (hblocking : blocking (compile namespaceName domain p).2 = true) :
    (compile namespaceName domain p).1.blocks = [] := by
  unfold compile at hblocking ⊢
  split_ifs at hblocking ⊢ with hn hd
  · rfl
  · rfl
  · cases p with
    | none => rfl
    | some p => exact (compilePolicy_blocks_of_blocking hblocking).1

theorem compile_accepted {namespaceName domain : Text} {p : Model.Policy}
    (hfree : blocking (compile namespaceName domain (some p)).2 = false) :
    ∃ scope : Key.Scope, scope.namespaceName = namespaceName ∧ scope.domain = domain ∧
      SnapshotOf scope p (compile namespaceName domain (some p)).1 := by
  unfold compile at hfree ⊢
  split_ifs at hfree ⊢ with hn hd
  · exact absurd hfree (by simp [blocking])
  · exact absurd hfree (by simp [blocking])
  · exact ⟨_, rfl, rfl, compilePolicy_accepted hfree⟩

end Snapshot

section Sound

/-- A compiled window: checked, under the prefix of its own identity. -/
structure Rate.Sound (ident : Key.Ident) (rate : Rate) : Prop where
  checked : check rate.algorithm rate.window = .ok ()
  keyPrefix_eq : rate.keyPrefix = Key.ratePrefix ident rate.algorithm rate.window

structure Rule.Sound (scope : Key.Scope) (block : Text) (r : Rule) : Prop where
  rates : ∀ rate ∈ r.rates, rate.Sound ⟨scope, block, r.name⟩
  periods_nodup : (r.rates.map fun rate => rate.window.period).Nodup

structure Cost.Sound (cost : Cost) : Prop where
  parameter_ne : cost.parameter ≠ []
  one_le_default : 1 ≤ cost.defaultCost
  default_le : cost.defaultCost ≤ Model.maxCost

structure Block.Sound (scope : Key.Scope) (b : Block) : Prop where
  costs : ∀ route ∈ b.routes, ∀ cost ∈ route.cost, cost.Sound
  rules : ∀ r ∈ b.rules, r.Sound scope b.name
  names_nodup : (b.rules.map Rule.name).Nodup

structure Snapshot.Sound (scope : Key.Scope) (snap : Snapshot) : Prop where
  blocks : ∀ b ∈ snap.blocks, b.Sound scope
  names_nodup : (snap.blocks.map Block.name).Nodup

variable {scope : Key.Scope} {groups : Groups}

theorem rate_sound {ident : Key.Ident} {rate : Model.Rate} {out : Rate}
    (h : RateOf ident rate out) : out.Sound ident := ⟨h.checked, h.keyPrefix_eq⟩

theorem rule_sound {b : Model.Block} {r : Model.Rule} {out : Rule}
    (h : RuleOf scope groups b r out) : out.Sound scope b.name := by
  constructor
  · intro rate hrate
    obtain ⟨authored, -, hof⟩ := exists_of_mem_right h.rates hrate
    exact h.name_eq ▸ rate_sound hof
  · have hperiods : r.rates.map Model.Rate.period =
        out.rates.map fun rate => rate.window.period := by
      apply map_eq_of_forall₂ h.rates
      intro rate outRate hof
      rw [hof.window_eq]
      rfl
    rw [← hperiods]
    exact h.periods_nodup

theorem block_sound {b : Model.Block} {out : Block} (h : BlockOf scope groups b out) :
    out.Sound scope := by
  constructor
  · intro route hroute cost hcost
    obtain ⟨authored, -, hof⟩ := exists_of_mem_right h.routes hroute
    rcases option_rel_cases hof.cost with ⟨-, hnone⟩ | ⟨c, out, -, hsome, hc⟩
    · rw [hnone] at hcost
      cases hcost
    · rw [hsome] at hcost
      obtain rfl := Option.some.inj hcost
      exact ⟨hc.parameter_ne, hc.one_le_default, hc.default_le⟩
  · intro r hr
    obtain ⟨authored, -, hof⟩ := exists_of_mem_right h.rules hr
    exact h.name_eq ▸ rule_sound hof
  · have hnames : b.rules.map Model.Rule.name = out.rules.map Rule.name :=
      map_eq_of_forall₂ h.rules fun r outRule hof => hof.name_eq.symm
    rw [← hnames]
    exact h.names_nodup

theorem snapshot_sound {p : Model.Policy} {snap : Snapshot} (h : SnapshotOf scope p snap) :
    snap.Sound scope := by
  constructor
  · intro b hb
    obtain ⟨authored, -, hof⟩ := exists_of_mem_right h.blocks hb
    exact block_sound hof
  · have hnames : p.blocks.map Model.Block.name = snap.blocks.map Block.name :=
      map_eq_of_forall₂ h.blocks fun b out hof => hof.name_eq.symm
    rw [← hnames]
    exact h.names_nodup

theorem sound_of_blocks_eq_nil {snap : Snapshot} (h : snap.blocks = []) : snap.Sound scope := by
  constructor
  · simp [h]
  · simp [h]

/-- A compiled snapshot has no block, or is that of an accepted policy. -/
theorem compile_cases (namespaceName domain : Text) (p : Option Model.Policy) :
    ((compile namespaceName domain p).1.blocks = [] ∧
      (compile namespaceName domain p).1.decisionBuckets = 0) ∨
    ∃ (scope : Key.Scope) (authored : Model.Policy), scope.namespaceName = namespaceName ∧
      scope.domain = domain ∧ SnapshotOf scope authored (compile namespaceName domain p).1 := by
  unfold compile
  split_ifs with hn hd
  · exact Or.inl ⟨rfl, rfl⟩
  · exact Or.inl ⟨rfl, rfl⟩
  · cases p with
    | none => exact Or.inl ⟨rfl, rfl⟩
    | some p =>
      dsimp only
      cases hblocking : blocking (compilePolicy _ p).2 with
      | true => exact Or.inl (compilePolicy_blocks_of_blocking hblocking)
      | false => exact Or.inr ⟨_, p, rfl, rfl, compilePolicy_accepted hblocking⟩

theorem compile_sound (namespaceName domain : Text) (p : Option Model.Policy) :
    ∃ scope : Key.Scope, (compile namespaceName domain p).1.Sound scope := by
  rcases compile_cases namespaceName domain p with ⟨hnil, -⟩ | ⟨scope, authored, -, -, hsnap⟩
  · exact ⟨⟨[0], [0], List.cons_ne_nil _ _, List.cons_ne_nil _ _⟩, sound_of_blocks_eq_nil hnil⟩
  · exact ⟨scope, snapshot_sound hsnap⟩

theorem compile_sound_in (scope : Key.Scope) (p : Option Model.Policy) :
    (compile scope.namespaceName scope.domain p).1.Sound scope := by
  rcases compile_cases scope.namespaceName scope.domain p with
    ⟨hnil, -⟩ | ⟨scope', authored, hname, hdomain, hsnap⟩
  · exact sound_of_blocks_eq_nil hnil
  · obtain rfl : scope' = scope := Key.Scope.ext hname hdomain
    exact snapshot_sound hsnap

theorem blockOf_of_mem {namespaceName domain : Text} {p : Option Model.Policy} {b : Block}
    (hb : b ∈ (compile namespaceName domain p).1.blocks) :
    ∃ scope groups authored, BlockOf scope groups authored b := by
  rcases compile_cases namespaceName domain p with ⟨hnil, -⟩ | ⟨scope, _, -, -, hsnap⟩
  · simp [hnil] at hb
  · obtain ⟨authored, -, hblock⟩ := exists_of_mem_right hsnap.blocks hb
    exact ⟨scope, _, authored, hblock⟩

theorem compile_rates_ne (namespaceName domain : Text) (p : Option Model.Policy) :
    ∀ b ∈ (compile namespaceName domain p).1.blocks, ∀ r ∈ b.rules, r.behavior ≠ .bypass →
      r.rates ≠ [] := by
  intro b hb r hr hcounts hnil
  obtain ⟨_, _, _, hblock⟩ := blockOf_of_mem hb
  obtain ⟨authored, -, hrule⟩ := exists_of_mem_right hblock.rules hr
  exact hrule.rates_ne hcounts (List.forall₂_nil_right_iff.mp (hnil ▸ hrule.rates))

/-- The recorded worst case is the one of the blocks, within the budget. -/
theorem compile_decisionBuckets (namespaceName domain : Text) (p : Option Model.Policy) :
    (compile namespaceName domain p).1.decisionBuckets =
        decisionBuckets (compile namespaceName domain p).1.blocks ∧
      (compile namespaceName domain p).1.decisionBuckets ≤ Model.maxDomainDecisionBuckets := by
  rcases compile_cases namespaceName domain p with ⟨hnil, hzero⟩ | ⟨_, _, -, -, hsnap⟩
  · rw [hnil, hzero]
    exact ⟨rfl, Nat.zero_le _⟩
  · exact ⟨hsnap.buckets_eq, hsnap.buckets_le⟩

end Sound

def shopPolicy : Model.Policy :=
  { domain := ascii "shop"
    mappings := [{ key := ascii "tenant", claim := ascii "tenant_id" }]
    groups := [{ name := ascii "partners", values := [ascii "acme", ascii "globex"] }]
    blocks := [
      { name := ascii "orders"
        routes := [
          { path := ⟨.template, ascii "/orders/\x7bid\x7d"⟩, methods := [ascii "GET"]
            cost := some ⟨.queryParameter, ascii "units", 0⟩ },
          { path := ⟨.pathPrefix, ascii "/orders"⟩ }]
        rules := [
          { name := ascii "tenant", predicates := [⟨ascii "tenant", .exist, [], []⟩]
            counters := [ascii "tenant"]
            rates := [⟨10, 60 * second, 0, []⟩, ⟨1000, 3600 * second, 0, ascii "FixedWindow"⟩] },
          { name := ascii "watch"
            predicates := [⟨ascii "tenant", .inGroup, ascii "partners", []⟩]
            counters := [ascii "tenant", ascii "id"], behavior := .shadow
            rates := [⟨5, 60 * second, 0, []⟩] },
          { name := ascii "partners", predicates := [⟨ascii "tenant", .equals, ascii "acme", []⟩]
            behavior := .bypass, replacedRules := [ascii "tenant"] }] },
      { name := ascii "edge", mode := .firstMatch
        rules := [
          { name := ascii "path", counters := [ascii "path"]
            rates := [⟨100, second, 0, []⟩] }] }] }

abbrev compileShop (p : Model.Policy) : Snapshot × List Problem :=
  compile (ascii "prod") (ascii "shop") (some p)

theorem blocking_shopPolicy : blocking (compileShop shopPolicy).2 = false := by
  decide +kernel

end Ratelimit.Compile
