import Ratelimit.Engine.Buckets

/-!
# What overrides leave applied

A matching rule of an All block suppresses the rules it names, whether or not it is itself
suppressed. So enforcement survives exactly when some matching rule is named by no other
matching one; a cycle need not leave anything.
-/
namespace Ratelimit.Engine

open Algo Compile Match Library

def enforcing (ctx : BlockCtx) (rules : List Rule) : List Rule :=
  (matching ctx rules).filter fun r => r.behavior = .enforce

/-- Both rules match and enforce, and the first one names the second. -/
def Replaces (ctx : BlockCtx) (rules : List Rule) (r s : Rule) : Prop :=
  r ∈ enforcing ctx rules ∧ s ∈ enforcing ctx rules ∧ s.name ∈ r.replacedRules

/-- An enforcing rule of the block is among the applied ones. -/
def EnforcedIn (out : List MatchedRule) (block : Block) : Prop :=
  ∃ m ∈ out, m.block = block.name ∧ m.shadow = false

section Block

variable {block : Block} {ctx : BlockCtx} {rules : List Rule} {r : Rule}

theorem mem_enforcing :
    r ∈ enforcing ctx rules ↔ r ∈ rules ∧ ruleMatches ctx r = true ∧ r.behavior = .enforce := by
  unfold enforcing matching
  rw [List.mem_filter, List.mem_filter, decide_eq_true_eq, and_assoc]

theorem mem_suppressedBy {name : Text} :
    name ∈ suppressedBy ctx rules ↔
      ∃ s ∈ rules, ruleMatches ctx s = true ∧ s.behavior ≠ .shadow ∧ name ∈ s.replacedRules := by
  simp only [suppressedBy, matching, List.mem_flatMap, List.mem_filter, decide_eq_true_eq,
    and_assoc]

theorem mem_suppressedBy_enforcing {name : Text}
    (hknown : ∀ s ∈ rules, s.behavior ∈ [Model.Behavior.enforce, .shadow, .bypass])
    (hbypass : ∀ s ∈ rules, s.behavior = .bypass → ruleMatches ctx s = false) :
    name ∈ suppressedBy ctx rules ↔ ∃ s ∈ enforcing ctx rules, name ∈ s.replacedRules := by
  rw [mem_suppressedBy]
  constructor
  · rintro ⟨s, hs, hmatch, hshadow, hname⟩
    have hkind := hknown s hs
    simp only [List.mem_cons, List.not_mem_nil, or_false] at hkind
    rcases hkind with henforce | hsh | hby
    · exact ⟨s, mem_enforcing.mpr ⟨hs, hmatch, henforce⟩, hname⟩
    · exact absurd hsh hshadow
    · rw [hbypass s hs hby] at hmatch
      cases hmatch
  · rintro ⟨s, hs, hname⟩
    obtain ⟨hmem, hmatch, henforce⟩ := mem_enforcing.mp hs
    exact ⟨s, hmem, hmatch, by simp [henforce], hname⟩

/-- A block keeps an enforcing rule exactly when one is named by no other. -/
theorem evalAll_enforced_iff
    (hknown : ∀ s ∈ block.rules, s.behavior ∈ [Model.Behavior.enforce, .shadow, .bypass])
    (hbypass : ∀ s ∈ block.rules, s.behavior = .bypass → ruleMatches ctx s = false) :
    (∃ m ∈ evalAll block ctx, m.shadow = false) ↔
      ∃ r ∈ enforcing ctx block.rules,
        ∀ s ∈ enforcing ctx block.rules, r.name ∉ s.replacedRules := by
  rw [evalAll_eq]
  constructor
  · rintro ⟨m, hm, hshadow⟩
    obtain ⟨r, hr, rfl⟩ := List.mem_map.mp hm
    obtain ⟨hmatching, hcounts⟩ := List.mem_filter.mp hr
    obtain ⟨hmem, hmatch⟩ := List.mem_filter.mp hmatching
    obtain ⟨hby, hname⟩ := of_decide_eq_true hcounts
    have hsh : r.behavior ≠ .shadow := of_decide_eq_false hshadow
    have hkind := hknown r hmem
    simp only [List.mem_cons, List.not_mem_nil, or_false] at hkind
    have henforce : r.behavior = .enforce :=
      hkind.resolve_right fun h => h.elim hsh hby
    rw [mem_suppressedBy_enforcing hknown hbypass] at hname
    refine ⟨r, mem_enforcing.mpr ⟨hmem, hmatch, henforce⟩, fun s hs hin => ?_⟩
    exact hname ⟨s, hs, hin⟩
  · rintro ⟨r, hr, hfree⟩
    obtain ⟨hmem, hmatch, henforce⟩ := mem_enforcing.mp hr
    refine ⟨_, List.mem_map.mpr ⟨r, List.mem_filter.mpr ⟨?_, ?_⟩, rfl⟩, ?_⟩
    · exact List.mem_filter.mpr ⟨hmem, hmatch⟩
    · refine decide_eq_true ⟨by simp [henforce], ?_⟩
      rw [mem_suppressedBy_enforcing hknown hbypass]
      rintro ⟨s, hs, hin⟩
      exact hfree s hs hin
    · simp [matchedRule, henforce]

end Block

section Snapshot

variable {snap : Snapshot} {path method : Text} {keys : Keys} {cost : ℤ} {h : Hit}

theorem hit_eq_of_name {scope : Key.Scope} (hsnap : snap.Sound scope) {g : Hit}
    (hh : h ∈ (candidates snap path method).hits) (hg : g ∈ (candidates snap path method).hits)
    (hname : g.block.name = h.block.name) : g = h := by
  have hblock : g.block = h.block :=
    List.inj_on_of_nodup_map hsnap.names_nodup (hit_block_mem hg) (hit_block_mem hh) hname
  obtain ⟨b, -, hb⟩ := List.mem_filterMap.mp hh
  obtain ⟨c, -, hc⟩ := List.mem_filterMap.mp hg
  rw [← hitOf_block hb] at hb
  rw [← hitOf_block hc, hblock] at hc
  exact Option.some.inj (hc.symm.trans hb)

theorem evalBlock_block_eq {block : Block} {ctx : BlockCtx} {m : MatchedRule}
    (hm : m ∈ evalBlock block ctx) : m.block = block.name := by
  rw [evalBlock_eq] at hm
  obtain ⟨r, -, rfl⟩ := List.mem_map.mp hm
  rfl

theorem enforcedIn_iff {scope : Key.Scope} (hsnap : snap.Sound scope)
    (hh : h ∈ (candidates snap path method).hits) :
    EnforcedIn ((candidates snap path method).evaluate keys cost) h.block ↔
      ∃ m ∈ evalBlock h.block (h.ctx (candidates snap path method).method keys cost),
        m.shadow = false := by
  constructor
  · rintro ⟨m, hm, hname, hshadow⟩
    obtain ⟨g, hg, hm⟩ := List.mem_flatMap.mp hm
    have hgname := (evalBlock_block_eq hm).symm.trans hname
    rw [hit_eq_of_name hsnap hh hg hgname] at hm
    exact ⟨m, hm, hshadow⟩
  · rintro ⟨m, hm, hshadow⟩
    exact ⟨m, List.mem_flatMap.mpr ⟨h, hh, hm⟩, evalBlock_block_eq hm, hshadow⟩

/-- What overrides leave applied where no bypass rule matches: `Evaluate` returns an enforcing rule of
an All block exactly when a matching one is named in `replacedRules` by no matching one, and so as
soon as one matches where the names among them form no cycle. -/
theorem overrides_keep_enforcing {namespaceName domain : Text} {p : Model.Policy}
    (hfree : blocking (compile namespaceName domain (some p)).2 = false)
    (path method : Text) (keys : Keys) (cost : ℤ) {h : Hit}
    (hh : h ∈ (candidates (compile namespaceName domain (some p)).1 path method).hits)
    (hmode : h.block.mode = .all)
    (hbypass : ∀ r ∈ h.block.rules, r.behavior = .bypass →
      ruleMatches (h.ctx method keys cost) r = false) :
    let out := (candidates (compile namespaceName domain (some p)).1 path method).evaluate keys cost
    let matched := enforcing (h.ctx method keys cost) h.block.rules
    (EnforcedIn out h.block ↔ ∃ r ∈ matched, ∀ s ∈ matched, r.name ∉ s.replacedRules) ∧
      (matched ≠ [] →
        (∀ r, ¬Relation.TransGen (Replaces (h.ctx method keys cost) h.block.rules) r r) →
        EnforcedIn out h.block) := by
  intro out matched
  obtain ⟨scope, -, -, hsnap⟩ := compile_accepted hfree
  obtain ⟨authored, -, hblock⟩ := exists_of_mem_right hsnap.blocks (hit_block_mem hh)
  have hknown : ∀ s ∈ h.block.rules, s.behavior ∈ [Model.Behavior.enforce, .shadow, .bypass] := by
    intro s hs
    obtain ⟨r, -, hrule⟩ := exists_of_mem_right hblock.rules hs
    exact hrule.known
  have hiff : EnforcedIn out h.block ↔
      ∃ r ∈ matched, ∀ s ∈ matched, r.name ∉ s.replacedRules := by
    rw [enforcedIn_iff (snapshot_sound hsnap) hh, evalBlock, if_neg (by simp [hmode])]
    exact evalAll_enforced_iff hknown hbypass
  refine ⟨hiff, fun hne hacyclic => hiff.mpr ?_⟩
  obtain ⟨r, hr, hsource⟩ := exists_source hne hacyclic
  exact ⟨r, hr, fun s hs hname => hsource s hs ⟨hs, hr, hname⟩⟩

def tierPolicy (replaced : List Text) : Model.Policy :=
  { domain := ascii "shop"
    blocks := [
      { name := ascii "tiers"
        rules := [
          { name := ascii "gold", replacedRules := [ascii "silver"]
            rates := [⟨100, 60 * second, 0, []⟩] },
          { name := ascii "silver", replacedRules := replaced
            rates := [⟨10, 60 * second, 0, []⟩] }] }] }

theorem overrides_keep_enforcing_chain :
    let cands := candidates (compileShop (tierPolicy [])).1
      (ascii "/") (ascii "GET")
    cands.hits.length = 1 ∧ ∀ h ∈ cands.hits, EnforcedIn (cands.evaluate ∅ 1) h.block := by
  intro cands
  refine ⟨by decide +kernel, fun h hh => ?_⟩
  have hmode : ∀ h ∈ cands.hits, h.block.mode = .all := by decide +kernel
  have hbypass : ∀ h ∈ cands.hits, ∀ r ∈ h.block.rules, r.behavior = .bypass →
      ruleMatches (h.ctx (ascii "GET") ∅ 1) r = false := by decide +kernel
  have hmatched : ∀ h ∈ cands.hits,
      (enforcing (h.ctx (ascii "GET") ∅ 1) h.block.rules).length = 2 := by decide +kernel
  -- a rule that names another one is named by none
  have hchain : ∀ h ∈ cands.hits, ∀ r ∈ enforcing (h.ctx (ascii "GET") ∅ 1) h.block.rules,
      ∀ s ∈ enforcing (h.ctx (ascii "GET") ∅ 1) h.block.rules,
        s.replacedRules ≠ [] → s.name ∉ r.replacedRules := by decide +kernel
  refine (overrides_keep_enforcing (by decide +kernel) (ascii "/") (ascii "GET") ∅ 1 hh
    (hmode h hh) (hbypass h hh)).2 ?_ ?_
  · intro hnil
    have hlength := hmatched h hh
    rw [hnil] at hlength
    cases hlength
  · intro r hcycle
    obtain ⟨s, hfirst, -⟩ := Relation.TransGen.head'_iff.mp hcycle
    obtain ⟨u, -, hlast⟩ := Relation.TransGen.tail'_iff.mp hcycle
    exact hchain h hh u hlast.1 r hlast.2.1 (List.ne_nil_of_mem hfirst.2.2) hlast.2.2

/-- Two matching rules that replace each other leave nothing applied, although the
policy is accepted and no rule of it is a bypass. -/
theorem overrides_keep_enforcing_cycle :
    let compiled := compileShop (tierPolicy [ascii "gold"])
    let cands := candidates compiled.1 (ascii "/") (ascii "GET")
    blocking compiled.2 = false ∧
      cands.hits.map (fun h => (h.block.mode, h.block.rules.map fun r =>
        (r.name, r.behavior, ruleMatches (h.ctx (ascii "GET") ∅ 1) r))) =
          [(.all, [(ascii "gold", .enforce, true), (ascii "silver", .enforce, true)])] ∧
      cands.evaluate ∅ 1 = [] := by
  refine ⟨?_, ?_, ?_⟩
  · decide +kernel
  · decide +kernel
  · decide +kernel

end Snapshot

end Ratelimit.Engine
