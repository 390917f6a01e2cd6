import Ratelimit.Management.ResetFrame

/-!
# What a sweep by key reaches

A sweep that selects by rule, algorithm and period needs the key of a counter alone. Of the
counters that the selection names, one walk to the end of the scan drops those whose key it
could pair with its rule.
-/
namespace Ratelimit.Management

open Library Records Compile Store Memory

section Keys

/-- The key and the enforced rate of its prefix, if there is one, agree about how
many axes there are. -/
def Fits (snapshot : Snapshot) (b : BuiltKey) : Prop :=
  ∀ ref, rateIndex snapshot b.ratePrefix = some ref → b.axes.length = ref.rule.counters.length

variable {s : Sweep} {b : BuiltKey} {sel : Selector} {snapshot : Snapshot}

theorem matchesRuleID_of_names {id : Text} (h : NamesRule id b.id.block b.id.rule) :
    matchesRuleID id b.counter = true := by
  unfold matchesRuleID
  rcases h with hsplit | hsplit
  · rw [hsplit]
    exact decide_eq_true rfl
  · rw [hsplit, split_of_pair hsplit]
    simp [BuiltKey.counter, ruleID, ascii]

theorem matches_of_selects (h : Selects snapshot sel b.counter) : sel.matches b.counter = true := by
  unfold Selector.matches
  have halgorithm : ¬(sel.algorithm ≠ [] ∧ b.counter.algorithm ≠ sel.algorithm) := by
    have := h.algorithm
    tauto
  have hperiod : ¬(sel.periodSeconds ≠ 0 ∧ b.counter.periodSeconds ≠ sel.periodSeconds) := by
    have := h.period
    tauto
  rw [if_neg halgorithm, if_neg hperiod]
  rcases h.rule with hall | ⟨id, hmem, hnames⟩
  · rw [if_pos hall]
  · rw [if_neg (List.ne_nil_of_mem hmem)]
    exact List.any_eq_true.mpr ⟨id, hmem, matchesRuleID_of_names hnames⟩

/-- The sweep takes up a counter it selects by key exactly where the key fits. -/
theorem considered_iff (hscope : b.id.scope = s.scope) (haxes : s.command.selector.axes = ∅)
    (hlimited : s.command.selector.limitedOnly = false)
    (hselects : Selects s.snapshot s.command.selector b.counter) :
    (s.consider b.key).isSome = true ↔ Fits s.snapshot b := by
  have hparse := b.parse_key
  rw [hscope] at hparse
  have hmatches := matches_of_selects hselects
  have hnone : ∀ axes, s.command.selector.matchesAxes axes = true := by
    intro axes
    refine List.all_eq_true.mpr fun e he => ?_
    rw [haxes] at he
    cases mem_entries.mp he
  unfold Sweep.consider Fits
  simp only [hparse, hmatches, hnone, haxes, hlimited]
  have hrate : b.counter.ratePrefix = b.ratePrefix := rfl
  rw [hrate]
  cases rateIndex s.snapshot b.ratePrefix with
  | none => simp
  | some ref =>
    by_cases hlength : b.axes.length = ref.rule.counters.length
    · have haxes : b.counter.axes.length = ref.rule.counters.length := hlength
      simp [CounterKey.namedAxes, haxes, hlength]
    · have haxes : b.counter.axes.length ≠ ref.rule.counters.length := hlength
      simp [CounterKey.namedAxes, haxes, hlength]

theorem scanPrefix_of_selects (hscope : b.id.scope = s.scope)
    (hselects : Selects s.snapshot s.command.selector b.counter) : s.scanPrefix <+: b.key := by
  unfold Sweep.scanPrefix
  split_ifs
  · exact (Key.domainPrefix_scopes _ _ _ _ _).mpr hscope.symm
  · exact scanPrefix_of_matches hscope (matches_of_selects hselects)

end Keys

section Walks

variable {std : Stdlib} {a : Admitted} {s : Sweep} {τ : Seen}

def isPeek : Req → Bool
  | .peek _ => true
  | _ => false

def Blind (_ : Seen) (r : Req) : Prop := isPeek r = false

theorem blind_commitBatch (hlimited : s.command.selector.limitedOnly = false) (w : Walker) :
    Obeys Blind (fun _ _ => True) τ (s.commitBatch w) := by
  unfold Sweep.commitBatch
  rw [obeys_ite, obeys_ite]
  refine ⟨fun _ => trivial, fun _ => ⟨fun htrue => ?_, fun _ => ?_⟩⟩
  · rw [hlimited] at htrue
    cases htrue
  · unfold Sweep.deleteBatch
    rw [obeys_ite]
    refine ⟨fun _ => trivial, fun _ => obeys_ask.mpr ⟨rfl, fun verdict => ?_⟩⟩
    rcases verdict with _ | (_ | _) <;> trivial

theorem blind_rule (hlimited : s.command.selector.limitedOnly = false) :
    WalkRule Blind s fun _ _ => True where
  clock _ := ⟨rfl, fun _ => trivial⟩
  scan _ _ := ⟨rfl, fun _ => trivial⟩
  pass _ := trivial
  take _ _ := trivial
  commit _ := (blind_commitBatch hlimited _).mono fun _ _ _ _ => trivial

theorem blind_run (hlimited : s.command.selector.limitedOnly = false) (deadline : ℤ) (fuel : ℕ)
    (cursor : Text) (w : Walker) :
    Obeys Blind (fun _ _ => True) τ (s.run deadline fuel cursor w) :=
  ((blind_rule hlimited).run deadline fuel cursor trivial).mono fun _ _ _ => trivial

end Walks

section Deletions

variable {db : Db} {h : List Ev} {k : Text}

/-- The event deletes counters or leaves them alone. -/
def Deletes (ev : Ev) : Prop := counterOp ev = none ∨ ∃ ks, counterOp ev = some (.reset ks)

def deletions (ev : Ev) : List Text := ((counterOp ev).map Op.deletions).getD []

theorem lookup_apply {ev : Ev} (hreply : Replied db ev) (hev : Deletes ev) :
    (redis.apply db ev).counters.lookup k =
      if k ∈ deletions ev then none else db.counters.lookup k := by
  rw [(aside_apply hreply).2]
  rcases hev with hop | ⟨ks, hop⟩
  · simp [deletions, hop]
  · simp [deletions, hop, Op.deletions, storeCall, lookup_storeReset]

/-- Where nothing but deletions happens, a counter is as it was or deleted. -/
theorem lookup_replay : ∀ {db : Db}, GenuineFrom db h → (∀ ev ∈ h, Deletes ev) →
    (redis.replay db h).counters.lookup k =
      if k ∈ h.flatMap deletions then none else db.counters.lookup k := by
  induction h with
  | nil => exact fun _ _ => rfl
  | cons ev h ih =>
    intro db hgenuine hdeletes
    have htail := ih hgenuine.2 fun ev' hev' => hdeletes ev' (List.mem_cons_of_mem _ hev')
    rw [lookup_apply hgenuine.1 (hdeletes ev List.mem_cons_self)] at htail
    change (redis.replay (redis.apply db ev) h).counters.lookup k = _
    rw [htail, List.flatMap_cons]
    by_cases hhere : k ∈ deletions ev <;> simp [hhere]

theorem now_le_replay : ∀ {db : Db}, GenuineFrom db h → db.now ≤ (redis.replay db h).now := by
  induction h with
  | nil => exact fun _ => le_rfl
  | cons ev h ih => exact fun hgenuine => (aside_apply hgenuine.1).1.trans (ih hgenuine.2)

theorem GenuineFrom.append {h' : List Ev} : ∀ {db : Db}, GenuineFrom db (h ++ h') →
    GenuineFrom db h ∧ GenuineFrom (redis.replay db h) h' := by
  induction h with
  | nil => exact fun hgenuine => ⟨trivial, hgenuine⟩
  | cons ev h ih =>
    intro db hgenuine
    obtain ⟨hh, hh'⟩ := ih hgenuine.2
    exact ⟨⟨hgenuine.1, hh⟩, hh'⟩

theorem live_throughout (hgenuine : GenuineFrom db h) (hdeletes : ∀ ev ∈ h, Deletes ev)
    (hlive : (live (redis.replay db h).now db.counters k).isSome = true)
    (hkept : k ∉ h.flatMap deletions) {pre : List Ev} (hpre : pre <+: h) :
    (live (redis.replay db pre).now (redis.replay db pre).counters k).isSome = true := by
  obtain ⟨post, rfl⟩ := hpre
  obtain ⟨hgenuine, hpost⟩ := hgenuine.append
  rw [List.flatMap_append, List.mem_append, not_or] at hkept
  have hlookup := @lookup_replay pre k _ hgenuine fun ev hev =>
    hdeletes ev (List.mem_append_left _ hev)
  rw [if_neg hkept.1] at hlookup
  rw [live_of_lookup hlookup]
  obtain ⟨e, he⟩ := Option.isSome_iff_exists.mp hlive
  obtain ⟨hentry, hdeadline⟩ := Option.filter_eq_some_iff.mp he
  have hnow := now_le_replay hpost
  rw [← replay_append] at hnow
  refine Option.isSome_iff_exists.mpr ⟨e, live_eq_some hentry ?_⟩
  have := of_decide_eq_true hdeadline
  omega

end Deletions

section Reach

/-- The store and the walks of a sweep after a schedule, from any content. -/
def sweeping (a : Admitted) (deadline : ℤ) (fuel : ℕ) (db : Db)
    (cs : List (Choice Unit Oracle Env)) : World Db Unit Reply Oracle Env (Walker × Option Fault) :=
  steps redis (fun _ => a.sweep.run deadline fuel [] .start) (World.init db) cs

def Quiet (h : List Ev) : Prop := ∀ op, .env (.traffic op) ∉ h

/-- What SCAN guarantees of a full iteration: a key that is there from its start to
its end is on one of its pages. -/
def ScansAll (db : Db) (h : List Ev) (pre : Text) (τ : Seen) : Prop :=
  ∀ k, pre <+: k → (∀ h', h' <+: h →
    (live (redis.replay db h').now (redis.replay db h').counters k).isSome = true) → k ∈ pagesIn τ

variable {std : Stdlib} {a : Admitted} {deadline : ℤ} {fuel : ℕ} {db : Db}
  {cs : List (Choice Unit Oracle Env)} {i : ℕ} {t : Thread Unit Reply (Walker × Option Fault)}
  {walker : Walker} {k : Text}

section Blindly

variable (std) (hlimited : a.command.selector.limitedOnly = false)
include std hlimited

theorem traced_sweeping :
    Traced redis db (fun _ τ r => Permits std a τ r ∧ Blind τ r) (fun _ τ r => Swept a.sweep τ r ∧ True)
      (sweeping a deadline fuel db cs) := by
  refine traced_steps (fun _ => Obeys.and ?_ (blind_run hlimited deadline fuel [] _)) db cs
  exact obeys_run deadline fuel (Fresh.walked ⟨rfl, rfl, rfl, rfl⟩) rfl

theorem genuine_sweeping : GenuineFrom db (sweeping a deadline fuel db cs).history := by
  refine genuineFrom_of_replied fun pre ev post hsplit => ?_
  cases ev with
  | env e => trivial
  | ran e => exact ((traced_sweeping std hlimited).ran pre e post hsplit).1

theorem deletes_sweeping (hquiet : Quiet (sweeping a deadline fuel db cs).history) {ev : Ev}
    (hev : ev ∈ (sweeping a deadline fuel db cs).history) :
    Deletes ev ∧ ∀ k ∈ deletions ev, (a.sweep.consider k).isSome = true := by
  have hnone : counterOp ev = none →
      Deletes ev ∧ ∀ k ∈ deletions ev, (a.sweep.consider k).isSome = true := by
    intro hop
    refine ⟨Or.inl hop, fun k hk => ?_⟩
    simp [deletions, hop] at hk
  cases ev with
  | env e =>
    cases e with
    | traffic op => exact absurd hev (hquiet op)
    | elapse d => exact hnone rfl
    | leaseLost k => exact hnone rfl
  | ran e =>
    obtain ⟨pre, post, hsplit⟩ := List.append_of_mem hev
    obtain ⟨j, late, o, r, v⟩ := e
    obtain ⟨-, t, ht, -, τ, hτ, -⟩ := (traced_sweeping std hlimited).ran pre _ post hsplit
    obtain ⟨hpermits, hblind⟩ := (traced_sweeping std hlimited).sent j t ht τ _ hτ
    cases r with
    | peek bs => cases hblind
    | reset r => cases hpermits
    | batch b =>
      cases v with
      | lost => exact hnone rfl
      | ok =>
        obtain ⟨-, -, -, -, hdelete⟩ := hpermits
        refine ⟨Or.inr ⟨b.delete, rfl⟩, fun k hk => ?_⟩
        obtain ⟨c, hc, -⟩ := hdelete k hk
        exact Option.isSome_iff_exists.mpr ⟨c, hc⟩
    | accept | commit | finalize | fields | holder | pttl | put | get | scan | clock =>
      exact hnone rfl

theorem deleted_of_dropped (ht : (sweeping a deadline fuel db cs).threads[i]? = some t)
    (hran : AllRan t.transcript) (hk : k ∈ dropped t.transcript) :
    k ∈ (sweeping a deadline fuel db cs).history.flatMap deletions := by
  obtain ⟨⟨b, v⟩, hb, hkb⟩ := List.mem_flatMap.mp hk
  obtain rfl : v = some .ok := hran _ hb
  obtain ⟨x, hx, hbatch⟩ := List.mem_filterMap.mp hb
  obtain ⟨r, v⟩ := x
  cases r with
  | batch b' =>
    obtain ⟨rfl, rfl⟩ := Prod.mk.inj (Option.some.inj hbatch)
    obtain ⟨pre, o, post, hsplit, -⟩ := (traced_sweeping std hlimited).executed_of_mem ht hx
    rw [hsplit]
    exact List.mem_flatMap.mpr ⟨_, List.mem_append_right _ List.mem_cons_self, hkb⟩
  | _ => cases hbatch

theorem live_sweeping (hquiet : Quiet (sweeping a deadline fuel db cs).history) (k : Text) :
    let w := sweeping a deadline fuel db cs
    live w.server.now w.server.counters k =
      if k ∈ w.history.flatMap deletions then none else live w.server.now db.counters k := by
  intro w
  have hlookup := @lookup_replay w.history k db (genuine_sweeping std hlimited) fun ev hev =>
    (deletes_sweeping std hlimited hquiet hev).1
  rw [← (traced_sweeping std hlimited).server_eq] at hlookup
  unfold live
  rw [hlookup]
  split_ifs <;> rfl

/-- The walk that came to the end of its scan deleted every candidate that outlasted it. -/
theorem candidate_deleted (hexecute : a.command.dryRun = false)
    (ht : (sweeping a deadline fuel db cs).threads[i]? = some t)
    (hdone : t.rest = .done (walker, none))
    (hquiet : Quiet (sweeping a deadline fuel db cs).history)
    (hscan : ScansAll db (sweeping a deadline fuel db cs).history a.sweep.scanPrefix t.transcript)
    (hpre : a.sweep.scanPrefix <+: k) (hconsider : (a.sweep.consider k).isSome = true)
    (hlive : (live (sweeping a deadline fuel db cs).server.now db.counters k).isSome = true) :
    k ∈ (sweeping a deadline fuel db cs).history.flatMap deletions := by
  by_contra hkept
  have hobeys := (traced_sweeping std hlimited).obeys i t ht
  rw [hdone] at hobeys
  obtain ⟨⟨hwalked, -, -⟩, -⟩ := hobeys
  rw [(traced_sweeping std hlimited).server_eq] at hlive
  have hpage : k ∈ pagesIn t.transcript := hscan k hpre fun h' hh' =>
    live_throughout (genuine_sweeping std hlimited)
      (fun ev hev => (deletes_sweeping std hlimited hquiet hev).1) hlive hkept hh'
  obtain ⟨c, hc⟩ := Option.isSome_iff_exists.mp hconsider
  have hdrops := hwalked.drops hlimited hexecute
  have hdropped : k ∈ dropped t.transcript := by
    rw [List.map_nil, List.append_nil] at hdrops
    rw [hdrops]
    exact List.mem_map.mpr ⟨c, List.mem_filterMap.mpr ⟨k, hpage, hc⟩, consider_key hc⟩
  exact hkept (deleted_of_dropped std hlimited ht hwalked.ran hdropped)

end Blindly

/-- A sweep by key that completes with no traffic leaves none of the counters it
selects, exactly if every one of them that outlasts the sweep fits the enforced
rate of its prefix. -/
theorem sweep_reaches_iff (std : Stdlib) (hexecute : a.command.dryRun = false)
    (haxes : a.command.selector.axes = ∅) (hlimited : a.command.selector.limitedOnly = false)
    (ht : (sweeping a deadline fuel db cs).threads[i]? = some t)
    (hdone : t.rest = .done (walker, none))
    (hquiet : Quiet (sweeping a deadline fuel db cs).history)
    (hscan : ScansAll db (sweeping a deadline fuel db cs).history a.sweep.scanPrefix t.transcript) :
    let w := sweeping a deadline fuel db cs
    (∀ b : BuiltKey, b.id.scope = a.scope →
        Selects a.served.snapshot a.command.selector b.counter →
        live w.server.now w.server.counters b.key = none) ↔
      ∀ b : BuiltKey, b.id.scope = a.scope →
        Selects a.served.snapshot a.command.selector b.counter →
        (live w.server.now db.counters b.key).isSome = true → Fits a.served.snapshot b := by
  intro w
  have hreads := live_sweeping std hlimited hquiet
  refine forall_congr' fun b => forall_congr' fun hscope => forall_congr' fun hselects => ?_
  have hconsidered : (a.sweep.consider b.key).isSome = true ↔ Fits a.served.snapshot b :=
    considered_iff hscope haxes hlimited hselects
  rw [hreads b.key]
  constructor
  · intro hgone hlive
    by_contra hmisfit
    have hkept : b.key ∉ w.history.flatMap deletions := by
      intro hmem
      obtain ⟨ev, hev, hk⟩ := List.mem_flatMap.mp hmem
      exact hmisfit (hconsidered.mp ((deletes_sweeping std hlimited hquiet hev).2 _ hk))
    rw [if_neg hkept] at hgone
    rw [hgone] at hlive
    cases hlive
  · intro hfits
    by_cases hlive : (live w.server.now db.counters b.key).isSome = true
    · rw [if_pos (candidate_deleted std hlimited hexecute ht hdone hquiet hscan
        (scanPrefix_of_selects hscope hselects) (hconsidered.mpr (hfits hlive)) hlive)]
    · rw [Option.not_isSome_iff_eq_none.mp hlive, ite_self]

def sweptShop (counters : List Text) : Admitted where
  call := shopCall (policyShop (tenantPolicy .unset counters) (ascii "v1"))
    ⟨none, ascii "shop", none, ascii "ct-0123456789ab"⟩ (ascii "k-1") 0
  served := policyShop (tenantPolicy .unset counters) (ascii "v1")
  command := ⟨.empty, true, false, ascii "ct-0123456789ab"⟩
  keys := commandKeys shopScope
    (recordKey sampleStdlib shopScope endpointResets (ascii "alice") (ascii "k-1"))
    ⟨.empty, true, false, ascii "ct-0123456789ab"⟩

theorem ordersKey_checked : Algo.check .gcra ⟨10, 60 * Algo.second, 10⟩ = .ok () := rfl

theorem tenant_ne_nil : ascii "tenant" ≠ [] := by decide

def ordersKey : BuiltKey :=
  ⟨⟨shopScope, ascii "orders", ascii "tenant"⟩, .gcra, ⟨10, 60 * Algo.second, 10⟩, [], orders_ne_nil,
    tenant_ne_nil, ordersKey_checked⟩

def ordersStore : Db :=
  { Db.empty with
    leases := Finmap.singleton (leaseKey shopScope) ⟨ascii "1f", 1000⟩
    counters := Finmap.singleton ordersCounter ⟨.gcraID, 0, 0, 0, 1000⟩ }

def ordersWalk : List (Choice Unit Oracle Env) :=
  .spawn () :: List.replicate 4 (.serve 0 ⟨([ordersCounter], []), 0⟩)

theorem live_ordersStore {now : ℤ} (h : (live now ordersStore.counters k).isSome = true) :
    k = ordersCounter := by
  by_contra hne
  have hnone : ordersStore.counters.lookup k = none := by
    refine Finmap.lookup_eq_none.mpr ?_
    simpa [ordersStore] using hne
  rw [live, hnone] at h
  cases h

theorem built_of_orders {b : BuiltKey} (hscope : b.id.scope = shopScope)
    (hkey : b.key = ordersCounter) : b.axes = [] ∧ b.ratePrefix = ordersKey.ratePrefix := by
  have hparse := b.parse_key
  rw [hscope, hkey] at hparse
  have horders : parseCounterKey shopScope ordersCounter = .ok ordersKey.counter :=
    ordersKey.parse_key
  have hcounter := Except.ok.inj (hparse.symm.trans horders)
  exact ⟨congrArg CounterKey.axes hcounter, congrArg CounterKey.ratePrefix hcounter⟩

def isRan : Ev → Bool
  | .ran _ => true
  | .env _ => false

theorem ordersWalk_completes {a : Admitted}
    (hdone : ((sweeping a 1000 3 ordersStore ordersWalk).threads[0]?.map fun t =>
      (t.rest.result.map Prod.snd, pagesIn t.transcript)) = some (some none, [ordersCounter]))
    (hran : (sweeping a 1000 3 ordersStore ordersWalk).history.all isRan = true) :
    Quiet (sweeping a 1000 3 ordersStore ordersWalk).history ∧ ∃ t walker,
      (sweeping a 1000 3 ordersStore ordersWalk).threads[0]? = some t ∧
      t.rest = .done (walker, none) ∧
      ScansAll ordersStore (sweeping a 1000 3 ordersStore ordersWalk).history a.sweep.scanPrefix
        t.transcript := by
  refine ⟨fun op hop => ?_, ?_⟩
  · cases List.all_eq_true.mp hran _ hop
  · obtain ⟨t, ht, hends⟩ := Option.map_eq_some_iff.mp hdone
    obtain ⟨hresult, hpages⟩ := Prod.mk.inj hends
    obtain ⟨⟨walker, fault⟩, hresult, rfl⟩ := Option.map_eq_some_iff.mp hresult
    refine ⟨t, walker, ht, Prog.result_eq_some.mp hresult, fun k _ hlive => ?_⟩
    have hk : k = ordersCounter := live_ordersStore (hlive [] List.nil_prefix)
    rw [hpages, hk]
    exact List.mem_singleton_self _

theorem sweep_reaches_orders :
    let w := sweeping (sweptShop []) 1000 3 ordersStore ordersWalk
    (live w.server.now ordersStore.counters ordersKey.key).isSome = true ∧
      ∀ b : BuiltKey, b.id.scope = shopScope →
        Selects (sweptShop []).served.snapshot .empty b.counter →
        live w.server.now w.server.counters b.key = none := by
  obtain ⟨hquiet, t, walker, ht, hdone, hscan⟩ :=
    @ordersWalk_completes (sweptShop []) (by decide +kernel) (by decide +kernel)
  have haxes : (sweptShop []).command.selector.axes = ∅ := rfl
  refine ⟨by decide +kernel,
    (sweep_reaches_iff sampleStdlib rfl haxes rfl ht hdone hquiet hscan).mpr ?_⟩
  intro b hscope _ hlive ref href
  obtain ⟨haxes, hrate⟩ := built_of_orders hscope (live_ordersStore hlive)
  have hrule : ∀ ref, rateIndex (sweptShop []).served.snapshot ordersKey.ratePrefix = some ref →
      ref.rule.counters = [] := by
    decide +kernel
  rw [hrate] at href
  rw [haxes, hrule ref href]

/-- The orders are limited by tenant now: the counter of the limit without axes is
selected, and it is still there after the sweep. -/
theorem sweep_reaches_redefined :
    let w := sweeping (sweptShop [ascii "tenant"]) 1000 3 ordersStore ordersWalk
    Quiet w.history ∧
      (∃ t walker, w.threads[0]? = some t ∧ t.rest = .done (walker, none) ∧
        ScansAll ordersStore w.history (sweptShop [ascii "tenant"]).sweep.scanPrefix t.transcript) ∧
      ordersKey.id.scope = (sweptShop [ascii "tenant"]).scope ∧
      Selects (sweptShop [ascii "tenant"]).served.snapshot
        (sweptShop [ascii "tenant"]).command.selector ordersKey.counter ∧
      (live w.server.now w.server.counters ordersKey.key).isSome = true := by
  obtain ⟨hquiet, hwalk⟩ :=
    @ordersWalk_completes (sweptShop [ascii "tenant"]) (by decide +kernel) (by decide +kernel)
  exact ⟨hquiet, hwalk, rfl, selects_empty _ _, by decide +kernel⟩

end Reach

end Ratelimit.Management
