import Ratelimit.Compile.Accepted
import Ratelimit.Management.BuiltKeys
import Ratelimit.Management.CounterLog
import Ratelimit.Management.Service

/-!
# Resets touch nothing they do not name

Under any schedule a batch of a bulk command deletes counters that its selection names, an
addressed reset those of its one rule, a preview none. Leaving the deletions of a call out of a
history changes no answer about the other counters.
-/
namespace Ratelimit.Management

open Library Records Compile Store Memory

section Selections

/-- A counter, by the parts of its key, satisfies a selection. -/
structure Selects (snapshot : Snapshot) (sel : Selector) (counter : CounterKey) : Prop where
  rule : sel.ruleIDs = [] ∨ ∃ id ∈ sel.ruleIDs, NamesRule id counter.block counter.rule
  algorithm : sel.algorithm = [] ∨ counter.algorithm = sel.algorithm
  period : sel.periodSeconds = 0 ∨ counter.periodSeconds = sel.periodSeconds
  axes : ∀ name wanted, sel.axes.lookup name = some wanted → ∃ ref, ∃ j : ℕ, ∃ value,
    rateIndex snapshot counter.ratePrefix = some ref ∧ ref.rule.counters[j]? = some name ∧
      counter.axes[j]? = some value ∧ value ∈ wanted

theorem selects_empty (snapshot : Snapshot) (counter : CounterKey) : Selects snapshot .empty counter where
  rule := Or.inl rfl
  algorithm := Or.inl rfl
  period := Or.inl rfl
  axes := by
    intro name wanted h
    cases h

theorem lookup_namedAxes {counter : CounterKey} {names : List Text}
    {axes : Finmap fun _ : Text => Text} {name value : Text}
    (h : counter.namedAxes names = .ok axes) (hvalue : axes.lookup name = some value) :
    ∃ j : ℕ, names[j]? = some name ∧ counter.axes[j]? = some value := by
  unfold CounterKey.namedAxes at h
  split_ifs at h
  obtain rfl := Except.ok.inj h
  rcases mem_of_lookup_foldl_insert hvalue with hmem | hempty
  · obtain ⟨j, hj⟩ := List.mem_iff_getElem?.mp hmem
    obtain ⟨hname, haxis⟩ := List.getElem?_zip_eq_some.mp hj
    exact ⟨j, hname, haxis⟩
  · cases hempty

theorem considered_selects {s : Sweep} {k : Text} {c : CounterCandidate}
    (hwide : s.command.domainWide = true → s.command.selector = .empty) (hc : s.consider k = some c) :
    ∃ counter, parseCounterKey s.scope k = .ok counter ∧
      Selects s.snapshot s.command.selector counter := by
  obtain ⟨counter, hparse, hselected, hcandidate⟩ := consider_eq_some_iff.mp hc
  refine ⟨counter, hparse, ?_⟩
  by_cases hdomain : s.command.domainWide = true
  · rw [hwide hdomain]
    exact selects_empty _ _
  · obtain ⟨hrule, halgorithm, hperiod⟩ :=
      key_selected (parseCounterKey_ok hparse).2 (hselected.resolve_left hdomain)
    refine ⟨hrule, halgorithm, hperiod, fun name wanted hwanted => ?_⟩
    rcases hcandidate with ⟨-, haxes, -⟩ | ⟨ref, axes, hindex, hnamed, haxes, -⟩
    · rw [haxes] at hwanted
      cases hwanted
    · have hmatches := List.all_eq_true.mp (haxes.resolve_left hdomain) (name, wanted)
        (mem_entries.mpr hwanted)
      dsimp only at hmatches
      split at hmatches
      · cases hmatches
      · next value hvalue =>
        obtain ⟨j, hname, haxis⟩ := lookup_namedAxes hnamed hvalue
        exact ⟨ref, j, value, hindex, hname, haxis, of_decide_eq_true hmatches⟩

/-- A key the engine built decodes in the scope it was built for, and in no other. -/
theorem scope_of_parse {s : Key.Scope} {id : Key.Ident} {a : Algo.Algorithm} {w : Algo.Window}
    {axes : List Text} {counter : CounterKey}
    (h : parseCounterKey s (Key.bucket (Key.ratePrefix id a w) axes) = .ok counter) : id.scope = s := by
  obtain ⟨rest, hrest⟩ := (parseCounterKey_ok h).1
  rw [Key.bucket_ratePrefix] at hrest
  exact (Key.domainPrefix_append_inj hrest).1.symm

end Selections

def serveFrom (std : Stdlib) (db : Db) (cs : Schedule) : Replicas :=
  steps redis (handle std) (World.init db) cs

/-- The key refused, at cost 1, in the peek right before the batch. -/
def RefusedInBatch (t : Replica) (b : Batch) (k : Text) : Prop :=
  ∃ τ v buckets verdicts bucket verdict, τ ++ [⟨.batch b, v⟩] <+: t.transcript ∧
    τ.getLast? = some ⟨.peek buckets, some (.ok verdicts)⟩ ∧
    (bucket, verdict) ∈ buckets.zip verdicts ∧ bucket.key = k ∧ bucket.cost = 1 ∧
    verdict.allowed = false

/-- What an addressed reset deletes: counters of the named rule, under the named
values, of the selected windows. -/
structure Addresses (std : Stdlib) (a : Addressing) (c : ResetCommand) (r : Addressed) : Prop where
  selector : parseSelector std a.call.query = .ok c.selector
  dryRun : r.dryRun = c.dryRun
  keys : ∃ block rule, c.selector.ruleIDs = [c.id] ∧ Strings.split c.id (byte '/') = [block, rule] ∧
    findRule a.served.snapshot block rule = some (c.block, c.rule) ∧
    (∀ name wanted, c.selector.axes.lookup name = some wanted → name ∈ c.rule.counters) ∧
    ∃ values, List.Forall₂ (fun name value => c.selector.axes.lookup name = some [value])
        c.rule.counters values ∧
      ∀ k ∈ r.delete, ∃ algorithm window, (⟨algorithm, window⟩ : Algo.Algorithm × Algo.Window) ∈
          c.rule.rates.map (fun rate => (rate.algorithm, rate.window)) ∧
        (c.selector.algorithm = [] ∨ Strings.toLowerAscii algorithm.name = c.selector.algorithm) ∧
        (c.selector.periodSeconds = 0 ∨
          window.period.tdiv Algo.second = c.selector.periodSeconds) ∧
        k = Key.bucket (Key.ratePrefix ⟨a.call.scope, block, rule⟩ algorithm window) values

/-- Everything the deletions of a schedule touch, from a content of the store. -/
structure TouchesNamed (std : Stdlib) (db : Db) (w : Replicas) : Prop where
  bulk : ∀ pre i late o b v post, ∀ t : Replica, ∀ a,
    w.history = pre ++ .ran ⟨i, late, o, .batch b, v⟩ :: post → w.threads[i]? = some t →
    t.call = .bulk a.call → admitBulk std a.call = .ok a →
    (a.command.dryRun = true → b.delete = []) ∧ ∀ k ∈ b.delete,
      (∃ counter, parseCounterKey a.scope k = .ok counter ∧
        Selects a.served.snapshot a.command.selector counter) ∧
      (a.command.selector.limitedOnly = true → RefusedInBatch t b k)
  /-- For a key that the engine built this reads on what it was built from. -/
  built : ∀ pre i late o b v post, ∀ t : Replica, ∀ a,
    w.history = pre ++ .ran ⟨i, late, o, .batch b, v⟩ :: post → w.threads[i]? = some t →
    t.call = .bulk a.call → admitBulk std a.call = .ok a →
    ∀ id algorithm window axes, id.block ≠ [] → id.rule ≠ [] →
      Algo.check algorithm window = .ok () →
      Key.bucket (Key.ratePrefix id algorithm window) axes ∈ b.delete →
      id.scope = a.scope ∧ Selects a.served.snapshot a.command.selector
        ⟨ruleID id.block id.rule, id.block, id.rule, Strings.toLowerAscii algorithm.name,
          window.period.tdiv Algo.second, Key.ratePrefix id algorithm window, axes⟩
  reset : ∀ pre i late o r v post, ∀ t : Replica, ∀ a p,
    w.history = pre ++ .ran ⟨i, late, o, .reset r, v⟩ :: post → w.threads[i]? = some t →
    t.call = .reset a.call → address std a.call = .ok a →
    a.served.snapshot = (compile a.call.scope.namespaceName a.call.scope.domain p).1 →
    ∃ c, a.judge std = .ok c ∧ Addresses std a c r
  preview : ∀ pre i late o r v post, w.history = pre ++ .ran ⟨i, late, o, .reset r, v⟩ :: post →
    r.dryRun = true →
    (redis.apply (redis.replay db pre) (.ran ⟨i, late, o, .reset r, v⟩)).counters =
      (redis.replay db pre).counters
  logged : ∀ i, w.server.counters =
    (runs storeCall db.counters ((counterLog i db w.history).map Prod.snd)).1
  frame : ∀ i, ApartFrom [] (counterLog i db w.history) →
    let log := counterLog i db w.history
    answersUnmarked log (runs (callOff (deletedIn log)) db.counters (log.map Prod.snd)).2 =
      (runs (callOff (deletedIn log)) db.counters ((log.filter fun x => !x.1).map Prod.snd)).2

section Addressed

theorem findRule_some {snapshot : Snapshot} {block rule : Text} {b : Block} {r : Rule}
    (h : findRule snapshot block rule = some (b, r)) :
    b ∈ snapshot.blocks ∧ b.name = block ∧ r ∈ b.rules ∧ r.name = rule := by
  obtain ⟨b', hb', hfind⟩ := List.exists_of_findSome?_eq_some h
  obtain ⟨r', hr', heq⟩ := Option.map_eq_some_iff.mp hfind
  obtain ⟨rfl, rfl⟩ := Prod.mk.inj heq
  obtain ⟨hmem, hname⟩ := List.mem_filter.mp hb'
  have hrule := List.find?_some hr'
  exact ⟨hmem, of_decide_eq_true hname, List.mem_of_find?_eq_some hr', of_decide_eq_true hrule⟩

theorem orderedValues_ok {id : Text} {axes : Finmap fun _ : Text => List Text}
    {names values : List Text} (h : orderedValues id axes names = .ok values) :
    List.Forall₂ (fun name value => axes.lookup name = some [value]) names values := by
  induction names generalizing values with
  | nil =>
    obtain rfl := Except.ok.inj h
    exact .nil
  | cons name names ih =>
    unfold orderedValues at h
    split at h
    · next value hvalue =>
      obtain ⟨rest, hrest, h⟩ := passed_iff.mp h
      obtain rfl := Except.ok.inj h
      exact .cons hvalue (ih hrest)
    · cases h

theorem resolveAxes_ok {id : Text} {declared values : List Text}
    {axes : Finmap fun _ : Text => List Text} (h : resolveAxes id declared axes = .ok values) :
    (∀ name wanted, axes.lookup name = some wanted → name ∈ declared) ∧
      List.Forall₂ (fun name value => axes.lookup name = some [value]) declared values := by
  unfold resolveAxes at h
  split at h
  · cases h
  · next hdeclared =>
    split_ifs at h
    refine ⟨fun name wanted hwanted => ?_, orderedValues_ok h⟩
    have hall := List.find?_eq_none.mp hdeclared (name, wanted) (mem_entries.mpr hwanted)
    simpa using hall

theorem mem_keys {c : ResetCommand} {k : Text} (h : k ∈ c.keys) :
    ∃ rate ∈ c.rule.rates, c.windowSelected rate = true ∧ k = c.bucketOf rate := by
  have hmem : k ∈ (c.rule.rates.filter c.windowSelected).map c.bucketOf := by
    simpa [ResetCommand.keys, sortedUnique] using h
  obtain ⟨rate, hrate, rfl⟩ := List.mem_map.mp hmem
  obtain ⟨hin, hselected⟩ := List.mem_filter.mp hrate
  exact ⟨rate, hin, hselected, rfl⟩

theorem windowSelected_iff {c : ResetCommand} {rate : Rate} (h : c.windowSelected rate = true) :
    (c.selector.algorithm = [] ∨ Strings.toLowerAscii rate.algorithm.name = c.selector.algorithm) ∧
      (c.selector.periodSeconds = 0 ∨
        rate.window.period.tdiv Algo.second = c.selector.periodSeconds) := by
  unfold ResetCommand.windowSelected at h
  split_ifs at h
  constructor <;> tauto

theorem addresses_of_sends {std : Stdlib} {a : Addressing} {c : ResetCommand} {τ : Seen}
    {r : Addressed} (hsound : a.served.snapshot.Sound a.call.scope) (h : a.Sends std c τ r) :
    Addresses std a c r := by
  obtain ⟨hresolves, -⟩ := judgeReset_ok std h.judged
  obtain ⟨block, rule, hsplit, hfind⟩ := hresolves.rule
  obtain ⟨hnamed, hvalues⟩ := resolveAxes_ok hresolves.ordered
  obtain ⟨hblock, rfl, hrule, rfl⟩ := findRule_some hfind
  refine ⟨hresolves.selector, h.dryRun, _, _, hresolves.ruleIDs, split_of_splitID hsplit, hfind, hnamed,
    c.ordered, hvalues, fun k hk => ?_⟩
  obtain ⟨rate, hrate, hselected, rfl⟩ := mem_keys (h.delete k hk)
  obtain ⟨halgorithm, hperiod⟩ := windowSelected_iff hselected
  refine ⟨rate.algorithm, rate.window, List.mem_map_of_mem hrate, halgorithm, hperiod, ?_⟩
  rw [← (((hsound.blocks _ hblock).rules _ hrule).rates rate hrate).keyPrefix_eq]
  rfl

end Addressed

section Runs

variable {std : Stdlib} {db : Db} {cs : Schedule} {pre post : List Ev} {i : ℕ} {late : Bool} {o : Oracle}
  {t : Replica}

theorem traced_from (std : Stdlib) (db : Db) (cs : Schedule) :
    Traced redis db (Allows std) (Gives std) (serveFrom std db cs) := traced_steps obeys_handle db cs

theorem replied_from {ev : Ev} (h : (serveFrom std db cs).history = pre ++ ev :: post) :
    Replied (redis.replay db pre) ev := by
  cases ev with
  | env e => trivial
  | ran e => exact ((traced_from std db cs).ran pre e post h).1

theorem genuine_from : GenuineFrom db (serveFrom std db cs).history :=
  genuineFrom_of_replied fun _ _ _ h => replied_from h

theorem deletable_of_ran {b : Batch} {v : WriteVerdict} {a : Admitted}
    (h : (serveFrom std db cs).history = pre ++ .ran ⟨i, late, o, .batch b, v⟩ :: post)
    (ht : (serveFrom std db cs).threads[i]? = some t) (hcall : t.call = .bulk a.call)
    (hadmits : admitBulk std a.call = .ok a) : ∃ τ v', τ ++ [⟨.batch b, v'⟩] <+: t.transcript ∧
      (a.command.dryRun = true → b.delete = []) ∧ ∀ k ∈ b.delete, Deletable a.sweep τ k := by
  obtain ⟨-, t', ht', -, τ, hτ, -⟩ := (traced_from std db cs).ran _ _ _ h
  obtain rfl := Option.some.inj (ht.symm.trans ht')
  have hallowed := (traced_from std db cs).sent i t ht τ _ hτ
  rw [hcall] at hallowed
  obtain ⟨a', hadmits', -, -, -, hdry, hdelete⟩ := hallowed
  obtain rfl := Except.ok.inj (hadmits.symm.trans hadmits')
  exact ⟨τ, _, hτ, hdry, hdelete⟩

theorem selector_of_wide {a : Admitted} (hadmits : admitBulk std a.call = .ok a)
    (hwide : a.command.domainWide = true) : a.command.selector = .empty := by
  obtain ⟨request, -, hparse⟩ := (admitBulk_ok hadmits).2.command
  exact parseBulk_wide hparse hwide

theorem deletable_selects {a : Admitted} {τ : Seen} {k : Text} (hadmits : admitBulk std a.call = .ok a)
    (h : Deletable a.sweep τ k) : ∃ counter, parseCounterKey a.scope k = .ok counter ∧
      Selects a.served.snapshot a.command.selector counter := by
  obtain ⟨c, hc, -⟩ := h
  have hwide : a.sweep.command.domainWide = true → a.sweep.command.selector = .empty :=
    selector_of_wide hadmits
  have hselects := considered_selects hwide hc
  exact hselects

theorem bucket_of_candidate {s : Sweep} {k : Text} {c : CounterCandidate} {b : Bucket}
    (hc : s.consider k = some c) (hb : c.bucket = some b) : b.key = k ∧ b.cost = 1 := by
  obtain ⟨ref, -, rfl⟩ := Option.map_eq_some_iff.mp hb
  exact ⟨consider_key hc, rfl⟩

theorem reset_sends {r : Addressed} {v : ResetVerdict} {a : Addressing}
    (h : (serveFrom std db cs).history = pre ++ .ran ⟨i, late, o, .reset r, v⟩ :: post)
    (ht : (serveFrom std db cs).threads[i]? = some t) (hcall : t.call = .reset a.call)
    (haddress : address std a.call = .ok a) : ∃ c τ, a.Sends std c τ r := by
  obtain ⟨-, t', ht', -, τ, hτ, -⟩ := (traced_from std db cs).ran _ _ _ h
  obtain rfl := Option.some.inj (ht.symm.trans ht')
  have hallowed := (traced_from std db cs).sent i t ht τ _ hτ
  rw [hcall] at hallowed
  obtain ⟨a', haddress', -, c, hsends⟩ := hallowed
  obtain rfl := Except.ok.inj (haddress.symm.trans haddress')
  exact ⟨c, τ, hsends⟩

theorem counters_of_preview {r : Addressed} {v : ResetVerdict}
    (h : (serveFrom std db cs).history = pre ++ .ran ⟨i, late, o, .reset r, v⟩ :: post)
    (hdry : r.dryRun = true) :
    (redis.apply (redis.replay db pre) (.ran ⟨i, late, o, .reset r, v⟩)).counters =
      (redis.replay db pre).counters := by
  rw [(aside_apply (replied_from h)).2]
  cases v with
  | replayed => rfl
  | done n => simp [counterOp, hdry]

theorem answers_without_reset (i : ℕ)
    (hapart : ApartFrom [] (counterLog i db (serveFrom std db cs).history)) :
    let log := counterLog i db (serveFrom std db cs).history
    answersUnmarked log (runs (callOff (deletedIn log)) db.counters (log.map Prod.snd)).2 =
      (runs (callOff (deletedIn log)) db.counters ((log.filter fun x => !x.1).map Prod.snd)).2 := by
  have hclock := @monotone_log _ i db (@genuine_from std db cs) db.now le_rfl
  have hmarked : ∀ x ∈ counterLog i db (serveFrom std db cs).history, x.1 = true →
      ∃ ks, x.2.op = .reset ks ∧ ks ⊆ deletedIn (counterLog i db (serveFrom std db cs).history) := by
    intro x hx hmark
    obtain ⟨ks, hop⟩ := reset_of_marked x hx hmark
    exact ⟨ks, hop, subset_deletedIn hx hmark hop⟩
  exact answers_without_deletions _ hclock hmarked (List.nil_subset _) hapart fun k _ => rfl

/-- Resets delete what they name, previews delete nothing, and the other counters answer as if a reset
had not run where no decision charges one of them together with a counter that is gone. -/
theorem resets_touch_named (std : Stdlib) (db : Db) (cs : Schedule) :
    TouchesNamed std db (serveFrom std db cs) := by
  constructor
  · intro pre i late o b v post t a h ht hcall hadmits
    obtain ⟨τ, v', hτ, hdry, hdelete⟩ := deletable_of_ran h ht hcall hadmits
    refine ⟨hdry, fun k hk => ⟨deletable_selects hadmits (hdelete k hk), fun hfilter => ?_⟩⟩
    obtain ⟨c, hc, hlimited⟩ := hdelete k hk
    obtain ⟨buckets, verdicts, bucket, verdict, hlast, hzip, hbucket, hrefused⟩ := hlimited hfilter
    obtain ⟨hkey, hcost⟩ := bucket_of_candidate hc hbucket
    exact ⟨τ, v', buckets, verdicts, bucket, verdict, hτ, hlast, hzip, hkey, hcost, hrefused⟩
  · intro pre i late o b v post t a h ht hcall hadmits id algorithm window axes hblock hrule hcheck hmem
    obtain ⟨τ, v', -, -, hdelete⟩ := deletable_of_ran h ht hcall hadmits
    obtain ⟨counter, hparse, hselects⟩ := deletable_selects hadmits (hdelete _ hmem)
    have hscope : id.scope = a.scope := scope_of_parse hparse
    rw [← hscope, parse_of_period axes hblock hrule (parseInt_period hcheck)] at hparse
    obtain rfl := Except.ok.inj hparse
    exact ⟨hscope, hselects⟩
  · intro pre i late o r v post t a p h ht hcall haddress hcompiled
    obtain ⟨c, τ, hsends⟩ := reset_sends h ht hcall haddress
    have hsound : a.served.snapshot.Sound a.call.scope := by
      rw [hcompiled]
      exact compile_sound_in _ _
    exact ⟨c, hsends.judged, addresses_of_sends hsound hsends⟩
  · intro pre i late o r v post h hdry
    exact counters_of_preview h hdry
  · intro i
    rw [(traced_from std db cs).server_eq]
    exact counters_log i genuine_from
  · exact fun i hapart => answers_without_reset i hapart

def tenBucket (key : Text) (cost : ℤ) : Bucket :=
  ⟨key, .gcraID, ⟨10, 60 * Algo.second, 10⟩, false, cost⟩

def ordersCounter : Text := ascii "rl:v1:\x7bprod/shop\x7d:orders/tenant:gcra:60:"

def paymentsCounter : Text := ascii "rl:v1:\x7bprod/shop\x7d:payments/tenant:gcra:60:"

def mixedDecision : Schedule :=
  [.env (.traffic (.decide [tenBucket ordersCounter 10])),
    .spawn (.reset (resetOrders (policyShop (tenantPolicy .unset []) (ascii "v1"))))] ++
    List.replicate 4 (.serve 0 idle) ++
    [.env (.traffic (.decide [tenBucket ordersCounter 1, tenBucket paymentsCounter 1])),
      .env (.traffic (.peek [tenBucket paymentsCounter 1]))]

/-- The other counter was charged, which it would not have been without the reset. -/
theorem resets_touch_named_mixed :
    let log := counterLog 0 .empty (serveFrom sampleStdlib .empty mixedDecision).history
    deletedIn log = [ordersCounter] ∧
      ((runs (callOff [ordersCounter]) ∅ (log.map Prod.snd)).2.getLast?.map fun answer =>
        answer.map (List.map fun p => (p.1.key, p.2.remaining))) =
          some (some [(paymentsCounter, 9)]) ∧
      ((runs (callOff [ordersCounter]) ∅ ((log.filter fun x => !x.1).map Prod.snd)).2.getLast?.map
        fun answer => answer.map (List.map fun p => (p.1.key, p.2.remaining))) =
          some (some [(paymentsCounter, 10)]) := by
  decide +kernel

end Runs

end Ratelimit.Management
