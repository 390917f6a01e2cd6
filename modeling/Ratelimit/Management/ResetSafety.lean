import Ratelimit.Library.Sorting
import Ratelimit.Management.FirstAnswer
import Ratelimit.Management.ResetFrame

/-!
# The parameters that keep an addressed reset small

`dryRun`, `limited`, `expectedRuleSetVersion`, `algorithm` and `period` each make a reset do
less. The readers of the query take the first value and treat an empty one as no value, so what
a caller mentions is in effect where the first value is not empty and the others say the same.
-/
namespace Ratelimit.Management

open Library Records Compile Store

def Query.given (q : Query) (name : String) : List Text := (q.lookup (ascii name)).getD []

theorem Query.get_mem {q : Query} {name : String} (h : q.given name ≠ []) :
    q.get name ∈ q.given name := by
  change (q.given name).headD [] ∈ q.given name
  cases hgiven : q.given name with
  | nil => exact absurd hgiven h
  | cons v vs => exact List.mem_cons_self

/-- Every mentioned parameter holds of the command, for every value it was given. -/
structure InEffect (std : Stdlib) (q : Query) (c : ResetCommand) : Prop where
  dryRun : q.given "dryRun" ≠ [] → c.dryRun = true
  limited : q.given "limited" ≠ [] → c.selector.limitedOnly = true
  version : ∀ v ∈ q.given "expectedRuleSetVersion", v ≠ [] ∧ c.expectedVersion = v
  algorithm : ∀ v ∈ q.given "algorithm", v ≠ [] ∧ c.selector.algorithm = std.toLower v
  period : ∀ v ∈ q.given "period",
    parsePeriod std v (ascii "period") = .ok c.selector.periodSeconds

/-- What the query alone must look like: no parameter starts with an empty value,
and repetitions agree. -/
structure Decisive (std : Stdlib) (q : Query) : Prop where
  dryRun : q.given "dryRun" ≠ [] → q.get "dryRun" ≠ []
  limited : q.given "limited" ≠ [] → q.get "limited" ≠ []
  version : ∀ v ∈ q.given "expectedRuleSetVersion", v ≠ [] ∧ q.get "expectedRuleSetVersion" = v
  algorithm : ∀ v ∈ q.given "algorithm",
    v ≠ [] ∧ std.toLower (q.get "algorithm") = std.toLower v
  period : ∀ v ∈ q.given "period", q.get "period" ≠ [] ∧
    parsePeriod std (q.get "period") (ascii "period") = parsePeriod std v (ascii "period")

section Readers

variable {std : Stdlib} {q : Query} {name : String}

/-- A parameter whose only value is `true` is set exactly where its first value is
not empty. -/
theorem parseEnumTrue_iff {b : Bool} (h : parseEnumTrue q name = .ok b) :
    b = true ↔ q.get name ≠ [] := by
  unfold parseEnumTrue at h
  extract_lets raw at h
  split_ifs at h with hempty htrue
  · obtain rfl := Except.ok.inj h
    simpa using hempty
  · obtain rfl := Except.ok.inj h
    simpa using hempty

theorem parsePeriod_pos {raw field : Text} {seconds : ℤ}
    (h : parsePeriod std raw field = .ok seconds) : 0 < seconds := by
  unfold parsePeriod at h
  split at h
  · split_ifs at h with hpos
    obtain rfl := Except.ok.inj h
    exact not_le.mp hpos
  · split at h
    · cases h
    · next period _ =>
      split_ifs at h with hbad
      obtain rfl := Except.ok.inj h
      rw [not_or, not_le, not_not] at hbad
      have hdvd : Algo.second ∣ period := Int.dvd_of_tmod_eq_zero hbad.2
      obtain ⟨n, rfl⟩ := hdvd
      have hsecond : (0 : ℤ) < Algo.second := by decide
      rw [Int.mul_tdiv_cancel_left n hsecond.ne']
      exact pos_of_mul_pos_right hbad.1 hsecond.le

/-- What each part of a selection takes from the query. -/
structure Selector.ReadFrom (std : Stdlib) (q : Query) (s : Selector) : Prop where
  ruleIDs : s.ruleIDs = sortedUnique (q.given "ruleId")
  algorithm : s.algorithm =
    if q.get "algorithm" = [] then [] else std.toLower (q.get "algorithm")
  period : (if q.get "period" = [] then .ok 0
    else parsePeriod std (q.get "period") (ascii "period")) = .ok s.periodSeconds
  limited : parseEnumTrue q "limited" = .ok s.limitedOnly
  axes : parseAxes (entries q) = .ok s.axes

theorem parseSelector_reads {selector : Selector} (h : parseSelector std q = .ok selector) :
    selector.ReadFrom std q := by
  obtain ⟨-, -, h⟩ := passed_iff.mp h
  extract_lets algorithm period rest at h
  have hread : ∃ seconds, (if period = [] then .ok 0 else parsePeriod std period (ascii "period")) =
      .ok seconds ∧ rest seconds = .ok selector := by
    split_ifs at h ⊢ with hempty
    · exact ⟨0, rfl, h⟩
    · exact passed_iff.mp h
  obtain ⟨seconds, hseconds, h⟩ := hread
  obtain ⟨limitedOnly, hlimited, h⟩ := passed_iff.mp h
  obtain ⟨axes, haxes, h⟩ := passed_iff.mp h
  obtain rfl := Except.ok.inj h
  exact ⟨rfl, rfl, hseconds, hlimited, haxes⟩

end Readers

section Commands

variable {std : Stdlib} {snapshot : Snapshot} {q : Query} {c : ResetCommand}

theorem algorithms_hold_iff (h : Resolves std snapshot q c) :
    (∀ v ∈ q.given "algorithm", v ≠ [] ∧ c.selector.algorithm = std.toLower v) ↔
      ∀ v ∈ q.given "algorithm", v ≠ [] ∧ std.toLower (q.get "algorithm") = std.toLower v := by
  by_cases hgiven : q.given "algorithm" = []
  · simp [hgiven]
  have hfirst := Query.get_mem hgiven
  have hread := (parseSelector_reads h.selector).algorithm
  constructor <;> intro hall <;> have hne := (hall _ hfirst).1
  · rwa [hread, if_neg hne] at hall
  · rwa [hread, if_neg hne]

theorem periods_hold_iff (h : Resolves std snapshot q c) :
    (∀ v ∈ q.given "period", parsePeriod std v (ascii "period") = .ok c.selector.periodSeconds) ↔
      ∀ v ∈ q.given "period", q.get "period" ≠ [] ∧
        parsePeriod std (q.get "period") (ascii "period") = parsePeriod std v (ascii "period") := by
  by_cases hgiven : q.given "period" = []
  · simp [hgiven]
  have hfirst := Query.get_mem hgiven
  have hread := (parseSelector_reads h.selector).period
  constructor
  · intro hall v hv
    have hpos := parsePeriod_pos (hall _ hfirst)
    refine ⟨fun hempty => ?_, (hall _ hfirst).trans (hall v hv).symm⟩
    rw [if_pos hempty] at hread
    exact hpos.ne (Except.ok.inj hread)
  · intro hall v hv
    rw [if_neg (hall v hv).1] at hread
    exact (hall v hv).2.symm.trans hread

/-- A command that was parsed does what its query mentions exactly where the query
is decisive. -/
theorem inEffect_iff (h : Resolves std snapshot q c) : InEffect std q c ↔ Decisive std q := by
  have hdryRun := parseEnumTrue_iff h.dryRun
  have hlimited := parseEnumTrue_iff (parseSelector_reads h.selector).limited
  have hversion := h.expectedVersion
  constructor
  · rintro ⟨dryRun, limited, version, algorithm, period⟩
    refine ⟨fun hgiven => hdryRun.mp (dryRun hgiven), fun hgiven => hlimited.mp (limited hgiven),
      ?_, (algorithms_hold_iff h).mp algorithm, (periods_hold_iff h).mp period⟩
    rwa [hversion] at version
  · rintro ⟨dryRun, limited, version, algorithm, period⟩
    refine ⟨fun hgiven => hdryRun.mpr (dryRun hgiven), fun hgiven => hlimited.mpr (limited hgiven),
      ?_, (algorithms_hold_iff h).mpr algorithm, (periods_hold_iff h).mpr period⟩
    rwa [hversion]

end Commands

section Deletions

variable {std : Stdlib} {cs : Schedule} {pre post : List Ev} {e : Entry Reply Oracle} {t : Replica}

/-- Nothing that a call with a first value under `dryRun` sends deletes a counter. -/
theorem no_deletion_of_dryRun {call : ResetCall} (hdryRun : call.query.get "dryRun" ≠ [])
    (h : (serve std cs).history = pre ++ .ran e :: post)
    (ht : (serve std cs).threads[e.owner]? = some t) (hcall : t.call = .reset call)
    (ks : List Text) : counterOp (.ran e) ≠ some (.reset ks) := by
  intro hdeletes
  obtain ⟨-, t', ht', -, τ, hτ, -⟩ := (serve_traced std cs).ran _ _ _ h
  obtain rfl := Option.some.inj (ht.symm.trans ht')
  have hallowed := (serve_traced std cs).sent e.owner t ht τ _ hτ
  rw [hcall] at hallowed
  obtain ⟨a, haddress, hpermits⟩ := hallowed
  obtain ⟨owner, late, o, r, v⟩ := e
  cases r with
  | reset r =>
    obtain ⟨-, c, hsends⟩ := hpermits
    obtain rfl := address_call haddress
    have hset : c.dryRun = true :=
      (parseEnumTrue_iff (judgeReset_ok std hsends.judged).1.dryRun).mpr hdryRun
    have hpreview : r.dryRun = true := hsends.dryRun.trans hset
    cases v <;> simp [counterOp, hpreview] at hdeletes
  | batch b => exact hpermits
  | _ => simp [counterOp] at hdeletes

end Deletions

/-- A query is refused, or every parameter it mentions is in effect exactly where
its first values are not empty and repetitions agree. A call whose `dryRun` starts
with a value deletes nothing, in any schedule. -/
theorem reset_parameters_in_effect_iff (std : Stdlib) (snapshot : Snapshot) (q : Query)
    (c : ResetCommand) (h : parseReset std snapshot q = .ok c) :
    (InEffect std q c ↔ Decisive std q) ∧
      (Decisive std q → q.given "dryRun" ≠ [] → ∀ (cs : Schedule) pre e post t call,
        (serve std cs).history = pre ++ .ran e :: post →
        (serve std cs).threads[e.owner]? = some t → t.call = .reset call → call.query = q →
        ∀ ks, counterOp (.ran e) ≠ some (.reset ks)) := by
  refine ⟨inEffect_iff (parseReset_resolves h), ?_⟩
  rintro hdecisive hgiven cs pre e post t call hhistory ht hcall rfl ks
  exact no_deletion_of_dryRun (hdecisive.dryRun hgiven) hhistory ht hcall ks

section Sample

/-- The reset of a rule without axes, with a value of `dryRun` that is empty or not. -/
def dryRunReset (empty : Bool) : ResetCall :=
  { resetOrders (ordersShop (ascii "v1")) with
    query := (Finmap.singleton (ascii "ruleId") [ascii "orders/tenant"]).insert (ascii "dryRun")
      [if empty then [] else ascii "true"] }

theorem dryRunReset_names (empty : Bool) :
    checkQueryNames (dryRunReset empty).query resetParams = .ok () := by
  rw [checkQueryNames, sort_eq_sortedBy]
  cases empty <;> decide +kernel

theorem dryRunReset_selector (empty : Bool) : parseSelector sampleStdlib (dryRunReset empty).query =
    .ok ⟨[ascii "orders/tenant"], [], 0, ∅, false⟩ := by
  have haxes : parseAxes (entries (dryRunReset empty).query) = .ok ∅ := by
    rw [entries, sort_eq_sortedBy]
    cases empty <;> decide +kernel
  rw [parseSelector]
  simp only [haxes]
  cases empty <;> decide +kernel

theorem dryRunReset_parsed (empty : Bool) : ∃ c,
    parseReset sampleStdlib (ordersShop (ascii "v1")).snapshot (dryRunReset empty).query = .ok c ∧
      c.dryRun = !empty ∧ c.keys = [ordersCounter] := by
  have htest : (match parseReset sampleStdlib (ordersShop (ascii "v1")).snapshot
      (dryRunReset empty).query with
    | .ok c => decide (c.dryRun = !empty ∧ c.keys = [ordersCounter])
    | .error _ => false) = true := by
    rw [parseReset, dryRunReset_names, dryRunReset_selector]
    cases empty <;> decide +kernel
  split at htest
  · next c hparsed => exact ⟨c, hparsed, of_decide_eq_true htest⟩
  · cases htest

def spentOrders : Db :=
  { Db.empty with counters := (Memory.storeDecide 0 ∅ [tenBucket ordersCounter 10]).1 }

theorem reset_parameters_in_effect_iff_preview : ∃ c,
    parseReset sampleStdlib (ordersShop (ascii "v1")).snapshot (dryRunReset false).query = .ok c ∧
      (InEffect sampleStdlib (dryRunReset false).query c ↔
        Decisive sampleStdlib (dryRunReset false).query) ∧ c.dryRun = true := by
  obtain ⟨c, hparsed, hdryRun, -⟩ := dryRunReset_parsed false
  exact ⟨c, hparsed, (reset_parameters_in_effect_iff _ _ _ c hparsed).1, hdryRun⟩

/-- An empty `dryRun` executes: the step that the command sends drops the counter. -/
theorem empty_dryRun_deletes : ∃ c,
    parseReset sampleStdlib (ordersShop (ascii "v1")).snapshot (dryRunReset true).query = .ok c ∧
      (dryRunReset true).query.given "dryRun" = [[]] ∧ c.dryRun = false ∧
      (spentOrders.counters.lookup ordersCounter).isSome = true ∧
      ∀ answer, (resetScript spentOrders
        ⟨ordersRecord, c.hash sampleStdlib, c.keys, c.dryRun, answer⟩).1.counters = ∅ := by
  obtain ⟨c, hparsed, hdryRun, hkeys⟩ := dryRunReset_parsed true
  refine ⟨c, hparsed, by decide +kernel, hdryRun, by decide +kernel, fun answer => ?_⟩
  rw [hdryRun, hkeys]
  rcases @aside_reset spentOrders
      ⟨ordersRecord, c.hash sampleStdlib, [ordersCounter], false, answer⟩ with
    ⟨_, _, _, hreplayed⟩ | ⟨-, haside⟩
  · cases congrArg Prod.snd hreplayed
  · have hdropped : Memory.storeReset spentOrders.counters [ordersCounter] = ∅ := by decide +kernel
    exact (Prod.mk.inj haside).2.trans hdropped

end Sample

end Ratelimit.Management
