import Ratelimit.Store.ScriptRange

/-!
# A call of the shared store stays in range

Both passes of the script, the arguments before it and the verdicts after it, and what
the call leaves in Redis for the next one.
-/
namespace Ratelimit.Redis

open Algo Store Library Memory

section Passes

variable {lua : Lua} {now : ℕ} {db : Db} {b : Bucket} {bs : List Bucket}

theorem offsets53_eq {base : ℤ} {n : ℕ} (hbase : 1 ≤ base) (hlast : base + n < 2 ^ 53) :
    offsets53 base n = some () := by
  induction n with
  | zero => rfl
  | succ n ih =>
    rw [offsets53, Range.add_eq (holds_exactDouble.mpr (by omega))]
    exact ih (by omega)

theorem positions53_eq {stride : ℕ} {i : ℤ} (hstride : 1 ≤ stride) (hi : 1 ≤ i)
    (hfew : i * stride + 1 < 2 ^ 53) : positions53 stride i = some () := by
  have hlast : (i - 1) * stride = i * stride - stride := by ring
  have hle : i ≤ i * stride := le_mul_of_one_le_right (by omega) (by exact_mod_cast hstride)
  have hskipped : 0 ≤ (i - 1) * (stride : ℤ) := mul_nonneg (by omega) (by omega)
  simp (disch := omega) only [positions53, Range.sub, Range.mul, Range.add, exactDouble_fit,
    Option.bind_eq_bind, Option.bind_some]
  exact offsets53_eq (by omega) (by omega)

/-- A bucket alone keeps to the contract of its own algorithm and period. -/
theorem contracted_of_sized {a : Algorithm} (hb : Sized b) (ha : b.algorithm = a.id) :
    Contracted (fun _ => a) (fun _ => b.window.period) b where
  algorithm := ha
  checked := hb.checked a ha
  period := rfl
  requests := hb.requests
  burst := hb.burst
  cost := by
    have := hb.cost_le
    omega

theorem numbers_hold {a : Algorithm} (hb : Sized b) (ha : b.algorithm = a.id) :
    ∀ n ∈ (argsOf b).numbers, exactDouble.Holds n := by
  have hcheck := hb.checked a ha
  have hreq := one_le_requests hcheck
  obtain ⟨hperlo, hperhi⟩ := accepted_period hcheck
  obtain ⟨hemlo, hemhi⟩ := accepted_emission hcheck
  have hreq31 := hb.requests
  have hburst31 := hb.burst
  have hcost := hb.one_le_cost
  have hcost9 := hb.cost_le
  cases a with
  | gcra =>
    obtain ⟨htaulo, htauhi⟩ := tauMicros_le hcheck
    have hburst := (gcra_bounds hcheck).1
    unfold maxTauMicros at htauhi
    simp only [argsOf_gcra ha, Args.numbers, List.mem_cons, List.not_mem_nil, or_false,
      forall_eq_or_imp, forall_eq, holds_exactDouble]
    omega
  | fixedWindow =>
    simp only [argsOf_fixedWindow ha, Args.numbers, List.mem_cons, List.not_mem_nil, or_false,
      forall_eq_or_imp, forall_eq, holds_exactDouble]
    omega

/-- Everything that Redis holds can be read at the time `now`. -/
def AllLegible (now : ℤ) (db : Db) : Prop := ∀ k v, db.lookup k = some v → Legible now v.value

theorem AllLegible.state {now : ℤ} (h : AllLegible now db) (k t : Text)
    (ht : (db.lookup k).map Stored.value = some t) : Legible now t := by
  obtain ⟨v, hv, rfl⟩ := Option.map_eq_some_iff.mp ht
  exact h k v hv

section Row

variable (hlua : Doubles lua) (hclock : now < clockEnd) (hdb : AllLegible now db)
include hlua hclock hdb

theorem evalRow53_eq {a : Algorithm} (hb : Sized b) (ha : b.algorithm = a.id) :
    evalRow53 lua now ((db.lookup b.key).map Stored.value) (argsOf b) =
        some (rowOf lua now db b) ∧
      RowBounds lua now (rowOf lua now db b) := by
  have hcheck := hb.checked a ha
  have hreq := one_le_requests hcheck
  obtain ⟨hperlo, hperhi⟩ := accepted_period hcheck
  unfold rowOf
  cases a with
  | gcra =>
    rw [argsOf_gcra ha]
    exact gcraRow53_eq hlua hclock (hdb.state b.key) (accepted_emission hcheck).1 rfl
      (gcra_bounds hcheck).1 (tauMicros_le hcheck).2 hb.one_le_cost
  | fixedWindow =>
    rw [argsOf_fixedWindow ha]
    have hperiod : 1 ≤ periodMicros b.window := by omega
    exact fixedRow53_eq hlua hclock (hdb.state b.key) hperiod hperhi hreq hb.requests
      hb.one_le_cost hb.cost_le

theorem rows53_eq (hbs : ∀ b ∈ bs, Sized b) (hreg : Registered bs) {i : ℤ} (hi : 1 ≤ i)
    (hfew : (i + bs.length) * 6 < 2 ^ 53) :
    rows53 lua now i ((bs.map Bucket.key).map fun k => (db.lookup k).map Stored.value)
      (bs.map argsOf) = some (bs.map (rowOf lua now db)) := by
  induction bs generalizing i with
  | nil => rfl
  | cons b bs ih =>
    obtain ⟨hb, hbs⟩ := List.forall_mem_cons.mp hbs
    obtain ⟨⟨a, ha⟩, hreg⟩ := List.forall_mem_cons.mp hreg
    rw [List.length_cons] at hfew
    have hnext : exactDouble.add i 1 = some (i + 1) := Range.add_eq (holds_exactDouble.mpr (by omega))
    have hrest := ih hbs hreg (by omega : 1 ≤ i + 1) (by omega)
    simp only [List.map_cons, rows53, positions53_eq (by decide : 1 ≤ 6) hi (by omega),
      positions53_eq (by decide : 1 ≤ 5) hi (by omega), if_pos (numbers_hold hb ha),
      (evalRow53_eq hlua hclock hdb hb ha).1, hnext, hrest, Option.bind_eq_bind, Option.bind_some]
    rfl

end Row

theorem microsDuration64_eq {us : ℤ} (hlo : -1 ≤ us) (hhi : us ≤ 2 * maxTauMicros) :
    microsDuration64 us = some (microsDuration us) := by
  unfold microsDuration64 microsDuration
  split_ifs with hneg
  · rfl
  · unfold maxTauMicros at hhi
    refine Range.mul_eq (holds_int64.mpr ?_)
    unfold microsecond
    omega

/-- A reply that the store turns into verdicts without an overflow. -/
def Convertible (reply : List ℤ) : Prop := readVerdicts64 reply = some (readVerdicts reply)

theorem convertible_plain {row : Row} (h : RowBounds lua now row) {rest : List ℤ}
    (hrest : Convertible rest) : Convertible (row.plain ++ rest) := by
  have hretry := microsDuration64_eq h.retry.1 h.retry.2
  have hreset := microsDuration64_eq (by have := h.reset.1; omega) h.reset.2
  unfold Convertible at hrest ⊢
  simp only [Row.plain, List.cons_append, List.nil_append, readVerdicts64, readVerdicts, hretry,
    hreset, hrest, Option.bind_eq_bind, Option.bind_some]
  rfl

theorem convertible_patched {c : Charged} (hlo : 0 < c.sc) (hhi : c.sc ≤ 2 * maxTauMicros)
    {rest : List ℤ} (hrest : Convertible rest) : Convertible (c.patched ++ rest) := by
  have hretry : microsDuration64 (-1) = some (microsDuration (-1)) := rfl
  have hreset := microsDuration64_eq (by omega) hhi
  unfold Convertible at hrest ⊢
  simp only [Charged.patched, List.cons_append, List.nil_append, readVerdicts64, readVerdicts,
    hretry, hreset, hrest, Option.bind_eq_bind, Option.bind_some]
  rfl

theorem convertible_plains {rows : List Row} (h : ∀ row ∈ rows, RowBounds lua now row) :
    Convertible (rows.flatMap Row.plain) := by
  induction rows with
  | nil => rfl
  | cons row rows ih =>
    obtain ⟨hrow, hrows⟩ := List.forall_mem_cons.mp h
    rw [List.flatMap_cons]
    exact convertible_plain hrow (ih hrows)

theorem convertible_map {e : Except Message (List ℤ)} {f : List ℤ → List ℤ}
    (h : ∀ r, e = .ok r → Convertible (f r)) (reply : List ℤ) (hreply : e.map f = .ok reply) :
    Convertible reply := by
  cases e with
  | error msg => cases hreply
  | ok r =>
    obtain rfl := Except.ok.inj hreply
    exact h r rfl

/-- What a pass over the buckets answers, and what it leaves. -/
structure InRange (now : ℤ) (done : Db × Except Message (List ℤ)) : Prop where
  legible : AllLegible now done.1
  convertible : ∀ reply, done.2 = .ok reply → Convertible reply

theorem AllLegible.insert {now : ℤ} (h : AllLegible now db) {k : Text} {v : Stored}
    (hv : Legible now v.value) : AllLegible now (db.insert k v) := by
  intro k' v' hlookup
  by_cases hk : k' = k
  · subst hk
    rw [Finmap.lookup_insert, Option.some.injEq] at hlookup
    exact hlookup ▸ hv
  · rw [Finmap.lookup_insert_of_ne _ hk] at hlookup
    exact h k' v' hlookup

theorem commitRows53_eq (hlua : Doubles lua) (hdb : AllLegible now db) {rows : List (Text × Row)}
    (hrows : ∀ p ∈ rows, RowBounds lua now p.2) {i : ℤ} (hi : 1 ≤ i)
    (hfew : (i + rows.length) * 6 < 2 ^ 53) :
    commitRows53 lua now i db rows = some (commitRows lua now db rows) ∧
      InRange now (commitRows lua now db rows) := by
  induction rows generalizing i db with
  | nil =>
    refine ⟨rfl, hdb, fun reply hreply => ?_⟩
    obtain rfl := Except.ok.inj hreply
    rfl
  | cons p rest ih =>
    obtain ⟨key, row⟩ := p
    obtain ⟨hrow, hrest⟩ := List.forall_mem_cons.mp hrows
    rw [List.length_cons] at hfew
    have hnext : exactDouble.add i 1 = some (i + 1) := Range.add_eq (holds_exactDouble.mpr (by omega))
    cases hcharged : row.charged with
    | none =>
      obtain ⟨htail, hlegible, hconvertible⟩ := ih hdb hrest (by omega : 1 ≤ i + 1) (by omega)
      simp only [commitRows53, commitRows, hnext, hcharged, htail, Option.bind_eq_bind,
        Option.bind_some]
      exact ⟨rfl, hlegible, convertible_map fun r hr => convertible_plain hrow (hconvertible r hr)⟩
    | some c =>
      obtain ⟨hpos, hle, hstate⟩ := hrow.charged c hcharged
      obtain ⟨hpx0, -⟩ := ceil_div_bounds hpos
      have hpx : lua.ceilDiv c.sc 1000 = -(-c.sc / 1000) := by
        unfold maxTauMicros at hle
        exact lua.ceilDiv_exact (by rw [Within, hlua.limit]; omega) (by decide)
          (by rw [hlua.limit]; decide)
      have hceil : exactDouble.ceilQuot c.sc 1000 = some (-(-c.sc / 1000)) := by
        unfold maxTauMicros at hle
        exact Range.ceilQuot_eq (by decide) (holds_exactDouble.mpr (by omega))
      obtain ⟨htail, hlegible, hconvertible⟩ := ih
        (hdb.insert (k := key) (v := ⟨c.state lua, now + 1000 * -(-c.sc / 1000)⟩) hstate) hrest
        (by omega : 1 ≤ i + 1) (by omega)
      simp only [commitRows53, commitRows, hnext, hcharged, hpx, hceil, htail, Option.bind_eq_bind,
        Option.bind_some, positions53_eq (by decide : 1 ≤ 5) hi (by omega),
        if_neg (not_le.mpr hpx0)]
      exact ⟨rfl, hlegible,
        convertible_map fun r hr => convertible_patched hpos hle (hconvertible r hr)⟩

end Passes

section Run

variable {lua : Lua} {now : ℕ} {db : Db} {b : Bucket} {bs : List Bucket}

theorem bucketArgs64_eq (hb : Sized b) : bucketArgs64 b = some (bucketArgs b) := by
  unfold bucketArgs64 bucketArgs
  cases ha : b.algorithm with
  | gcraID =>
    have hcheck := hb.checked .gcra ha
    simp only [accepted_emission64 hcheck, accepted_tau64 hcheck, Option.bind_eq_bind,
      Option.bind_some]
    rfl
  | fixedWindowID =>
    rw [accepted_period64 (hb.checked .fixedWindow ha)]
    rfl
  | unregistered code free => rfl

theorem allArgs64_eq (hbs : ∀ b ∈ bs, Sized b) : allArgs64 bs = some (allArgs bs) := by
  induction bs with
  | nil => rfl
  | cons b bs ih =>
    obtain ⟨hb, hbs⟩ := List.forall_mem_cons.mp hbs
    simp only [allArgs64, allArgs, bucketArgs64_eq hb, ih hbs, Option.bind_eq_bind,
      Option.bind_some]
    cases bucketArgs b with
    | error msg => rfl
    | ok args => cases allArgs bs <;> rfl

theorem registered_of_allArgs {args : List Text} (h : allArgs bs = .ok args) : Registered bs := by
  induction bs generalizing args with
  | nil => exact fun b hb => absurd hb List.not_mem_nil
  | cons b bs ih =>
    rw [allArgs] at h
    cases hb : bucketArgs b with
    | error msg => cases hb ▸ h
    | ok own =>
      cases hrest : allArgs bs with
      | error msg => cases hb ▸ hrest ▸ h
      | ok rest =>
        refine List.forall_mem_cons.mpr ⟨?_, ih hrest⟩
        unfold bucketArgs at hb
        cases ha : b.algorithm with
        | gcraID => exact ⟨.gcra, rfl⟩
        | fixedWindowID => exact ⟨.fixedWindow, rfl⟩
        | unregistered code free =>
          rw [ha] at hb
          cases hb

theorem time53_eq (hclock : now < clockEnd) :
    exactDouble.mul (now / 1000000 : ℕ) 1000000 = some (((now / 1000000 : ℕ) : ℤ) * 1000000) ∧
      exactDouble.add (((now / 1000000 : ℕ) : ℤ) * 1000000) (now % 1000000 : ℕ) =
        some (now : ℤ) := by
  unfold clockEnd at hclock
  refine ⟨Range.mul_eq (holds_exactDouble.mpr (by omega)), ?_⟩
  rw [Range.add_eq (holds_exactDouble.mpr (by omega))]
  congr 1
  omega

variable (hlua : Doubles lua) (hclock : now < clockEnd) (hdb : AllLegible now db)
  (hbs : ∀ b ∈ bs, Sized b) (hfew : bs.length ≤ 2 ^ 50)
include hlua hclock hdb hbs hfew

theorem script53_eq (mode : Text) {args : List Text} (hargs : allArgs bs = .ok args) :
    script53 lua now db (bs.map Bucket.key) (mode :: args) =
        some (script lua now db (bs.map Bucket.key) (mode :: args)) ∧
      AllLegible now (script lua now db (bs.map Bucket.key) (mode :: args)).1 ∧
      ∀ reply, (script lua now db (bs.map Bucket.key) (mode :: args)).2 = .ok reply →
        Convertible reply.tail := by
  have hlimit := limit_of_clock hlua hclock
  have hreg := registered_of_allArgs hargs
  obtain ⟨args', hargs', hread⟩ := readArgs_allArgs lua
    (fun b hb => (hreg b hb).elim fun a ha => ⟨_, _, contracted_of_sized (hbs b hb) ha⟩)
    (fun b hb => (hbs b hb).one_le_cost) (by omega)
  obtain rfl := Except.ok.inj (hargs'.symm.trans hargs)
  have hbounds : ∀ b ∈ bs, RowBounds lua now (rowOf lua now db b) := by
    intro b hb
    obtain ⟨a, ha⟩ := hreg b hb
    exact (evalRow53_eq hlua hclock hdb (hbs b hb) ha).2
  have hrows := rows53_eq hlua hclock hdb hbs hreg le_rfl (by omega)
  have hpairs : ∀ p ∈ bs.map (fun b => (b.key, rowOf lua now db b)), RowBounds lua now p.2 :=
    List.forall_mem_map.mpr hbounds
  obtain ⟨hcommit, hlegible, hconvertible⟩ := commitRows53_eq hlua hdb hpairs le_rfl
    (by rw [List.length_map]; omega)
  obtain ⟨hwhole, htime⟩ := time53_eq hclock
  have hzip : (bs.map Bucket.key).zip (bs.map (rowOf lua now db)) =
      bs.map fun b => (b.key, rowOf lua now db b) := List.zip_map' ..
  -- Step by step: one call of `simp` over both scripts makes a term the kernel is slow on.
  unfold script53 script
  rw [time_eq hlimit, List.length_map, List.tail_cons, hread, hwhole, Option.bind_eq_bind,
    Option.bind_some, htime, Option.bind_eq_bind, Option.bind_some]
  dsimp only
  rw [zipWith_rows, hrows, Option.bind_eq_bind, Option.bind_some, hzip, hcommit, Option.bind_some]
  split_ifs with hadmitted
  · refine ⟨rfl, hlegible, fun reply hreply => ?_⟩
    cases hdone : (commitRows lua now db (bs.map fun b => (b.key, rowOf lua now db b))).2 with
    | error msg =>
      rw [hdone] at hreply
      cases hreply
    | ok r =>
      rw [hdone] at hreply
      obtain rfl := Except.ok.inj hreply
      exact hconvertible r hdone
  · refine ⟨rfl, hdb, fun reply hreply => ?_⟩
    obtain rfl := Except.ok.inj hreply
    have hplain : ∀ row ∈ bs.map (rowOf lua now db), RowBounds lua now row :=
      List.forall_mem_map.mpr hbounds
    exact convertible_plains hplain

theorem run53_eq (mode : Text) :
    run53 lua now db mode bs = some (run lua now db mode bs) ∧
      AllLegible now (run lua now db mode bs).1 := by
  unfold run53 run
  cases guardBuckets bs with
  | error msg => exact ⟨rfl, hdb⟩
  | ok u =>
    by_cases hempty : bs = []
    · simp only [if_pos hempty]
      exact ⟨trivial, hdb⟩
    simp only [if_neg hempty, allArgs64_eq hbs, Option.bind_eq_bind, Option.bind_some]
    cases hargs : allArgs bs with
    | error msg => exact ⟨rfl, hdb⟩
    | ok args =>
      obtain ⟨hscript, hlegible, hconvertible⟩ := script53_eq hlua hclock hdb hbs hfew mode hargs
      simp only [hscript, Option.bind_some]
      cases hdone : (script lua now db (bs.map Bucket.key) (mode :: args)).2 with
      | error msg => exact ⟨rfl, hlegible⟩
      | ok reply =>
        have hparse : parseReply64 reply bs.length = some (parseReply reply bs.length) := by
          unfold parseReply64 parseReply
          split_ifs
          · rfl
          · rw [hconvertible reply hdone]
            rfl
        simp only [hparse, Option.bind_some]
        exact ⟨rfl, hlegible⟩

end Run

section Calls

variable {lua : Lua} {db db' : Db}

theorem AllLegible.later {now now' : ℤ} (h : AllLegible now db) (hle : now ≤ now') :
    AllLegible now' db := fun k v hv => (h k v hv).later hle

theorem AllLegible.of_dropped {now : ℤ} (h : AllLegible now db)
    (hdrop : ∀ k v, db'.lookup k = some v → db.lookup k = some v) : AllLegible now db' :=
  fun k v hv => h k v (hdrop k v hv)

theorem storeCall53_eq (hlua : Doubles lua) {s : Served} (hdb : AllLegible s.now db)
    (hclock : s.now < clockEnd) (hbs : ∀ b ∈ s.call.op.buckets, Sized b)
    (hfew : s.call.op.buckets.length ≤ 2 ^ 50) :
    storeCall53 lua db s = some (storeCall lua db s) ∧ AllLegible s.now (storeCall lua db s).1 := by
  obtain ⟨⟨now, op⟩, gone⟩ := s
  have hexpired : AllLegible now (expire now gone db) := by
    apply hdb.of_dropped
    intro k v hv
    rw [expire, lookup_eraseWhere] at hv
    split_ifs at hv
    exact hv
  cases op with
  | decide bs => exact run53_eq hlua hclock hexpired hbs hfew _
  | peek bs => exact run53_eq hlua hclock hexpired hbs hfew _
  | reset ks =>
    refine ⟨rfl, hexpired.of_dropped fun k v hv => ?_⟩
    simp only [storeCall, lookup_dbReset] at hv
    split_ifs at hv
    exact hv

end Calls

end Ratelimit.Redis
