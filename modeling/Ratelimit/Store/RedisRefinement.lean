import Ratelimit.Store.RedisScript

/-!
# The Redis store answers as the in-memory store does

Every key is mirrored: Redis holds what the in-memory store has there, or a
text whose entry has expired in memory. Calls keep the relation and answer
alike, so whole runs from empty state do.
-/
namespace Ratelimit.Redis

open Algo Store Library Memory

section Simulation

variable {lua : Lua} {now : ℕ} {m m' : Entries} {db db' : Db} {b : Bucket} {bs : List Bucket}
variable {k : Text} {a : Algorithm} {p : ℤ} {alg : Text → Algorithm} {period : Text → ℤ}

theorem Written.later {now now' : ℤ} {e : Entry} (h : Written a p now e) (hle : now ≤ now') :
    Written a p now' e where
  algorithm := h.algorithm
  gcra ha := by
    obtain ⟨hdead, h0, hlt⟩ := h.gcra ha
    exact ⟨hdead, h0, by omega⟩
  fixed ha := by
    obtain ⟨hdead, h0, hlt, hcount⟩ := h.fixed ha
    exact ⟨hdead, h0, by omega, hcount⟩

theorem Mirrors.later {now now' : ℤ} (h : Mirrors a p now k m db) (hle : now ≤ now') :
    Mirrors a p now' k m db where
  tagged := h.tagged
  absent hk := by
    rw [live_later hle, h.absent hk]
    rfl
  present v hv := by
    obtain ⟨e, hw, hvalue, hexpire, hlive⟩ := h.present v hv
    refine ⟨e, hw.later hle, hvalue, hexpire, ?_⟩
    rw [live_later hle, hlive]
    by_cases hlate : now' < e.deadline
    · have hnow : now < e.deadline := by omega
      simp [hlate, hnow, Option.filter]
    · by_cases hnow : now < e.deadline <;> simp [hlate, hnow, Option.filter]

/-- Redis may drop a key whose lifetime has ended, when its entry has expired as well. -/
theorem Mirrors.expire {gone : Text → Bool} (h : Mirrors a p now k m db) :
    Mirrors a p now k m (expire now gone db) := by
  refine ⟨h.tagged, fun hk => ?_, fun v hv => ?_⟩
  · cases hv : db.lookup k with
    | none => exact h.absent hv
    | some v =>
      rw [Redis.expire, lookup_eraseWhere, hv] at hk
      split_ifs at hk with hgone
      obtain ⟨e, -, -, hexpire, hlive⟩ := h.present v hv
      simp only [Option.any_some, Bool.and_eq_true, decide_eq_true_eq] at hgone
      rw [hlive, if_neg (by omega)]
  · rw [Redis.expire, lookup_eraseWhere] at hv
    split_ifs at hv
    exact h.present v hv

theorem Mirrors.of_same (h : Mirrors a p now k m db) (hdb : db'.lookup k = db.lookup k)
    (hm : m'.lookup k = m.lookup k ∨ m'.lookup k = none) (hlive : live now m' k = live now m k) :
    Mirrors a p now k m' db' where
  tagged := h.tagged.of_lookup hm
  absent hk := hlive.trans (h.absent (hdb ▸ hk))
  present v hv := by
    obtain ⟨e, hw, hvalue, hexpire, he⟩ := h.present v (hdb ▸ hv)
    exact ⟨e, hw, hvalue, hexpire, hlive.trans he⟩

theorem written_next (hb : Contracted alg period b) (hg : Guarded b)
    (h : Mirrors (alg b.key) ((period b.key).tdiv microsecond) now b.key m db)
    (hallow : (outcome now m b).allowed = true) :
    Written (alg b.key) ((period b.key).tdiv microsecond) now (outcome now m b).next := by
  have halg := hb.algorithm
  have hcheck := hb.checked
  have htag : TaggedAt b.algorithm b.key m := halg ▸ h.tagged
  have hper : (period b.key).tdiv microsecond = periodMicros b.window := by
    rw [periodMicros, hb.period]
  rw [hper] at h ⊢
  refine ⟨?_, fun ha => ?_, fun ha => ?_⟩
  · rw [outcome_next_algorithm halg hallow, halg]
  · rw [ha] at halg hcheck h
    obtain ⟨hlo, -⟩ := arrival_bounds h
    have htau := (tauMicros_le hcheck).2
    have hemission := one_le_emissionMicros (one_le_requests hcheck) (one_le_periodMicros hcheck)
    have hpos : 0 ≤ emissionMicros b.window * b.cost :=
      mul_nonneg (by omega) (by have := hg.1; omega)
    rw [outcome_of_gcra halg, htag.held_eq_live] at hallow ⊢
    obtain ⟨hburst, hdepth⟩ := evalGCRA_allowed_iff.mp hallow
    rw [evalGCRA_next hburst]
    refine ⟨rfl, ?_, ?_⟩
    · dsimp only
      omega
    · dsimp only
      omega
  · rw [ha] at halg hcheck h
    have hp := one_le_periodMicros hcheck
    have hcount : 0 ≤ counted (live now m b.key) (windowStart now (periodMicros b.window)) ∧
        counted (live now m b.key) (windowStart now (periodMicros b.window)) < 2 ^ 31 :=
      counted_bounds h
    have hcost := hg.1
    have hreq := hb.requests
    rw [outcome_of_fixedWindow halg, htag.held_eq_live] at hallow ⊢
    have hleft := evalFixed_allowed_iff.mp hallow
    refine ⟨rfl, windowStart_nonneg hp, windowStart_le hp, ?_, ?_⟩
    · dsimp only [evalFixed]
      omega
    · dsimp only [evalFixed]
      omega

theorem Mirrors.of_charged (hb : Contracted alg period b) (hg : Guarded b)
    (h : Mirrors (alg b.key) ((period b.key).tdiv microsecond) now b.key m db)
    (hallow : (outcome now m b).allowed = true)
    (hm : m'.lookup b.key = some (outcome now m b).next)
    (hdb : Holds db' b.key (outcome now m b).next) :
    Mirrors (alg b.key) ((period b.key).tdiv microsecond) now b.key m' db' := by
  have hw := written_next hb hg h hallow
  obtain ⟨expireAt, hstored, hexpire⟩ := hdb
  refine ⟨fun e he => ?_, fun hk => ?_, fun v hv => ?_⟩
  · rw [hm, Option.some.injEq] at he
    exact he ▸ hw.algorithm
  · simp [hstored] at hk
  · rw [hstored, Option.some.injEq] at hv
    subst hv
    refine ⟨_, hw, rfl, hexpire, ?_⟩
    rw [live, hm]
    simp [Option.filter]

/-- The simulation relation: every key is mirrored. -/
def MirrorsAll (alg : Text → Algorithm) (period : Text → ℤ) (now : ℤ) (m : Entries) (db : Db) :
    Prop :=
  ∀ k, Mirrors (alg k) ((period k).tdiv microsecond) now k m db

theorem registered_of_contracted (hbs : ∀ b ∈ bs, Contracted alg period b) : Registered bs :=
  fun b hb => ⟨alg b.key, (hbs b hb).algorithm⟩

theorem mirrorsAll_decide (hbs : ∀ b ∈ bs, Contracted alg period b)
    (h : MirrorsAll alg period now m db) (hlimit : (now : ℤ) + 2 * maxTauMicros < lua.limit) :
    (run lua now db (ascii "decide") bs).2 = (storeDecide now m bs).2 ∧
      MirrorsAll alg period now (storeDecide now m bs).1
        (run lua now db (ascii "decide") bs).1 := by
  have hreg := registered_of_contracted hbs
  cases hg : guardBuckets bs with
  | error msg =>
    simp only [run, storeDecide, hg]
    exact ⟨trivial, h⟩
  | ok u =>
    obtain ⟨hanswer, houtside, hinside⟩ := run_decide hg hbs (fun b _ => h b.key) hlimit
    refine ⟨by rw [hanswer, storeDecide_snd hg hreg], fun k => ?_⟩
    by_cases hk : k ∈ bs.map Bucket.key
    · obtain ⟨b, hb, rfl⟩ := List.mem_map.mp hk
      have hin := hinside b hb
      have hlookup := @lookup_storeDecide_of_mem now m b bs hg hreg hb
      by_cases hcommit : (admits now m bs && (outcome now m b).allowed) = true
      · rw [if_pos hcommit] at hin hlookup
        exact Mirrors.of_charged (hbs b hb) ((guardBuckets_ok_iff.mp hg).1 b hb) (h b.key)
          (Bool.and_eq_true_iff.mp hcommit).2 hlookup hin
      · rw [if_neg hcommit] at hin hlookup
        have htag : TaggedAt b.algorithm b.key m := (hbs b hb).algorithm ▸ (h b.key).tagged
        apply (h b.key).of_same hin
        · rw [hlookup]
          exact held_cases
        · rw [live, hlookup, htag.held_eq_live, ← live_later le_rfl]
    · have hsame : (storeDecide now m bs).1.lookup k = m.lookup k :=
        lookup_storeDecide_of_not_mem hk
      exact (h k).of_same (houtside k hk) (Or.inl hsame) (live_of_lookup hsame)

theorem mirrorsAll_peek (hbs : ∀ b ∈ bs, Contracted alg period b)
    (h : MirrorsAll alg period now m db) (hlimit : (now : ℤ) + 2 * maxTauMicros < lua.limit) :
    (run lua now db (ascii "peek") bs).2 = (storePeek now m bs).2 ∧
      MirrorsAll alg period now (storePeek now m bs).1 (run lua now db (ascii "peek") bs).1 := by
  cases hg : guardBuckets bs with
  | error msg =>
    simp only [run, storePeek, hg]
    exact ⟨trivial, h⟩
  | ok u =>
    rw [run_peek hg hbs (fun b _ => h b.key) hlimit,
      storePeek_snd hg (registered_of_contracted hbs)]
    refine ⟨rfl, fun k => ?_⟩
    apply (h k).of_same rfl lookup_storePeek_cases
    simp only [storePeek, hg]
    exact (h k).tagged.live_evalAll fun b hb he => he ▸ (hbs b hb).algorithm

theorem mirrorsAll_reset {ks : List Text} (h : MirrorsAll alg period now m db) :
    MirrorsAll alg period now (Memory.storeReset m ks) (storeReset db ks) := by
  intro k
  by_cases hk : k ∈ ks
  · have hm : (Memory.storeReset m ks).lookup k = none := by rw [lookup_storeReset, if_pos hk]
    refine ⟨fun e he => ?_, fun _ => ?_, fun v hv => ?_⟩
    · simp [hm] at he
    · simp [live, hm]
    · simp [lookup_dbReset, hk] at hv
  · have hm : (Memory.storeReset m ks).lookup k = m.lookup k := by
      rw [lookup_storeReset, if_neg hk]
    exact (h k).of_same (by rw [lookup_dbReset, if_neg hk]) (Or.inl hm) (live_of_lookup hm)

theorem mirrorsAll_storeCall {s : Served} (hs : ∀ b ∈ s.call.op.buckets, Contracted alg period b)
    (h : MirrorsAll alg period s.now m db)
    (hlimit : (s.now : ℤ) + 2 * maxTauMicros < lua.limit) :
    (storeCall lua db s).2 = (Memory.storeCall m s.call).2 ∧
      MirrorsAll alg period s.now (Memory.storeCall m s.call).1 (storeCall lua db s).1 := by
  obtain ⟨⟨now, op⟩, gone⟩ := s
  have hexpired : MirrorsAll alg period now m (expire now gone db) := fun k => (h k).expire
  cases op with
  | decide bs => exact mirrorsAll_decide hs hexpired hlimit
  | peek bs => exact mirrorsAll_peek hs hexpired hlimit
  | reset ks => exact ⟨rfl, mirrorsAll_reset hexpired⟩

end Simulation

/-- Over every sequence of calls that keeps to the callers' contract, whatever Redis drops after its
lifetime, the script answers each call as the in-memory store does. -/
theorem storeCall_refines_memory (lua : Lua) (alg : Text → Algorithm) (period : Text → ℤ)
    (calls : List Served) (hclock : MonotoneFrom Served.now 0 calls)
    (hcalls : ∀ s ∈ calls, ∀ b ∈ s.call.op.buckets, Contracted alg period b)
    (hlimit : ∀ s ∈ calls, (s.now : ℤ) + 2 * maxTauMicros < lua.limit) :
    (runs (storeCall lua) ∅ calls).2 =
      (runs Memory.storeCall ∅ (calls.map Served.call)).2 := by
  have hstart : MirrorsAll alg period (0 : ℕ) ∅ ∅ := by
    intro k
    refine ⟨fun e he => ?_, fun _ => rfl, fun v hv => ?_⟩
    · simp at he
    · simp at hv
  have hlater : ∀ (t t' : ℕ) db m, t ≤ t' → MirrorsAll alg period t m db →
      MirrorsAll alg period t' m db :=
    fun t t' db m hle h k => (h k).later (by exact_mod_cast hle)
  have hstep : ∀ db m (s : Served), ((∀ b ∈ s.call.op.buckets, Contracted alg period b) ∧
      (s.now : ℤ) + 2 * maxTauMicros < lua.limit) → MirrorsAll alg period s.now m db →
      (storeCall lua db s).2 = (Memory.storeCall m s.call).2 ∧
        MirrorsAll alg period s.now (Memory.storeCall m s.call).1 (storeCall lua db s).1 :=
    fun db m s hs h => mirrorsAll_storeCall hs.1 h hs.2
  rw [runs_map]
  exact answers_eq_of_simulation (R := fun t db m => MirrorsAll alg period t m db) hlater hstep
    hclock (fun s hs => ⟨hcalls s hs, hlimit s hs⟩) hstart

def Lua.integers : Lua where
  limit := 2 ^ 53
  add a b := a + b
  sub a b := a - b
  mul a b := a * b
  mod a b := a % b
  floorDiv a b := a / b
  ceilDiv a b := -(-a / b)
  tonumber := Strconv.parseInt
  format := Strconv.formatInt
  add_exact _ _ _ := rfl
  sub_exact _ _ _ := rfl
  mul_exact _ _ _ := rfl
  mod_exact _ _ _ := rfl
  floorDiv_exact _ _ _ := rfl
  ceilDiv_exact _ _ _ := rfl
  tonumber_exact h := by
    unfold Within at h
    exact Strconv.parseInt_formatInt (by omega) (by omega)
  format_exact _ := rfl

theorem storeCall_refines_memory_mixed :
    let b : Bucket := ⟨ascii "rate", .gcraID, ⟨2, second, 2⟩, false, 1⟩
    let c : Bucket := ⟨ascii "quota", .fixedWindowID, ⟨4, second, 0⟩, true, 2⟩
    let calls : List Served := [⟨⟨1700000000000000, .decide [b, c]⟩, fun _ => false⟩,
      ⟨⟨1700000000000001, .reset [ascii "rate"]⟩, fun _ => false⟩,
      ⟨⟨1700000005000000, .peek [c, b]⟩, fun _ => true⟩]
    (runs (storeCall Lua.integers) ∅ calls).2 =
      (runs Memory.storeCall ∅ (calls.map Served.call)).2 := by
  intro b c calls
  apply storeCall_refines_memory Lua.integers
    (fun k => if k = ascii "rate" then .gcra else .fixedWindow) (fun _ => second)
  · decide
  · have hb : Contracted (fun k => if k = ascii "rate" then .gcra else .fixedWindow)
        (fun _ => second) b := ⟨rfl, rfl, rfl, by decide, by decide, by decide⟩
    have hc : Contracted (fun k => if k = ascii "rate" then .gcra else .fixedWindow)
        (fun _ => second) c := ⟨rfl, rfl, rfl, by decide, by decide, by decide⟩
    simp only [calls, Op.buckets, List.mem_cons, List.not_mem_nil, or_false, forall_eq_or_imp,
      forall_eq]
    exact ⟨⟨hb, hc⟩, fun _ h => h.elim, hc, hb⟩
  · decide

end Ratelimit.Redis
