import Ratelimit.Store.RedisRows

/-!
# A decision through the script

From the buckets to the flat texts, through both passes of the script, and
from the flat reply back to verdicts.
-/
namespace Ratelimit.Redis

open Algo Store Library Memory

section Script

variable {lua : Lua} {now : ℕ} {m : Entries} {db : Db} {b : Bucket} {bs : List Bucket} {k : Text}
variable {alg : Text → Algorithm} {period : Text → ℤ}

def argsOf (b : Bucket) : Args :=
  if b.algorithm = .gcraID then
    ⟨b.cost, 1, emissionMicros b.window, tauMicros b.window, b.window.burst, b.shadow⟩
  else ⟨b.cost, 2, periodMicros b.window, b.window.requests, 0, b.shadow⟩

theorem argsOf_gcra (h : b.algorithm = .gcraID) : argsOf b =
    ⟨b.cost, 1, emissionMicros b.window, tauMicros b.window, b.window.burst, b.shadow⟩ := if_pos h

theorem argsOf_fixedWindow (h : b.algorithm = .fixedWindowID) : argsOf b =
    ⟨b.cost, 2, periodMicros b.window, b.window.requests, 0, b.shadow⟩ :=
  if_neg (by rw [h]; decide)

theorem boolArg_eq_one (s : Bool) : decide (boolArg s = ascii "1") = s := by
  cases s <;> decide

theorem bucketArgs_eq (hb : Contracted alg period b) (hcost : 1 ≤ b.cost)
    (hlimit : 2 * maxTauMicros < lua.limit) :
    ∃ c a p q r s, bucketArgs b = .ok [c, a, p, q, r, s] ∧
      lua.tonumber c = some (argsOf b).cost ∧ lua.tonumber a = some (argsOf b).alg ∧
      lua.tonumber p = some (argsOf b).p1 ∧ lua.tonumber q = some (argsOf b).p2 ∧
      lua.tonumber r = some (argsOf b).p3 ∧ decide (s = ascii "1") = (argsOf b).shadow := by
  have hreq := one_le_requests hb.checked
  have hper := one_le_periodMicros hb.checked
  have hday := (accepted_period hb.checked).2
  have hreq31 := hb.requests
  have hcost31 := hb.cost
  have hburst31 := hb.burst
  have halg := hb.algorithm
  have hcheck := hb.checked
  unfold maxTauMicros at hlimit
  cases ha : alg b.key with
  | gcra =>
    rw [ha] at halg hcheck
    have hemission := one_le_emissionMicros hreq hper
    have hle := (accepted_emission hcheck).2
    have htau := (tauMicros_le hcheck).2
    have hburst := (gcra_bounds hcheck).1
    have htau0 : 0 ≤ tauMicros b.window := mul_nonneg (by omega) (by omega)
    unfold maxTauMicros at htau
    refine ⟨_, _, _, _, _, _, by rw [bucketArgs, halg]; rfl, ?_⟩
    rw [argsOf_gcra halg]
    refine ⟨?_, ?_, ?_, ?_, ?_, boolArg_eq_one _⟩ <;> apply lua.tonumber_exact <;>
      unfold Within <;> omega
  | fixedWindow =>
    rw [ha] at halg hcheck
    refine ⟨_, _, _, _, _, _, by rw [bucketArgs, halg]; rfl, ?_⟩
    rw [argsOf_fixedWindow halg]
    refine ⟨?_, ?_, ?_, ?_, ?_, boolArg_eq_one _⟩ <;> apply lua.tonumber_exact <;>
      unfold Within <;> omega

theorem readArgs_allArgs (lua : Lua) (hbs : ∀ b ∈ bs, ∃ alg period, Contracted alg period b)
    (hcost : ∀ b ∈ bs, 1 ≤ b.cost) (hlimit : 2 * maxTauMicros < lua.limit) :
    ∃ args, allArgs bs = .ok args ∧ readArgs lua bs.length args = some (bs.map argsOf) := by
  induction bs with
  | nil => exact ⟨[], rfl, rfl⟩
  | cons b bs ih =>
    obtain ⟨⟨alg, period, hb⟩, hbs⟩ := List.forall_mem_cons.mp hbs
    obtain ⟨hc, hcost⟩ := List.forall_mem_cons.mp hcost
    obtain ⟨rest, hrest, hread⟩ := ih hbs hcost
    obtain ⟨c, a, p, q, r, s, hargs, h1, h2, h3, h4, h5, h6⟩ := bucketArgs_eq hb hc hlimit
    refine ⟨[c, a, p, q, r, s] ++ rest, ?_, ?_⟩
    · simp only [allArgs, hargs, hrest]
      rfl
    · simp [readArgs, h1, h2, h3, h4, h5, h6, hread]

theorem evalRow_matches (hb : Contracted alg period b) (hcost : 1 ≤ b.cost)
    (h : Mirrors (alg b.key) ((period b.key).tdiv microsecond) now b.key m db)
    (hlimit : (now : ℤ) + 2 * maxTauMicros < lua.limit) :
    RowMatches lua now (evalRow lua now ((db.lookup b.key).map Stored.value) (argsOf b))
      (outcome now m b) := by
  have halg := hb.algorithm
  have hcheck := hb.checked
  have hper : (period b.key).tdiv microsecond = periodMicros b.window := by
    rw [periodMicros, hb.period]
  rw [hper] at h
  cases ha : alg b.key with
  | gcra =>
    rw [ha] at halg hcheck h
    rw [argsOf_gcra halg]
    exact gcraRow_matches hlimit h halg hcheck hcost
  | fixedWindow =>
    rw [ha] at halg hcheck h
    rw [argsOf_fixedWindow halg]
    exact fixedRow_matches hlimit h halg hcheck hb.requests hcost hb.cost

/-- The state Redis holds for a bucket whose outcome was committed. -/
def Holds (db : Db) (k : Text) (e : Entry) : Prop :=
  ∃ expireAt, db.lookup k = some ⟨encode e, expireAt⟩ ∧ e.deadline ≤ expireAt

theorem lookup_commitRows_of_not_mem {now : ℤ} {rows : List (Text × Row)}
    (hk : k ∉ rows.map Prod.fst) :
    (commitRows lua now db rows).1.lookup k = db.lookup k := by
  induction rows generalizing db with
  | nil => rfl
  | cons p rest ih =>
    obtain ⟨key, row⟩ := p
    simp only [List.map_cons, List.mem_cons, not_or] at hk
    cases hc : row.charged with
    | none => simpa [commitRows, hc] using ih hk.2
    | some c =>
      simp only [commitRows, hc]
      split_ifs
      · rfl
      · rw [ih hk.2, Finmap.lookup_insert_of_ne _ hk.1]

/-- The commit pass answers with the verdicts of an admitted decision and
writes exactly the buckets whose own verdict allows. -/
theorem commitRows_spec (db : Db) {row : Bucket → Row} {o : Bucket → Outcome}
    (hrows : ∀ b ∈ bs, RowMatches lua now (row b) (o b)) (hnd : (bs.map Bucket.key).Nodup)
    (hlimit : 1000 < lua.limit) :
    (∃ reply, (commitRows lua now db (bs.map fun b => (b.key, row b))).2 = .ok reply ∧
      reply.length = bs.length * 5 ∧ readVerdicts reply = bs.map fun b => answered true (o b)) ∧
    ∀ b ∈ bs,
      ((o b).allowed = false →
        (commitRows lua now db (bs.map fun b => (b.key, row b))).1.lookup b.key =
          db.lookup b.key) ∧
      ((o b).allowed = true →
        Holds (commitRows lua now db (bs.map fun b => (b.key, row b))).1 b.key (o b).next) := by
  induction bs generalizing db with
  | nil => exact ⟨⟨[], rfl, rfl, rfl⟩, fun b hb => absurd hb List.not_mem_nil⟩
  | cons b bs ih =>
    obtain ⟨hb, hbs⟩ := List.forall_mem_cons.mp hrows
    obtain ⟨hkey, hnd⟩ := List.nodup_cons.mp hnd
    have hother : ∀ c ∈ bs, c.key ≠ b.key := fun c hc he => hkey (he ▸ List.mem_map_of_mem hc)
    have hrest : b.key ∉ (bs.map fun b => (b.key, row b)).map Prod.fst := by
      simpa [Function.comp_def] using hkey
    cases hallow : (o b).allowed with
    | false =>
      obtain ⟨⟨reply, hreply, hlen, hread⟩, hlook⟩ := ih db hbs hnd
      have hcharged := hb.refused hallow
      simp only [List.map_cons, commitRows, hcharged, hreply]
      refine ⟨⟨(row b).plain ++ reply, rfl, ?_, ?_⟩, ?_⟩
      · simp [Row.plain, hlen]
        omega
      · rw [hb.plain, hread, answered, hallow]
        rfl
      · refine List.forall_mem_cons.mpr ⟨⟨fun _ => ?_, fun h => by simp [hallow] at h⟩, hlook⟩
        exact lookup_commitRows_of_not_mem hrest
    | true =>
      obtain ⟨c, hcharged, hverdict, hstate, hsc, hpos, hlt⟩ := hb.charged hallow
      have hpx : lua.ceilDiv c.sc 1000 = -(-c.sc / 1000) :=
        lua.ceilDiv_exact ⟨by omega, hlt⟩ (by omega) hlimit
      obtain ⟨hpx0, hcover⟩ := ceil_div_bounds hpos
      obtain ⟨⟨reply, hreply, hlen, hread⟩, hlook⟩ :=
        ih (db.insert b.key ⟨c.state lua, now + 1000 * lua.ceilDiv c.sc 1000⟩) hbs hnd
      simp only [List.map_cons, commitRows, hcharged, hpx, if_neg (not_le.mpr hpx0)]
      rw [hpx] at hreply hlook
      simp only [hreply]
      refine ⟨⟨c.patched ++ reply, rfl, ?_, ?_⟩, ?_⟩
      · simp [Charged.patched, hlen]
        omega
      · rw [hverdict, hread, answered, hallow]
        rfl
      · refine List.forall_mem_cons.mpr ⟨⟨fun h => by simp [hallow] at h, fun _ => ?_⟩, ?_⟩
        · refine ⟨now + 1000 * -(-c.sc / 1000), ?_, by omega⟩
          rw [lookup_commitRows_of_not_mem hrest, Finmap.lookup_insert, hstate]
        · intro d hd
          refine ⟨fun h => ?_, (hlook d hd).2⟩
          rw [(hlook d hd).1 h, Finmap.lookup_insert_of_ne _ (hother d hd)]

theorem zipWith_map_map {α β γ δ : Type*} (f : β → γ → δ) (g : α → β) (h : α → γ) (l : List α) :
    List.zipWith f (l.map g) (l.map h) = l.map fun a => f (g a) (h a) := by
  induction l with
  | nil => rfl
  | cons a l ih => simp [ih]

theorem time_eq (hlimit : (now : ℤ) + 2 * maxTauMicros < lua.limit) :
    lua.add (lua.mul (now / 1000000 : ℕ) 1000000) (now % 1000000 : ℕ) = now := by
  unfold maxTauMicros at hlimit
  rw [lua.mul_exact (by unfold Within; omega) (by unfold Within; omega) (by unfold Within; omega),
    lua.add_exact (by unfold Within; omega) (by unfold Within; omega) (by unfold Within; omega)]
  omega

theorem argsOf_shadow : (argsOf b).shadow = b.shadow := by
  unfold argsOf
  split_ifs <;> rfl

def rowOf (lua : Lua) (now : ℕ) (db : Db) (b : Bucket) : Row :=
  evalRow lua now ((db.lookup b.key).map Stored.value) (argsOf b)

theorem zipWith_rows : List.zipWith (evalRow lua now)
    ((bs.map Bucket.key).map fun k => (db.lookup k).map Stored.value) (bs.map argsOf) =
    bs.map (rowOf lua now db) := by
  rw [List.map_map, zipWith_map_map]
  rfl

theorem script_eq {mode : Text} {args : List Text}
    (hrows : ∀ b ∈ bs, RowMatches lua now (rowOf lua now db b) (outcome now m b))
    (hread : readArgs lua bs.length args = some (bs.map argsOf))
    (hlimit : (now : ℤ) + 2 * maxTauMicros < lua.limit) :
    script lua now db (bs.map Bucket.key) (mode :: args) =
      if admits now m bs && decide (mode = ascii "decide") then
        let done := commitRows lua now db (bs.map fun b => (b.key, rowOf lua now db b))
        (done.1, done.2.map (1 :: ·))
      else (db, .ok (flag (admits now m bs) :: (bs.map (rowOf lua now db)).flatMap Row.plain)) := by
  have hall : ((bs.map argsOf).zip (bs.map (rowOf lua now db))).all
      (fun p => p.1.shadow || p.2.allowed) = admits now m bs := by
    rw [List.zip_map', List.all_map, admits, Bool.eq_iff_iff, List.all_eq_true, List.all_eq_true]
    refine forall₂_congr fun b hb => ?_
    simp only [Function.comp_apply, argsOf_shadow, (hrows b hb).allowed]
  unfold script
  simp only [List.length_map, List.tail_cons, hread, time_eq hlimit, List.head?_cons,
    Option.some.injEq, zipWith_rows, hall]
  rw [List.zip_map']

theorem readVerdicts_plains {o : Bucket → Outcome} {row : Bucket → Row}
    (hrows : ∀ b ∈ bs, RowMatches lua now (row b) (o b)) :
    readVerdicts ((bs.map row).flatMap Row.plain) = (bs.map fun b => currentVerdict (o b)) ∧
      ((bs.map row).flatMap Row.plain).length = bs.length * 5 := by
  induction bs with
  | nil => exact ⟨rfl, rfl⟩
  | cons b bs ih =>
    obtain ⟨hb, hbs⟩ := List.forall_mem_cons.mp hrows
    obtain ⟨hread, hlen⟩ := ih hbs
    rw [List.map_cons, List.flatMap_cons, hb.plain, hread]
    refine ⟨rfl, ?_⟩
    rw [List.length_append, hlen]
    simp [Row.plain]
    omega

theorem parseReply_eq {reply : List ℤ} {n : ℕ} {first : ℤ} (h : reply.length = n * 5) :
    parseReply (first :: reply) n = .ok (readVerdicts reply) := by
  have hlen : (first :: reply).length = 1 + n * 5 := by
    rw [List.length_cons, h, add_comm]
  unfold parseReply
  rw [if_neg (fun hne => hne hlen)]
  rfl

section Run

variable (hg : guardBuckets bs = .ok ()) (hbs : ∀ b ∈ bs, Contracted alg period b)
variable (hmir : ∀ b ∈ bs, Mirrors (alg b.key) ((period b.key).tdiv microsecond) now b.key m db)
variable (hlimit : (now : ℤ) + 2 * maxTauMicros < lua.limit)
include hg hbs hmir hlimit

theorem rows_match : ∀ b ∈ bs, RowMatches lua now (rowOf lua now db b) (outcome now m b) := by
  intro b hb
  exact evalRow_matches (hbs b hb) ((guardBuckets_ok_iff.mp hg).1 b hb).1 (hmir b hb) hlimit

theorem run_peek :
    run lua now db (ascii "peek") bs =
      (db, .ok (bs.map fun b => currentVerdict (outcome now m b))) := by
  have hrows := rows_match hg hbs hmir hlimit
  obtain ⟨args, hargs, hread⟩ := readArgs_allArgs lua (fun b hb => ⟨alg, period, hbs b hb⟩)
    (fun b hb => ((guardBuckets_ok_iff.mp hg).1 b hb).1) (by omega)
  have hmode : decide (ascii "peek" = ascii "decide") = false := by decide
  obtain ⟨hplain, hlen⟩ := readVerdicts_plains hrows
  unfold run
  simp only [hg, hargs, script_eq hrows hread hlimit, hmode, Bool.and_false,
    if_neg Bool.false_ne_true]
  split_ifs with hempty
  · simp [hempty]
  · rw [parseReply_eq hlen, hplain]

/-- A decision through the script: its verdicts, and what it leaves under each key. -/
theorem run_decide :
    (run lua now db (ascii "decide") bs).2 =
        .ok (bs.map fun b => answered (admits now m bs) (outcome now m b)) ∧
      (∀ k ∉ bs.map Bucket.key,
        (run lua now db (ascii "decide") bs).1.lookup k = db.lookup k) ∧
      ∀ b ∈ bs,
        if admits now m bs && (outcome now m b).allowed then
          Holds (run lua now db (ascii "decide") bs).1 b.key (outcome now m b).next
        else (run lua now db (ascii "decide") bs).1.lookup b.key = db.lookup b.key := by
  have hrows := rows_match hg hbs hmir hlimit
  have hnd := (guardBuckets_ok_iff.mp hg).2
  obtain ⟨args, hargs, hread⟩ := readArgs_allArgs lua (fun b hb => ⟨alg, period, hbs b hb⟩)
    (fun b hb => ((guardBuckets_ok_iff.mp hg).1 b hb).1) (by omega)
  by_cases hempty : bs = []
  · subst hempty
    simp [run, hg]
  have hlimit' : 1000 < lua.limit := by
    unfold maxTauMicros at hlimit
    omega
  cases hadmits : admits now m bs with
  | false =>
    obtain ⟨hplain, hlen⟩ := readVerdicts_plains hrows
    have hrun : run lua now db (ascii "decide") bs =
        (db, .ok (bs.map fun b => currentVerdict (outcome now m b))) := by
      unfold run
      simp only [hg, hargs, if_neg hempty, script_eq hrows hread hlimit, hadmits, Bool.false_and,
        if_neg Bool.false_ne_true]
      rw [parseReply_eq hlen, hplain]
    rw [hrun]
    exact ⟨rfl, fun _ _ => rfl, fun _ _ => by simp⟩
  | true =>
    obtain ⟨⟨reply, hreply, hlen, hread'⟩, hlook⟩ := commitRows_spec db hrows hnd hlimit'
    have hrun : run lua now db (ascii "decide") bs =
        ((commitRows lua now db (bs.map fun b => (b.key, rowOf lua now db b))).1,
          .ok (bs.map fun b => answered true (outcome now m b))) := by
      unfold run
      simp only [hg, hargs, if_neg hempty, script_eq hrows hread hlimit, hadmits, Bool.true_and,
        decide_true, if_true, hreply, Except.map]
      rw [parseReply_eq hlen, hread']
    rw [hrun]
    refine ⟨rfl, fun k hk => ?_, fun b hb => ?_⟩
    · exact lookup_commitRows_of_not_mem (by simpa [Function.comp_def] using hk)
    · rw [Bool.true_and]
      split_ifs with hallow
      · exact (hlook b hb).2 hallow
      · exact (hlook b hb).1 (by simpa using hallow)

end Run

theorem lookup_dbReset (ks : List Text) :
    (storeReset db ks).lookup k = if k ∈ ks then none else db.lookup k := by
  have herase := lookup_foldl_erase (k := k) (fun _ => true) ks db
  simpa [storeReset] using herase

end Script

end Ratelimit.Redis
