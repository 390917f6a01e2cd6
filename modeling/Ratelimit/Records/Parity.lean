import Ratelimit.Records.Alike

/-!
# The two command stores answer alike

Every call that keeps to the naming of the service returns the same from the
process's own store and from the shared one, and deletes the same counters.
-/
namespace Ratelimit.Records

open Library Store Memory

section Calls

variable {n : Naming} {now : ℕ} {m : Mem} {db : Db} {k : Text} {e : MemEntry}

theorem alone_lookup (db : Db) (keys : Keys) :
    redis.alone unasked db (lookup keys) =
      (db, some (looked (some (db.fields keys.record)) (some (db.holder keys.lease))
        (some (db.pttl keys.lease)))) := rfl

theorem alike_lookup (h : Alike n now m db) (hnow : 1000 ∣ now) (keys : Keys) :
    ∃ db', redis.alone unasked db (lookup keys) = (db', some (some (m.read now keys).2)) ∧
      Alike n now (m.read now keys).1 db' := by
  refine ⟨db, ?_, h.read⟩
  rw [alone_lookup, h.lookup hnow]

theorem alike_accept {a : Acceptance} (h : Alike n now m db) (hnow : 1000 ∣ now)
    (hf : Follows n (.accept a)) :
    ∃ db', redis.alone unasked db (accept a) = (db', some (some (m.accept now a).2)) ∧
      Alike n now (m.accept now a).1 db' := by
  have hdrop := h.record (k := a.keys.record)
  have hexec : redis.exec db (.accept a) unasked = acceptScript db a := rfl
  rw [accept, Server.alone_ask, hexec]
  unfold Mem.accept acceptScript
  dsimp only
  rw [Mem.record_snd, Mem.lease_record, h.leases]
  cases he : m.entry now a.keys.record with
  | some e =>
    obtain ⟨b, hfields, hshows⟩ := h.fields_some he
    rw [hfields, Option.bind_some, hshows.command]
    dsimp only
    rw [Server.alone_bind redis _ (alone_lookup db a.keys), hdrop.lookup hnow]
    exact ⟨db, rfl, hdrop.read⟩
  | none =>
    rw [h.fields_none he, Option.bind_none]
    dsimp only
    cases hl : m.lease now a.keys.lease with
    | some l =>
      obtain ⟨hpos, hleft⟩ := h.pttl hnow hl
      refine ⟨db, ?_, hdrop⟩
      dsimp only
      rw [if_neg (not_lt.mpr hpos), hleft]
      rfl
    | none =>
      have hfree : (m.record now a.keys.record).1.entry now a.keys.record = none :=
        Mem.entry_record.trans he
      dsimp only
      cases htoken : a.keys.token with
      | none => exact ⟨_, rfl, hdrop.bind hnow hf hfree⟩
      | some key =>
        dsimp only
        rw [hdrop.tokens key]
        cases hheld : (m.record now a.keys.record).1.document now key with
        | none => exact ⟨db, rfl, hdrop⟩
        | some held => exact ⟨_, rfl, (hdrop.consume key).bind hnow hf hfree⟩

theorem alike_batch {b : Batch} (h : Alike n now m db) (hf : Follows n (.batch b)) :
    (batchScript db b).2 = (m.batch now b).2 ∧
      Alike n now (m.batch now b).1 (batchScript db b).1 := by
  have hdrop := h.record (k := b.keys.record)
  have hrecord : b.keys.record = n.record b.fencing := hf
  unfold batchScript Mem.batch
  rw [h.holder]
  by_cases hheld : (m.lease now b.keys.lease).map Lease.holder = some b.fencing
  · obtain ⟨-, e, bound, he, hopen, hb, hshows⟩ := h.owned hheld
    rw [← hrecord] at he hb hshows
    have howns : m.owns now b.keys.lease b.fencing = true := Mem.owns_iff.mpr hheld
    have hlive : now < e.expiresAt := Mem.entry_live he
    rw [if_neg (not_not.mpr hheld), if_neg (by rw [howns]; decide)]
    dsimp only
    rw [Mem.record_snd, he]
    refine ⟨rfl, ?_⟩
    apply hdrop.written (hshows.advance hopen b.progress) hlive rfl
    · intro j
      rw [lookup_hset, hb]
      rfl
    · have hreset : (if b.delete = [] then (m.record now b.keys.record).1.counters
          else storeReset (m.record now b.keys.record).1.counters b.delete) =
          storeReset m.counters b.delete := by
        rw [Mem.counters_record]
        split_ifs with hnone
        · rw [hnone]
          rfl
        · rfl
      dsimp only
      rw [hreset]
      exact agreeOn_storeReset h.counters
    · rfl
    · rfl
    · rfl
    · rfl
    · rfl
    · intro L l hl hown
      obtain ⟨-, e', he', hopen', hbound⟩ := hdrop.guarded L l hl
      rw [hown, Mem.entry_record, he] at he'
      obtain rfl := Option.some.inj he'
      exact ⟨hopen', hbound⟩
  · have howns : m.owns now b.keys.lease b.fencing = false := by
      rw [← Bool.not_eq_true, Mem.owns_iff]
      exact hheld
    rw [if_pos hheld, if_pos howns]
    exact ⟨rfl, h⟩

theorem alike_commit {c : Commit} (h : Alike n now m db) (hf : Follows n (.commit c)) :
    (commitScript db c).2 = (m.commit now c).2 ∧
      Alike n now (m.commit now c).1 (commitScript db c).1 := by
  have hdrop := h.record (k := c.keys.record)
  have hrecord : c.keys.record = n.record c.fencing := hf
  unfold commitScript Mem.commit
  rw [h.holder]
  by_cases hheld : (m.lease now c.keys.lease).map Lease.holder = some c.fencing
  · obtain ⟨hname, e, bound, he, hopen, hb, hshows⟩ := h.owned hheld
    rw [← hrecord] at he hb hshows hname
    have howns : m.owns now c.keys.lease c.fencing = true := Mem.owns_iff.mpr hheld
    rw [if_neg (not_not.mpr hheld), if_neg (by rw [howns]; decide)]
    dsimp only
    rw [Mem.record_snd, he]
    refine ⟨rfl, ?_⟩
    obtain ⟨hreleased, hlease⟩ := hdrop.release c.keys.lease
    apply hreleased.written (hshows.finish hopen c.outcome (Mem.add now retention))
      (lt_add (by decide)) rfl
    · intro j
      have hfields : db.fields c.keys.record = some bound.fields := by
        rw [Db.fields, hb, Option.map_some]
      have hlookup := @lookup_writeOutcome db c.keys.record j c.outcome
      rw [hfields, h.after] at hlookup
      exact hlookup
    · simpa [writeOutcome, Db.hset] using h.counters
    · simp [writeOutcome, Db.hset]
    · rfl
    · simp [writeOutcome]
    · rfl
    · rw [leases_writeOutcome]
    · -- The record's one lease is the one that was let go.
      intro L l hl hown
      rw [hlease] at hl
      split_ifs at hl with hL
      obtain ⟨hother, -⟩ := hdrop.guarded L l hl
      rw [hown, hname] at hother
      exact absurd hother.symm hL
  · have howns : m.owns now c.keys.lease c.fencing = false := by
      rw [← Bool.not_eq_true, Mem.owns_iff]
      exact hheld
    rw [if_pos hheld, if_pos howns]
    exact ⟨rfl, h⟩

theorem alike_finalize {f : Finalize} (h : Alike n now m db) (hnow : 1000 ∣ now)
    (hf : Follows n (.finalize f)) :
    ∃ db', redis.alone unasked db (finalize f) = (db', some (some (m.finalize now f).2)) ∧
      Alike n now (m.finalize now f).1 db' := by
  have hdrop := h.record (k := f.keys.record)
  have hlooked := alone_lookup db f.keys
  rw [hdrop.lookup hnow] at hlooked
  rw [finalize, Server.alone_bind redis _ hlooked]
  unfold Mem.finalize
  dsimp only
  rw [Mem.record_snd, Mem.lease_record]
  cases he : m.entry now f.keys.record with
  | none =>
    have hread := Mem.read_none (Mem.entry_record.trans he : (m.record now f.keys.record).1.entry now _ = _)
    rw [hread]
    exact ⟨db, rfl, hdrop⟩
  | some e =>
    obtain ⟨hfound, hterminal, hprogress⟩ :=
      Mem.read_some (Mem.entry_record.trans he : (m.record now f.keys.record).1.entry now _ = _)
    obtain ⟨b, hfields, hshows⟩ := h.fields_some he
    have hstored : b.fields.terminal = e.terminal := congrArg Record.terminal hshows.shown
    dsimp only
    rw [hfound, hterminal, hprogress]
    cases hopen : e.terminal with
    | true => exact ⟨db, rfl, hdrop.read⟩
    | false =>
      simp only [Bool.true_eq_false, Bool.false_eq_true, or_self, if_false]
      rw [Server.alone_ask]
      have hexec : redis.exec db (.finalize ⟨f.keys, { f.outcome with progress := e.progress }⟩) unasked =
          finalizeScript db ⟨f.keys, { f.outcome with progress := e.progress }⟩ := rfl
      rw [hexec]
      unfold finalizeScript
      dsimp only
      rw [hfields, h.holder]
      dsimp only
      rw [hstored, hopen, if_neg Bool.false_ne_true, Option.isSome_map]
      by_cases hheld : (m.lease now f.keys.lease).isSome = true
      · rw [if_pos hheld, if_pos hheld]
        exact alike_lookup hdrop hnow f.keys
      · rw [if_neg hheld, if_neg hheld]
        apply alike_lookup _ hnow f.keys
        apply hdrop.written (hshows.finish hopen { f.outcome with progress := e.progress }
          (Mem.add now retention)) (lt_add (by decide)) rfl
        · intro j
          rw [lookup_writeOutcome, hfields, h.after]
          rfl
        · simpa [writeOutcome, Db.hset] using h.counters
        · simp [writeOutcome, Db.hset]
        · rfl
        · simp [writeOutcome]
        · rfl
        · exact leases_writeOutcome _
        · -- The record's one lease is not held.
          intro L l hl hown
          obtain ⟨hname, -⟩ := hdrop.guarded L l hl
          have hlease : f.keys.lease = n.lease f.keys.record := hf
          rw [hown, ← hlease] at hname
          rw [Mem.lease_record, ← hname] at hl
          rw [hl] at hheld
          exact absurd rfl hheld

theorem unlinked_eq_existing {store : Entries} {ks : List Text} (hks : ks.Nodup) :
    unlinked now store ks = existing now store ks := by
  induction ks generalizing store with
  | nil => rfl
  | cons k ks ih =>
    obtain ⟨hk, hrest⟩ := List.nodup_cons.mp hks
    have hsame : existing now (store.erase k) ks = existing now store ks := by
      apply List.countP_congr
      intro j hj
      have hne : j ≠ k := fun h => hk (h ▸ hj)
      rw [live_of_lookup (Finmap.lookup_erase_ne hne)]
    rw [unlinked, ih hrest, hsame]
    unfold existing
    rw [List.countP_cons, Nat.add_comm]

theorem existing_congr {store store' : Entries} {ks : List Text}
    (h : AgreeOn Set.univ now store store') : existing now store ks = existing now store' ks := by
  apply List.countP_congr
  intro k _
  rw [h k trivial]

theorem resetScript_free {r : Addressed} (hfree : db.fields r.record = none) :
    resetScript db r =
      (let count := if r.dryRun then existing db.now db.counters r.delete
        else unlinked db.now db.counters r.delete
      let counters := if r.dryRun then db.counters else storeReset db.counters r.delete
      ((({ db with counters }).hset r.record (bindReset r count)).pexpire r.record retention,
        .done count)) := by
  unfold resetScript
  rw [hfree]

theorem resetScript_bound {r : Addressed} {f : Fields} {command : Text}
    (hfields : db.fields r.record = some f) (hcommand : f.command = some command) :
    resetScript db r = (db, .replayed command f.count f.answer) := by
  obtain ⟨_, fencing, progress, outcome, terminal, count, answer⟩ := f
  obtain rfl := hcommand
  unfold resetScript
  rw [hfields]

theorem agreeOn_drop_live {walked store store' : Entries} {ks : List Text}
    (hwalked : AgreeOn Set.univ now walked store) (h : AgreeOn Set.univ now store store') :
    AgreeOn Set.univ now (storeReset walked (ks.filter fun k => (live now store k).isSome))
      (storeReset store' ks) := by
  intro k hk
  have hlive := (hwalked k hk).trans (h k hk)
  unfold live at hlive ⊢
  rw [lookup_storeReset, lookup_storeReset]
  by_cases hin : k ∈ ks
  · rw [if_pos hin]
    split_ifs with hdropped
    · rfl
    · have hdead : ¬(live now store k).isSome = true := fun hsome =>
        hdropped (List.mem_filter.mpr ⟨hin, hsome⟩)
      rw [Option.not_isSome_iff_eq_none, ← hwalked k hk] at hdead
      exact hdead
  · rw [if_neg hin, if_neg fun hdropped => hin (List.mem_filter.mp hdropped).1]
    exact hlive

theorem agreeOn_reset {walked store store' : Entries} {r : Addressed} {dropped : List Text}
    (hdropped : dropped = r.delete.filter fun k => (live now store k).isSome)
    (hwalked : AgreeOn Set.univ now walked store) (h : AgreeOn Set.univ now store store') :
    AgreeOn Set.univ now
      (if r.dryRun = false ∧ dropped ≠ [] then storeReset walked dropped else walked)
      (if r.dryRun then store' else storeReset store' r.delete) := by
  cases hdry : r.dryRun with
  | true => exact fun k hk => (hwalked k hk).trans (h k hk)
  | false =>
    have hcall : (if false = false ∧ dropped ≠ [] then storeReset walked dropped else walked) =
        storeReset walked dropped := by
      by_cases hnone : dropped = []
      · simp [hnone, storeReset]
      · simp [hnone]
    rw [hcall, hdropped]
    exact agreeOn_drop_live hwalked h

theorem shows_reset (r : Addressed) (count deadline : ℕ) :
    Shows n k ⟨r.command, [], true, { Progress.zero with reset := count }, .zero, some r.answer, deadline⟩
      ⟨bindReset r count .empty, some deadline⟩ :=
  ⟨rfl, rfl, rfl, fun hopen => (Bool.false_ne_true hopen.symm).elim, fun _ => rfl⟩

theorem alike_reset {r : Addressed} (h : Alike n now m db) (hf : Follows n (.reset r)) :
    ∃ db', redis.alone unasked db (reset r) = (db', some (m.reset now r).2) ∧
      Alike n now (m.reset now r).1 db' := by
  obtain ⟨hadd, hkeys, hnodup⟩ := hf
  have hdrop := h.record (k := r.record)
  have hexec : redis.exec db (.reset r) unasked = resetScript db r := rfl
  rw [reset, Server.alone_ask, hexec]
  unfold Mem.reset
  dsimp only
  rw [Mem.record_snd]
  cases he : m.entry now r.record with
  | some e =>
    obtain ⟨b, hfields, hshows⟩ := h.fields_some he
    have hanswer : b.fields.answer = e.answer := congrArg Record.answer hshows.shown
    rw [resetScript_bound hfields hshows.command, hshows.counted hadd, hanswer]
    exact ⟨db, rfl, hdrop⟩
  | none =>
    obtain ⟨hlive, hsame⟩ := @Mem.live_spec now (m.record now r.record).1.counters r.delete hkeys
    rw [Mem.counters_record] at hlive hsame
    have hcount : (if r.dryRun then existing db.now db.counters r.delete
        else unlinked db.now db.counters r.delete) =
        (r.delete.filter fun k => (live now m.counters k).isSome).length := by
      rw [← List.countP_eq_length_filter, h.clock]
      change _ = existing now m.counters r.delete
      rw [existing_congr h.counters]
      cases hdry : r.dryRun with
      | true => rfl
      | false => exact unlinked_eq_existing (hnodup hdry)
    rw [resetScript_free (h.fields_none he), Mem.counters_record]
    dsimp only
    rw [hlive, hcount]
    refine ⟨_, rfl, ?_⟩
    apply hdrop.written (shows_reset r _ (Mem.add now retention)) (lt_add (by decide)) rfl
    · intro j
      rw [lookup_hset_pexpire]
      have hfields : ∀ counters, ({ db with counters } : Db).fields r.record = none :=
        fun _ => h.fields_none he
      rw [hfields, Option.getD_none]
      dsimp only [Db.after]
      rw [h.clock, Mem.add]
    · rw [counters_pexpire]
      exact agreeOn_reset rfl hsame h.counters
    · simp [Db.hset]
    · rfl
    · simp
    · rfl
    · simp
    · intro L l hl hown
      obtain ⟨-, e, hheld, -⟩ := hdrop.guarded L l hl
      rw [hown, Mem.entry_record, he] at hheld
      cases hheld

theorem alike_put {value : TokenDocument} {ttl : ℕ} (h : Alike n now m db) (hf : 1 ≤ ttl) :
    Alike n now (m.put now k value ttl)
      { db with tokens := db.tokens.insert k ⟨value, db.after ttl⟩ } := by
  refine ⟨h.clock, h.counters, fun j => ?_, h.leases, h.records, h.whole, h.guarded⟩
  have hj := h.tokens j
  unfold Mem.document at hj ⊢
  dsimp only [Mem.put]
  rw [h.after]
  by_cases hk : j = k
  · have hlive : now < Mem.add now ttl := lt_add hf
    rw [hk, Finmap.lookup_insert, Finmap.lookup_insert]
    simp [Option.filter, hlive]
  · rw [Finmap.lookup_insert_of_ne _ hk, Finmap.lookup_insert_of_ne _ hk, hj]

theorem alike_call {c : StoreCall} (h : Alike n now m db) (hnow : 1000 ∣ now) (hf : Follows n c) :
    ∃ db', redis.alone unasked db (request c) = (db', some (m.call now c).2) ∧
      Alike n now (m.call now c).1 db' := by
  cases c with
  | lookup keys =>
    obtain ⟨db', hrun, hafter⟩ := alike_lookup h hnow keys
    exact ⟨db', Server.alone_bind redis _ hrun, hafter⟩
  | accept a =>
    obtain ⟨db', hrun, hafter⟩ := alike_accept h hnow hf
    exact ⟨db', Server.alone_bind redis _ hrun, hafter⟩
  | batch b =>
    obtain ⟨hverdict, hafter⟩ := alike_batch h hf
    refine ⟨(batchScript db b).1, ?_, hafter⟩
    rw [Mem.call, ← hverdict]
    rfl
  | commit c =>
    obtain ⟨hverdict, hafter⟩ := alike_commit h hf
    refine ⟨(commitScript db c).1, ?_, hafter⟩
    rw [Mem.call, ← hverdict]
    rfl
  | finalize f =>
    obtain ⟨db', hrun, hafter⟩ := alike_finalize h hnow hf
    exact ⟨db', Server.alone_bind redis _ hrun, hafter⟩
  | reset r =>
    obtain ⟨db', hrun, hafter⟩ := alike_reset h hf
    exact ⟨db', Server.alone_bind redis _ hrun, hafter⟩
  | put key value ttl => exact ⟨_, rfl, alike_put h hf⟩
  | get key =>
    refine ⟨db, ?_, h⟩
    rw [Mem.call, Mem.get, ← h.tokens key]
    rfl

end Calls

section Runs

variable {n : Naming} {m : Mem} {db : Db}

/-- The stores are alike from a moment on, as long as nothing is called. -/
def Tracks (n : Naming) (t : ℕ) (m : Mem) (db : Db) : Prop :=
  db.now ≤ t ∧ ∀ t', t ≤ t' → Alike n t' m (elapse db (t' - db.now))

theorem Alike.tracks {now : ℕ} (h : Alike n now m db) : Tracks n now m db := by
  refine ⟨h.clock.le, fun t' hle => ?_⟩
  rw [h.clock]
  exact h.later hle

theorem tracks_new (n : Naming) (store : Entries) :
    Tracks n 0 (Mem.new store) { Db.empty with counters := store } := by
  apply Alike.tracks
  have hlease : ∀ L, (Mem.new store).lease 0 L = none := fun _ => rfl
  refine ⟨rfl, fun _ _ => rfl, fun _ => rfl, fun _ => rfl, fun _ => Option.Rel.none, ?_, ?_⟩
  · intro L l hl
    rw [hlease] at hl
    cases hl
  · intro L l hl
    rw [hlease] at hl
    cases hl

theorem tracks_step {c : TimedCall} (h : Tracks n c.now m db) (hnow : 1000 ∣ c.now)
    (hf : Follows n c.call) :
    some (m.step c).2 = (redisStep db c).2 ∧ Tracks n c.now (m.step c).1 (redisStep db c).1 := by
  obtain ⟨db', hrun, hafter⟩ := alike_call (h.2 c.now le_rfl) hnow hf
  rw [redisStep, hrun]
  exact ⟨rfl, hafter.tracks⟩

/-- Whatever calls run one at a time, at whole milliseconds and with the names of
the service, both stores return the same, errors included, and hold the same
counters in the end. -/
theorem stores_alike (n : Naming) (store : Entries) (calls : List TimedCall)
    (hclock : MonotoneFrom TimedCall.now 0 calls) (hwhole : ∀ c ∈ calls, 1000 ∣ c.now)
    (hfollows : ∀ c ∈ calls, Follows n c.call) :
    (runs redisStep { Db.empty with counters := store } calls).2 =
        (runs Mem.step (Mem.new store) calls).2.map some ∧
      ∀ k, live (lastClock TimedCall.now 0 calls)
          (runs redisStep { Db.empty with counters := store } calls).1.counters k =
        live (lastClock TimedCall.now 0 calls) (runs Mem.step (Mem.new store) calls).1.counters k := by
  have hlater : ∀ t t' m db, t ≤ t' → Tracks n t m db → Tracks n t' m db :=
    fun t t' m db hle h => ⟨h.1.trans hle, fun u hu => h.2 u (hle.trans hu)⟩
  have hstep : ∀ m db (c : TimedCall), 1000 ∣ c.now ∧ Follows n c.call → Tracks n c.now m db →
      some (m.step c).2 = (redisStep db c).2 ∧ Tracks n c.now (m.step c).1 (redisStep db c).1 :=
    fun m db c hc h => tracks_step h hc.1 hc.2
  obtain ⟨hanswers, hend⟩ := simulation_runs (Q := fun a b => some a = b) hlater hstep calls 0 _ _
    hclock (fun c hc => ⟨hwhole c hc, hfollows c hc⟩) (tracks_new n store)
  refine ⟨?_, fun k => ?_⟩
  · rw [← List.forall₂_eq_eq_eq, List.forall₂_map_right_iff]
    exact (hanswers.imp fun _ _ h => h.symm).flip
  · exact ((hend.2 _ le_rfl).counters k trivial).symm

def tallies : Entries :=
  ((∅ : Entries).insert (ascii "orders") ⟨.fixedWindowID, 0, 0, 3, 60000000⟩).insert (ascii "search")
    ⟨.fixedWindowID, 0, 0, 1, 60000000⟩

def sweepAndReset : List TimedCall :=
  let keys : Keys := ⟨ascii "bulk", ascii "lease", some (ascii "token")⟩
  [⟨1000, .put (ascii "token") ⟨[], [], [], [], 0⟩ 60000⟩,
    ⟨2000, .accept ⟨keys, ascii "sweep", ascii "walker", 30000⟩⟩,
    ⟨3000, .batch ⟨keys, ascii "walker", [ascii "orders"], ⟨1, 1, 1, ∅, [], false⟩⟩⟩,
    ⟨4000, .commit ⟨keys, ascii "walker", ⟨false, [], [], ⟨"", []⟩, ⟨1, 1, 1, ∅, [], false⟩, [], none⟩⟩⟩,
    ⟨5000, .lookup keys⟩,
    ⟨6000, .reset ⟨ascii "addressed", ascii "reset", [ascii "orders", ascii "search"], false,
      ⟨[], [], [], ∅, [], false, none, none⟩⟩⟩]

def sweepNames : Naming :=
  ⟨fun _ => ascii "bulk", fun _ => ascii "lease", fun k => decide (k = ascii "bulk")⟩

theorem stores_alike_sweep :
    (runs redisStep { Db.empty with counters := tallies } sweepAndReset).2 =
        (runs Mem.step (Mem.new tallies) sweepAndReset).2.map some ∧
      ∀ k, live (lastClock TimedCall.now 0 sweepAndReset)
          (runs redisStep { Db.empty with counters := tallies } sweepAndReset).1.counters k =
        live (lastClock TimedCall.now 0 sweepAndReset)
          (runs Mem.step (Mem.new tallies) sweepAndReset).1.counters k :=
  stores_alike sweepNames tallies sweepAndReset (by decide) (by decide +kernel) (by decide +kernel)

/-- A batch under the lease of a command, for the record of another one. -/
def misdirected : List TimedCall :=
  [⟨1000, .accept ⟨⟨ascii "bulk", ascii "lease", none⟩, ascii "sweep", ascii "walker", 30000⟩⟩,
    ⟨2000, .batch ⟨⟨ascii "other", ascii "lease", none⟩, ascii "walker", [ascii "orders"], .zero⟩⟩]

/-- The process turns such a batch down, the shared store runs it. -/
theorem stores_differ_misdirected :
    MonotoneFrom TimedCall.now 0 misdirected ∧ (∀ c ∈ misdirected, 1000 ∣ c.now) ∧
      (runs Mem.step (Mem.new tallies) misdirected).2 =
        [.accepted (some (.ok none)), .written (some .lost)] ∧
      (runs redisStep { Db.empty with counters := tallies } misdirected).2 =
        [some (.accepted (some (.ok none))), some (.written (some .ok))] ∧
      (live 2000 (runs Mem.step (Mem.new tallies) misdirected).1.counters (ascii "orders")).isSome = true ∧
      live 2000 (runs redisStep { Db.empty with counters := tallies } misdirected).1.counters
        (ascii "orders") = none := by
  decide +kernel

end Runs

end Ratelimit.Records
