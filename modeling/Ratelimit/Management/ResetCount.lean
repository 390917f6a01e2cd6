import Ratelimit.Management.Disclosure

/-!
# What a bulk execution counts

The sweep counts a key when it puts it into a batch. So a completed execution records how many
keys its batches named; a key named twice is removed once, and one that is gone by then not at
all.
-/
namespace Ratelimit.Management

open Library Records Store

section Removals

open Memory

variable {now : ℕ} {m : Entries} {ks : List Text} {db : Db} {h : List Ev} {fencing : Text}

def AllThere (now : ℤ) (m : Entries) (ks : List Text) : Prop :=
  ks.Nodup ∧ ∀ k ∈ ks, (live now m k).isSome = true

theorem unlinked_le : unlinked now m ks ≤ ks.length := by
  induction ks generalizing m with
  | nil => exact le_rfl
  | cons k ks ih =>
    have hrest := @ih (m.erase k)
    rw [unlinked, List.length_cons]
    split_ifs <;> omega

theorem live_erase {j k : Text} :
    live now (m.erase k) j = if j = k then none else live now m j := by
  unfold live
  by_cases hjk : j = k
  · rw [hjk, Finmap.lookup_erase, if_pos rfl]
    rfl
  · rw [Finmap.lookup_erase_ne hjk, if_neg hjk]

theorem unlinked_eq_length_iff : unlinked now m ks = ks.length ↔ AllThere now m ks := by
  induction ks generalizing m with
  | nil => simp [AllThere, unlinked]
  | cons k ks ih =>
    have hle := @unlinked_le now (m.erase k) ks
    have hhead : unlinked now m (k :: ks) = (k :: ks).length ↔
        (live now m k).isSome = true ∧ unlinked now (m.erase k) ks = ks.length := by
      rw [unlinked, List.length_cons]
      by_cases hlive : (live now m k).isSome = true
      · rw [if_pos hlive, and_iff_right hlive]
        omega
      · rw [if_neg hlive, iff_false_right fun hboth => hlive hboth.1]
        omega
    rw [hhead, ih, AllThere, AllThere, List.nodup_cons]
    constructor
    · rintro ⟨hlive, hnodup, hall⟩
      have hkept : ∀ j ∈ ks, j ≠ k ∧ (live now m j).isSome = true := by
        intro j hj
        have hthere := hall j hj
        rw [live_erase] at hthere
        split_ifs at hthere with hjk
        · cases hthere
        · exact ⟨hjk, hthere⟩
      refine ⟨⟨fun hmem => (hkept k hmem).1 rfl, hnodup⟩, fun j hj => ?_⟩
      rcases List.mem_cons.mp hj with rfl | hj
      · exact hlive
      · exact (hkept j hj).2
    · rintro ⟨⟨hmem, hnodup⟩, hall⟩
      refine ⟨hall k List.mem_cons_self, hnodup, fun j hj => ?_⟩
      rw [live_erase, if_neg (ne_of_mem_of_not_mem hj hmem)]
      exact hall j (List.mem_cons_of_mem _ hj)

def batchRun (fencing : Text) (ev : Ev) : Option Batch :=
  (mark ev).batch.filter fun b => b.fencing = fencing

/-- How many counters the batches of a command removed from the store. -/
def removed (fencing : Text) : Db → List Ev → ℕ
  | _, [] => 0
  | db, ev :: h =>
    (match batchRun fencing ev with
      | some b => unlinked db.now db.counters b.delete
      | none => 0) + removed fencing (redis.apply db ev) h

def EachThere (fencing : Text) (db : Db) (h : List Ev) : Prop :=
  ∀ pre ev post b, h = pre ++ ev :: post → batchRun fencing ev = some b →
    AllThere (redis.replay db pre).now (redis.replay db pre).counters b.delete

def named (fencing : Text) (h : List Ev) : List Text := (batches fencing h).flatMap Batch.delete

theorem named_cons (ev : Ev) : named fencing (ev :: h) =
    ((batchRun fencing ev).elim [] Batch.delete) ++ named fencing h := by
  unfold named batches batchRun
  rw [List.filterMap_cons]
  cases hmark : (mark ev).batch with
  | none => simp
  | some b => by_cases hF : b.fencing = fencing <;> simp [Option.filter, hF]

theorem eachThere_cons {ev : Ev} : EachThere fencing db (ev :: h) ↔
    (∀ b, batchRun fencing ev = some b → AllThere db.now db.counters b.delete) ∧
      EachThere fencing (redis.apply db ev) h := by
  constructor
  · intro heach
    refine ⟨fun b hb => heach [] ev h b rfl hb, fun pre ev' post b hsplit hb => ?_⟩
    exact heach (ev :: pre) ev' post b (by rw [hsplit]; rfl) hb
  · rintro ⟨hhere, hlater⟩ pre ev' post b hsplit hb
    cases pre with
    | nil =>
      obtain ⟨rfl, rfl⟩ := List.cons.inj hsplit
      exact hhere b hb
    | cons ev'' pre =>
      obtain ⟨rfl, htail⟩ := List.cons.inj hsplit
      exact hlater pre ev' post b htail hb

theorem removed_le : ∀ {db : Db}, removed fencing db h ≤ (named fencing h).length := by
  induction h with
  | nil => exact le_rfl
  | cons ev h ih =>
    intro db
    have hrest := @ih (redis.apply db ev)
    rw [removed, named_cons, List.length_append]
    cases batchRun fencing ev with
    | none => simpa using hrest
    | some b => exact Nat.add_le_add unlinked_le hrest

theorem removed_eq_iff : ∀ {db : Db},
    removed fencing db h = (named fencing h).length ↔ EachThere fencing db h := by
  induction h with
  | nil => simp [removed, named, batches, EachThere]
  | cons ev h ih =>
    intro db
    have hrest := @removed_le h fencing (redis.apply db ev)
    rw [eachThere_cons, ← ih, removed, named_cons, List.length_append]
    cases batchRun fencing ev with
    | none => simp
    | some b =>
      have hle := @unlinked_le db.now db.counters b.delete
      simp only [Option.elim_some, Option.some.injEq, forall_eq', ← unlinked_eq_length_iff]
      omega

end Removals

section Tally

/-- So many keys were counted, in all and rule by rule. -/
def Tallied (p : Progress) (n : ℕ) : Prop := p.reset = n ∧ total p.rules = n

/-- What a completed execution records: the keys that its batches named. -/
def Tallies (a : Admitted) (τ : Seen) : Req → Prop
  | .commit x => x.outcome.failed = false → x.outcome.code ≠ Code.interrupted.text ∧
      (a.command.dryRun = false → Tallied x.outcome.progress (dropped τ).length)
  | _ => True

/-- The count of a walk is that of the keys dropped so far. -/
def Counted (a : Admitted) (τ : Seen) (w : Walker) : Prop :=
  a.command.dryRun = false → Tallied w.progress (dropped τ).length

variable {std : Stdlib} {a : Admitted} {τ : Seen} {w : Walker} {x : Exchange Reply}

theorem Tallied.count {p : Progress} {n : ℕ} (h : Tallied p n) (kept : List CounterCandidate) :
    Tallied (kept.foldl (countKey true) p) (n + kept.length) := by
  induction kept generalizing p n with
  | nil => exact h
  | cons c kept ih =>
    have hone : Tallied (countKey true p c) (n + 1) := by
      refine ⟨congrArg (· + 1) h.1, ?_⟩
      rw [countKey, total_count, h.2]
    rw [List.foldl_cons, List.length_cons, Nat.add_comm kept.length 1, ← Nat.add_assoc]
    exact ih hone

theorem Counted.silent (h : Counted a τ w) (hx : batchOf x = none) : Counted a (τ ++ [x]) w := by
  unfold Counted
  rw [dropped_of_silent hx]
  exact h

theorem counts_deleteBatch (h : Counted a τ w) (kept : List CounterCandidate) :
    Obeys (Tallies a) (fun τ' r => r.2 = none → Counted a τ' { r.1 with batch := [] }) τ
      (a.sweep.deleteBatch w kept) := by
  unfold Sweep.deleteBatch
  rw [obeys_ite]
  constructor
  · rintro rfl _
    exact h
  · intro _
    refine obeys_ask.mpr ⟨trivial, fun verdict => ?_⟩
    rcases verdict with _ | (_ | _)
    · exact fun hnone => nomatch hnone
    · intro _ hexecute
      have hcounted := (h hexecute).count kept
      have hexecutes : a.sweep.command.dryRun = false := hexecute
      simpa [dropped, batchOf, hexecutes] using hcounted
    · exact fun hnone => nomatch hnone

theorem counts_refusing (h : Counted a τ w) (batch : List CounterCandidate) :
    Obeys (Tallies a) (fun τ' _ => Counted a τ' w) τ (refusing batch) := by
  unfold refusing
  split
  · trivial
  · refine obeys_ask.mpr ⟨trivial, fun answer => ?_⟩
    have hpeeked := h.silent (x := ⟨.peek _, answer⟩) rfl
    split
    · rw [obeys_ite]
      exact ⟨fun _ => hpeeked, fun _ => hpeeked⟩
    · exact hpeeked

theorem counts_commitBatch (h : Counted a τ w) :
    Obeys (Tallies a) (fun τ' r => r.2 = none → Counted a τ' { r.1 with batch := [] }) τ
      (a.sweep.commitBatch w) := by
  unfold Sweep.commitBatch
  rw [obeys_ite, obeys_ite]
  refine ⟨fun _ _ => h, fun _ => ⟨fun _ => ?_, fun _ => counts_deleteBatch h _⟩⟩
  refine obeys_bind.mpr ((counts_refusing h _).mono ?_)
  intro τ' kept hpeeked
  cases kept with
  | none => exact fun hnone => nomatch hnone
  | some kept => exact counts_deleteBatch hpeeked kept

theorem counts_rule : WalkRule (Tallies a) a.sweep (Counted a) where
  clock h := ⟨trivial, fun _ => h.silent rfl⟩
  scan _ h := ⟨trivial, fun _ => h.silent rfl⟩
  pass h := h
  take _ h := h
  commit h := counts_commitBatch h

theorem tallies_of_failed {x : Commit} (hfailed : x.outcome.failed = true) :
    Tallies a τ (.commit x) := by
  intro hdone
  rw [hfailed] at hdone
  cases hdone

theorem counts_lookup {Q : Seen → Option Record → Prop}
    (hQ : ∀ fields holder ttl, Q (looks a τ fields holder ttl) (looked fields holder ttl)) :
    Obeys (Tallies a) Q τ (lookup a.keys) := by
  refine obeys_ask.mpr ⟨trivial, fun fields => ?_⟩
  refine obeys_ask.mpr ⟨trivial, fun holder => ?_⟩
  exact obeys_ask.mpr ⟨trivial, fun ttl => hQ fields holder ttl⟩

/-- What the handler answers is not looked at here. -/
abbrev Whatever {α : Type} : Seen → α → Prop := fun _ _ => True

theorem counts_commitOutcome {outcome : Outcome} {answer : Response BulkResult}
    (h : Tallies a τ (.commit ⟨a.keys, a.call.fencing, outcome⟩)) :
    Obeys (Tallies a) Whatever τ (commitOutcome a outcome answer) := by
  refine obeys_ask.mpr ⟨h, fun verdict => ?_⟩
  rcases verdict with _ | (_ | _)
  · trivial
  · trivial
  · refine obeys_bind.mpr (counts_lookup fun fields holder ttl => ?_)
    split
    · rw [obeys_ite]
      exact ⟨fun _ => trivial, fun _ => trivial⟩
    · trivial

theorem counts_recordFailure (w : Walker) (fault : Fault) :
    Obeys (Tallies a) Whatever τ (recordFailure a w fault) := by
  cases fault with
  | deadline => exact counts_commitOutcome (tallies_of_failed rfl)
  | failed =>
    refine obeys_bind.mpr (counts_lookup fun fields holder ttl => ?_)
    split
    · rw [obeys_ite]
      exact ⟨fun _ => trivial, fun _ => counts_commitOutcome (tallies_of_failed rfl)⟩
    · trivial

theorem counts_finishSweep (h : Counted a τ w) :
    Obeys (Tallies a) Whatever τ (finishSweep std a w) := by
  unfold finishSweep
  rw [obeys_ite]
  constructor
  · intro hdry
    have hpreview : ∀ {τ : Seen} {outcome : Outcome}, outcome.code = [] →
        Tallies a τ (.commit ⟨a.keys, a.call.fencing, outcome⟩) := by
      intro τ outcome hcode _
      refine ⟨hcode ▸ unset_ne_interrupted, fun hexecute => ?_⟩
      rw [hdry] at hexecute
      cases hexecute
    refine obeys_bind.mpr (obeys_bind.mpr (obeys_ask.mpr ⟨trivial, fun reading => ?_⟩))
    cases reading with
    | none => trivial
    | some t =>
      refine obeys_ask.mpr ⟨trivial, fun stored => ?_⟩
      cases stored with
      | none => exact counts_recordFailure w .failed
      | some _ => exact counts_commitOutcome (hpreview rfl)
  · intro _
    exact counts_commitOutcome fun _ => ⟨unset_ne_interrupted, h⟩

theorem counts_sweep (h : Fresh τ) : Obeys (Tallies a) Whatever τ (sweep std a) := by
  have hstart : Counted a τ Walker.start := by
    intro _
    rw [dropped, h.unbatched]
    exact ⟨rfl, rfl⟩
  refine obeys_bind.mpr (counts_rule.now hstart fun τ t hstart => ?_)
  refine obeys_bind.mpr ((counts_rule.run _ _ [] hstart).mono ?_)
  rintro τ' ⟨walker, fault⟩ hcounted
  cases fault with
  | some fault => exact counts_recordFailure walker fault
  | none => exact counts_finishSweep (hcounted rfl)

theorem counts_standing (record : Record) :
    Obeys (Tallies a) Whatever τ (standing std a record) := by
  have hanswer : ∀ (τ' : Seen) (r : Option Record), Obeys (Tallies a) Whatever τ' (afterFinalize a r) := by
    intro τ' r
    unfold afterFinalize
    split
    · trivial
    · rw [obeys_ite, obeys_ite]
      exact ⟨fun _ => trivial, fun _ => ⟨fun _ => trivial, fun _ => trivial⟩⟩
  unfold standing
  rw [obeys_ite, obeys_ite, obeys_ite]
  refine ⟨fun _ => trivial, fun _ => ⟨fun _ => trivial, fun _ => ⟨fun _ => trivial, fun _ => ?_⟩⟩⟩
  refine obeys_bind.mpr (obeys_bind.mpr (counts_lookup fun fields holder ttl => ?_))
  split
  · trivial
  · next current _ =>
    rw [obeys_ite]
    refine ⟨fun _ => hanswer _ (some current), fun _ => ?_⟩
    refine obeys_ask.mpr ⟨trivial, fun verdict => ?_⟩
    cases verdict with
    | none => trivial
    | some verdict => exact counts_lookup fun _ _ _ => hanswer _ _

theorem counts_acceptCommand (h : Fresh τ) :
    Obeys (Tallies a) Whatever τ (acceptCommand std a) := by
  have hfresh : ∀ verdict, Fresh (τ ++ [⟨.accept (a.acceptance std), verdict⟩]) :=
    fun verdict => h.idle ⟨rfl, rfl, rfl⟩ rfl
  refine obeys_bind.mpr (obeys_ask.mpr ⟨trivial, fun verdict => ?_⟩)
  rcases verdict with _ | (_ | ttl | _ | token)
  · trivial
  · refine obeys_bind.mpr (counts_lookup fun fields holder ttl => ?_)
    cases looked fields holder ttl with
    | none => trivial
    | some record =>
      simp only [Option.map_some, obeys_pure]
      rw [obeys_ite]
      exact ⟨fun _ => counts_sweep (hfresh _).looks, fun _ => counts_standing record⟩
  · trivial
  · trivial
  · exact counts_sweep (hfresh _)

theorem counts_resolve : Obeys (Tallies a) Whatever [] (resolve std a) := by
  refine obeys_bind.mpr (counts_lookup fun fields holder ttl => ?_)
  have hfresh : Fresh (looks a [] fields holder ttl) := fresh_nil.looks
  cases looked fields holder ttl with
  | none => trivial
  | some record =>
    rw [obeys_ite, obeys_ite]
    refine ⟨fun _ => counts_standing record, fun _ => ⟨fun _ => counts_acceptCommand hfresh, fun _ => ?_⟩⟩
    refine obeys_bind.mpr (obeys_ask.mpr ⟨trivial, fun found => ?_⟩)
    have hlooked := hfresh.idle
      (x := ⟨.get (tokenKey a.scope a.command.confirmationToken), found⟩) ⟨rfl, rfl, rfl⟩ rfl
    rcases found with _ | (_ | token)
    · trivial
    · trivial
    · rw [obeys_pure]
      split
      · trivial
      · exact counts_acceptCommand hlooked

end Tally

section Counts

variable {std : Stdlib} {cs : Schedule}

def Counting (std : Stdlib) : Call → Seen → Req → Prop
  | .bulk c, τ, r => ∀ a, admitBulk std c = .ok a → Tallies a τ r
  | .reset _, _, _ => True

theorem counts_handle (c : Call) : Obeys (Counting std c) Whatever [] (handle std c) := by
  cases c with
  | bulk c =>
    refine obeys_bind.mpr ?_
    unfold handleBulkReset
    cases hadmits : admitBulk std c with
    | error e => trivial
    | ok a =>
      refine (@counts_resolve std a).imp (fun τ r hr a' hadmits' => ?_) fun _ _ _ => trivial
      rw [← Except.ok.inj (hadmits.symm.trans hadmits')]
      exact hr
  | reset c => exact obeys_of_forall (fun _ _ => trivial) (fun _ _ => trivial) _

theorem counts_traced (std : Stdlib) (cs : Schedule) :
    Traced redis Db.empty (Counting std) (fun _ => Whatever) (serve std cs) :=
  traced_steps counts_handle Db.empty cs

def Executes (std : Stdlib) (c : BulkCall) : Prop :=
  ∃ a, admitBulk std c = .ok a ∧ a.command.dryRun = false

theorem tallied_of_completed (hunique : (fencings cs).Nodup) {c : BulkCall} {pre : List Ev}
    {x : Commit} (hexecutes : Executes std c) (h : RanFor (serve std cs) c pre (.commit x) .ok)
    (hdone : x.outcome.failed = false) :
    Tallied x.outcome.progress (named c.fencing pre).length := by
  obtain ⟨i, late, o, post, t, a, τ, rfl, hsplit, hsent⟩ := h.sent rfl
  obtain ⟨a', hadmits, hexecute⟩ := hexecutes
  obtain rfl := Except.ok.inj (hsent.admitted.symm.trans hadmits)
  have hcounting := (counts_traced std cs).sent i t hsent.thread τ _ hsent.sent
  rw [hsent.call] at hcounting
  obtain ⟨hcode, htallied⟩ := hcounting a hadmits hdone
  obtain ⟨-, -, ⟨hran, -⟩ | ⟨hinterrupted, -⟩⟩ := hsent.permitted
  · rw [named, batches_walked hunique hsplit hsent hran, List.flatMap_map]
    exact htallied hexecute
  · exact absurd hinterrupted hcode

/-- A completed execution counts the counters its batches removed exactly where each
of them named keys that differ and were there. -/
theorem resetCount_eq_removed_iff (std : Stdlib) (cs : Schedule) (hunique : (fencings cs).Nodup)
    (c : BulkCall) (pre : List Ev) (x : Commit) (hexecutes : Executes std c)
    (h : RanFor (serve std cs) c pre (.commit x) .ok) (hdone : x.outcome.failed = false) :
    (x.outcome.progress.reset = removed c.fencing Db.empty pre ∧
      total x.outcome.progress.rules = removed c.fencing Db.empty pre) ↔
      EachThere c.fencing Db.empty pre := by
  obtain ⟨hreset, hrules⟩ := tallied_of_completed hunique hexecutes h hdone
  rw [hreset, hrules, and_self, eq_comm]
  exact removed_eq_iff

theorem ranFor_of_committed {n : ℕ} {x : Commit} {c : BulkCall}
    (hmark : ((serve std cs).history[n]?).map mark = some (.committed x))
    (hspawned : ∀ c', .bulk c' ∈ spawned cs → c'.fencing = x.fencing → c' = c) :
    RanFor (serve std cs) c ((serve std cs).history.take n) (.commit x) .ok := by
  obtain ⟨ev, hev, hmark⟩ := Option.map_eq_some_iff.mp hmark
  obtain ⟨i, late, o, rfl⟩ := mark_committed hmark
  obtain ⟨hn, hat⟩ := List.getElem?_eq_some_iff.mp hev
  have hsplit : (serve std cs).history = (serve std cs).history.take n ++
      .ran ⟨i, late, o, .commit x, .ok⟩ :: (serve std cs).history.drop (n + 1) := by
    rw [← hat, List.cons_getElem_drop_succ, List.take_append_drop]
  obtain ⟨t, a, τ, hsent⟩ := bulk_ran hsplit rfl
  obtain ⟨-, hfencing, -⟩ := hsent.permitted
  have hmem := List.mem_of_getElem? (call_spawned hsent.thread)
  rw [hsent.call] at hmem
  have hcall := hspawned a.call hmem hfencing.symm
  exact ⟨i, late, o, _, t, hsplit, hsent.thread, hcall ▸ hsent.call⟩

/-- A deletion of one counter, with what happens between its scan and its batch. -/
def sweptCounter (between : Schedule) : Schedule :=
  acmeDeleted (turns 1 8 (finding (ascii "acme")) ++ between ++ turns 1 3 (finding (ascii "acme")))

def sweptCommit : Commit where
  keys := commandKeys shopScope
    (recordKey sampleStdlib shopScope endpointResets (ascii "alice") (ascii "k-3"))
    ⟨tenantSelector (ascii "acme"), false, false, ascii "ct-0123456789ab"⟩
  fencing := ascii "2f"
  outcome :=
    { Outcome.zero with
      progress := ⟨1, 1, 1, Finmap.singleton (ascii "orders/tenant") 1,
        [tenantCounter (ascii "acme")], false⟩ }

theorem acmeDeletion_executes : Executes sampleStdlib acmeDeletion := by
  have hadmits : ((admitBulk sampleStdlib acmeDeletion).toOption.map fun a => a.command.dryRun) =
      some false := by
    decide +kernel
  cases hok : admitBulk sampleStdlib acmeDeletion with
  | error e =>
    rw [hok] at hadmits
    cases hadmits
  | ok a =>
    rw [hok] at hadmits
    exact ⟨a, hok, Option.some.inj hadmits⟩

theorem sweptCounter_spawned {between : Schedule} (hbetween : spawned between = []) (c : BulkCall)
    (hc : .bulk c ∈ spawned (sweptCounter between)) (hfencing : c.fencing = ascii "2f") :
    c = acmeDeletion := by
  have hspawned : spawned (sweptCounter between) =
      [.bulk (previewTenant (ascii "acme") (ascii "k-1") 0), .bulk acmeDeletion] := by
    simpa [sweptCounter, acmeDeleted, turns, spawned] using hbetween
  rw [hspawned] at hc
  simp only [List.mem_cons, Call.bulk.injEq, List.not_mem_nil, or_false] at hc
  rcases hc with rfl | rfl
  · cases hfencing
  · rfl

theorem resetCount_eq_removed_one :
    let pre := (serve sampleStdlib (sweptCounter [])).history.take 23
    sweptCommit.outcome.progress.reset = removed (ascii "2f") Db.empty pre ∧
      total sweptCommit.outcome.progress.rules = removed (ascii "2f") Db.empty pre := by
  intro pre
  have hmark : ((serve sampleStdlib (sweptCounter [])).history[23]?).map mark =
      some (.committed sweptCommit) := by
    decide +kernel
  have hremoved : removed (ascii "2f") Db.empty pre = (named (ascii "2f") pre).length := by
    decide +kernel
  have hran := ranFor_of_committed hmark (sweptCounter_spawned rfl)
  exact (resetCount_eq_removed_iff sampleStdlib (sweptCounter []) (by decide +kernel) acmeDeletion
    pre sweptCommit acmeDeletion_executes hran rfl).mpr (removed_eq_iff.mp hremoved)

/-- The counter expires between the scan and its batch: one is counted, none is
removed. -/
theorem resetCount_of_expired :
    let w := serve sampleStdlib (sweptCounter [.env (.elapse 7000000)])
    (fencings (sweptCounter [.env (.elapse 7000000)])).Nodup ∧
      Executes sampleStdlib acmeDeletion ∧
      RanFor w acmeDeletion (w.history.take 24) (.commit sweptCommit) .ok ∧
      sweptCommit.outcome.failed = false ∧ sweptCommit.outcome.progress.reset = 1 ∧
      total sweptCommit.outcome.progress.rules = 1 ∧
      removed acmeDeletion.fencing Db.empty (w.history.take 24) = 0 := by
  intro w
  have hmark : (w.history[24]?).map mark = some (.committed sweptCommit) := by decide +kernel
  refine ⟨by decide +kernel, acmeDeletion_executes, ?_, rfl, rfl, by decide +kernel, by decide +kernel⟩
  exact ranFor_of_committed hmark (sweptCounter_spawned rfl)

end Counts

end Ratelimit.Management
