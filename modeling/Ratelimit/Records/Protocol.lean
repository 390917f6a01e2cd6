import Ratelimit.Library.Traces
import Ratelimit.Records.Redis

/-!
# Runs of the record store

A run is what the store executed, in order, with its replies: any sequence in which a fencing
value is accepted once, batches and commits carry the keys their acceptance had, and a
finalizer names the lease of its record's domain.
-/
namespace Ratelimit.Records

open Library Store Memory

abbrev Ev := Event Reply Oracle Env

section Marks

/-- What an event did to a command. -/
inductive Mark where
  | none
  | bound (a : Acceptance)
  | advanced (b : Batch)
  | committed (c : Commit)
  | finalized (f : Finalize)
  deriving DecidableEq

def mark : Ev → Mark
  | .ran ⟨_, _, _, .accept a, .accepted _⟩ => .bound a
  | .ran ⟨_, _, _, .batch b, .ok⟩ => .advanced b
  | .ran ⟨_, _, _, .commit c, .ok⟩ => .committed c
  | .ran ⟨_, _, _, .finalize f, .ok⟩ => .finalized f
  | _ => .none

def Mark.acceptance : Mark → Option Acceptance
  | .bound a => some a
  | _ => Option.none

def Mark.batch : Mark → Option Batch
  | .advanced b => some b
  | _ => Option.none

def acceptances (h : List Ev) : List Acceptance := h.filterMap fun ev => (mark ev).acceptance

def batches (fencing : Text) (h : List Ev) : List Batch :=
  (h.filterMap fun ev => (mark ev).batch).filter fun b => b.fencing = fencing

def lastClaim (lease : Text) (h : List Ev) : Option Acceptance :=
  ((acceptances h).filter fun a => a.keys.lease = lease).getLast?

def lastProgress (fencing : Text) (h : List Ev) : Option Progress :=
  (batches fencing h).getLast?.map Batch.progress

theorem mark_bound {ev : Ev} {x : Acceptance} (h : mark ev = .bound x) :
    ∃ i late o token, ev = .ran ⟨i, late, o, .accept x, .accepted token⟩ := by
  unfold mark at h
  split at h <;> cases h
  exact ⟨_, _, _, _, rfl⟩

theorem mark_advanced {ev : Ev} {b : Batch} (h : mark ev = .advanced b) :
    ∃ i late o, ev = .ran ⟨i, late, o, .batch b, .ok⟩ := by
  unfold mark at h
  split at h <;> cases h
  exact ⟨_, _, _, rfl⟩

theorem mark_committed {ev : Ev} {c : Commit} (h : mark ev = .committed c) :
    ∃ i late o, ev = .ran ⟨i, late, o, .commit c, .ok⟩ := by
  unfold mark at h
  split at h <;> cases h
  exact ⟨_, _, _, rfl⟩

theorem mark_finalized {ev : Ev} {f : Finalize} (h : mark ev = .finalized f) :
    ∃ i late o, ev = .ran ⟨i, late, o, .finalize f, .ok⟩ := by
  unfold mark at h
  split at h <;> cases h
  exact ⟨_, _, _, rfl⟩

end Marks

section Lookups

variable {db : Db} {k j : Text}

theorem lookup_hset (write : Fields → Fields) :
    (db.hset k write).records.lookup j =
      if j = k then
        let old := (db.records.lookup k).getD ⟨.empty, none⟩
        some { old with fields := write old.fields }
      else db.records.lookup j := by
  unfold Db.hset
  split_ifs with h
  · rw [h, Finmap.lookup_insert]
  · exact Finmap.lookup_insert_of_ne _ h

theorem lookup_hset_pexpire (write : Fields → Fields) (ms : ℕ) :
    ((db.hset k write).pexpire k ms).records.lookup j =
      if j = k then some ⟨write ((db.fields k).getD .empty), some (db.after ms)⟩
      else db.records.lookup j := by
  have hk := @lookup_hset db k k write
  rw [if_pos rfl] at hk
  rw [Db.pexpire, hk]
  split_ifs with h
  · rw [h, Finmap.lookup_insert]
    unfold Db.fields
    cases db.records.lookup k <;> rfl
  · rw [Finmap.lookup_insert_of_ne _ h, lookup_hset, if_neg h]

@[simp] theorem leases_hset (write : Fields → Fields) : (db.hset k write).leases = db.leases := rfl

@[simp] theorem leases_pexpire (ms : ℕ) : (db.pexpire k ms).leases = db.leases := by
  unfold Db.pexpire
  split <;> rfl

@[simp] theorem now_pexpire (ms : ℕ) : (db.pexpire k ms).now = db.now := by
  unfold Db.pexpire
  split <;> rfl

@[simp] theorem counters_pexpire (ms : ℕ) : (db.pexpire k ms).counters = db.counters := by
  unfold Db.pexpire
  split <;> rfl

theorem lookup_bindCommand (a : Acceptance) :
    (bindCommand db a).records.lookup j =
      if j = a.keys.record then
        some ⟨{ (db.fields a.keys.record).getD .empty with
            command := some a.command, fencing := some a.fencing }, some (db.after retention)⟩
      else db.records.lookup j := lookup_hset_pexpire _ _

theorem leases_bindCommand (a : Acceptance) :
    (bindCommand db a).leases =
      db.leases.insert a.keys.lease ⟨a.fencing, db.after a.leaseTTL⟩ := by
  simp [bindCommand]

theorem lookup_writeOutcome (outcome : Outcome) :
    (writeOutcome db k outcome).records.lookup j =
      if j = k then
        some ⟨{ (db.fields k).getD .empty with outcome := some outcome, terminal := true },
          some (db.after retention)⟩
      else db.records.lookup j := lookup_hset_pexpire _ _

theorem leases_writeOutcome (outcome : Outcome) :
    (writeOutcome db k outcome).leases = db.leases := by
  simp [writeOutcome]

theorem lookup_elapse_records (d : ℕ) :
    (elapse db d).records.lookup k =
      if expired (db.now + d) ((db.records.lookup k).bind Binding.expires) then none
      else db.records.lookup k := lookup_eraseWhere _ _

theorem lookup_elapse_leases (d : ℕ) :
    (elapse db d).leases.lookup k =
      if expired (db.now + d) ((db.leases.lookup k).map Lease.expires) then none
      else db.leases.lookup k := lookup_eraseWhere _ _

end Lookups

/-- Everything one event can do to the records and the leases. -/
inductive Change (db : Db) : Mark → Db → Prop
  | silent {db'} (hrecords : db'.records = db.records) (hleases : db'.leases = db.leases) :
      Change db .none db'
  | bind {db'} (a : Acceptance)
      (hfree : (db.fields a.keys.record).bind Fields.command = none)
      (hlease : db.leases.lookup a.keys.lease = none)
      (hrecords : ∀ k, db'.records.lookup k = (bindCommand db a).records.lookup k)
      (hleases : db'.leases =
        db.leases.insert a.keys.lease ⟨a.fencing, db.after a.leaseTTL⟩) : Change db (.bound a) db'
  | batch {db'} (b : Batch) (hheld : db.holder b.keys.lease = some b.fencing)
      (hrecords : db'.records =
        (db.hset b.keys.record fun f => { f with progress := some b.progress }).records)
      (hleases : db'.leases = db.leases) : Change db (.advanced b) db'
  | commit {db'} (c : Commit) (hheld : db.holder c.keys.lease = some c.fencing)
      (hrecords : db'.records = (writeOutcome db c.keys.record c.outcome).records)
      (hleases : db'.leases = db.leases.erase c.keys.lease) : Change db (.committed c) db'
  | finalize {db'} (f : Finalize) (fields : Fields)
      (hfields : db.fields f.keys.record = some fields) (hopen : fields.terminal = false)
      (hlease : db.leases.lookup f.keys.lease = none)
      (hrecords : db'.records = (writeOutcome db f.keys.record f.outcome).records)
      (hleases : db'.leases = db.leases) : Change db (.finalized f) db'
  | reset {db'} (r : Addressed) (count : ℕ)
      (hfree : (db.fields r.record).bind Fields.command = none)
      (hrecords : ∀ k, db'.records.lookup k = if k = r.record then
        some ⟨bindReset r count ((db.fields r.record).getD .empty), some (db.after retention)⟩
        else db.records.lookup k)
      (hleases : db'.leases = db.leases) : Change db .none db'
  | expire {db'} (now : ℕ)
      (hrecords : ∀ k, db'.records.lookup k =
        if expired now ((db.records.lookup k).bind Binding.expires) then none
        else db.records.lookup k)
      (hleases : ∀ k, db'.leases.lookup k =
        if expired now ((db.leases.lookup k).map Lease.expires) then none
        else db.leases.lookup k) : Change db .none db'
  | drop {db'} (lease : Text) (hrecords : db'.records = db.records)
      (hleases : db'.leases = db.leases.erase lease) : Change db .none db'

/-- The reply an event carries is the one the store gave. -/
def Replied (db : Db) : Ev → Prop
  | .ran e => e.reply = (exec db e.request e.oracle).2
  | .env _ => True

theorem change_accept (db : Db) (a : Acceptance) (i : ℕ) (late : Bool) (o : Oracle) :
    Change db (mark (.ran ⟨i, late, o, .accept a, (acceptScript db a).2⟩)) (acceptScript db a).1 := by
  unfold acceptScript
  split
  · exact .silent rfl rfl
  · next hfree =>
    split
    · exact .silent rfl rfl
    · next hlease =>
      split
      · exact .bind a hfree hlease (fun _ => rfl) (leases_bindCommand a)
      · split
        · exact .silent rfl rfl
        · refine .bind a hfree hlease (fun k => ?_) (leases_bindCommand a)
          rw [lookup_bindCommand, lookup_bindCommand]
          rfl

theorem change_batch (db : Db) (b : Batch) (i : ℕ) (late : Bool) (o : Oracle) :
    Change db (mark (.ran ⟨i, late, o, .batch b, (batchScript db b).2⟩)) (batchScript db b).1 := by
  unfold batchScript
  split_ifs with hheld
  · exact .silent rfl rfl
  · exact .batch b (not_not.mp hheld) rfl rfl

theorem change_commit (db : Db) (c : Commit) (i : ℕ) (late : Bool) (o : Oracle) :
    Change db (mark (.ran ⟨i, late, o, .commit c, (commitScript db c).2⟩)) (commitScript db c).1 := by
  unfold commitScript
  split_ifs with hheld
  · exact .silent rfl rfl
  · refine .commit c (not_not.mp hheld) rfl ?_
    simp only [leases_writeOutcome]

theorem change_finalize (db : Db) (f : Finalize) (i : ℕ) (late : Bool) (o : Oracle) :
    Change db (mark (.ran ⟨i, late, o, .finalize f, (finalizeScript db f).2⟩))
      (finalizeScript db f).1 := by
  unfold finalizeScript
  split
  · exact .silent rfl rfl
  · next fields hfields =>
    split_ifs with hterminal hheld
    · exact .silent rfl rfl
    · exact .silent rfl rfl
    · refine .finalize f fields hfields (Bool.not_eq_true _ ▸ hterminal) ?_ rfl
        (leases_writeOutcome _)
      simpa [Db.holder] using hheld

theorem command_of_free {fields : Option Fields}
    (h : ∀ command fencing progress outcome terminal count answer,
      fields ≠ some ⟨some command, fencing, progress, outcome, terminal, count, answer⟩) :
    fields.bind Fields.command = none := by
  rcases fields with _ | ⟨_ | command, fencing, progress, outcome, terminal, count, answer⟩
  · rfl
  · rfl
  · exact absurd rfl (h _ _ _ _ _ _ _)

theorem change_reset (db : Db) (r : Addressed) (i : ℕ) (late : Bool) (o : Oracle) :
    Change db (mark (.ran ⟨i, late, o, .reset r, (resetScript db r).2⟩)) (resetScript db r).1 := by
  unfold resetScript
  split
  · exact .silent rfl rfl
  · next hfree =>
    exact .reset r _ (command_of_free hfree) (fun k => lookup_hset_pexpire _ _) (by simp)

theorem change_apply {db : Db} {ev : Ev} (hreply : Replied db ev) :
    Change db (mark ev) (redis.apply db ev) := by
  cases ev with
  | env e =>
    cases e with
    | elapse d => exact .expire _ (fun _ => lookup_elapse_records d) fun _ => lookup_elapse_leases d
    | leaseLost k => exact .drop k rfl rfl
    | traffic op => exact .silent rfl rfl
  | ran e =>
    obtain ⟨i, late, o, r, v⟩ := e
    have hv : v = (exec db r o).2 := hreply
    subst hv
    cases r with
    | accept a => exact change_accept db a i late o
    | batch b => exact change_batch db b i late o
    | commit c => exact change_commit db c i late o
    | finalize f => exact change_finalize db f i late o
    | reset r => exact change_reset db r i late o
    | fields | holder | pttl | put | get | scan | peek | clock => exact .silent rfl rfl

/-- What a command may do after a history. -/
def Lawful (h : List Ev) : Mark → Prop
  | .none => True
  | .bound a => a.fencing ≠ [] ∧ a.leaseTTL ≤ retention ∧ ∀ a' ∈ acceptances h, a'.fencing ≠ a.fencing
  | .advanced b => ∀ a ∈ acceptances h, a.fencing = b.fencing →
      a.keys.record = b.keys.record ∧ a.keys.lease = b.keys.lease
  | .committed c => ∀ a ∈ acceptances h, a.fencing = c.fencing →
      a.keys.record = c.keys.record ∧ a.keys.lease = c.keys.lease
  | .finalized f => ∀ a ∈ acceptances h, a.keys.record = f.keys.record → a.keys.lease = f.keys.lease

def after (h : List Ev) : Db := redis.replay Db.empty h

/-- Every reply of a history is the one the store gave. -/
def Genuine (h : List Ev) : Prop := ∀ pre ev post, h = pre ++ ev :: post → Replied (after pre) ev

theorem Genuine.of_append {h h' : List Ev} (hgenuine : Genuine (h ++ h')) : Genuine h := by
  rintro pre ev post rfl
  exact hgenuine pre ev (post ++ h') (by simp)

theorem Genuine.last {h : List Ev} {ev : Ev} (hgenuine : Genuine (h ++ [ev])) : Replied (after h) ev :=
  hgenuine h ev [] rfl

inductive Run : List Ev → Prop
  | start : Run []
  | step {h ev} (run : Run h) (lawful : Lawful h (mark ev)) (reply : Replied (after h) ev) :
      Run (h ++ [ev])

theorem after_snoc (h : List Ev) (ev : Ev) : after (h ++ [ev]) = redis.apply (after h) ev :=
  replay_append h [ev]

theorem run_snoc {h : List Ev} {ev : Ev} (run : Run (h ++ [ev])) :
    Run h ∧ Lawful h (mark ev) ∧ Replied (after h) ev := by
  generalize hh : h ++ [ev] = h' at run
  cases run with
  | start => simp at hh
  | step run lawful reply =>
    obtain ⟨rfl, hev⟩ := List.append_inj' hh rfl
    obtain rfl := (List.cons.inj hev).1
    exact ⟨run, lawful, reply⟩

theorem Run.of_append {h h' : List Ev} (run : Run (h ++ h')) : Run h := by
  induction h' using List.reverseRecOn with
  | nil => rwa [List.append_nil] at run
  | append_singleton h' ev ih =>
    rw [← List.append_assoc] at run
    exact ih (run_snoc run).1

section Snoc

variable {h h' : List Ev} {ev : Ev} {F L : Text}

theorem acceptances_append : acceptances (h ++ h') = acceptances h ++ acceptances h' :=
  List.filterMap_append

theorem batches_append : batches F (h ++ h') = batches F h ++ batches F h' := by
  simp only [batches, List.filterMap_append, List.filter_append]

theorem acceptances_snoc :
    acceptances (h ++ [ev]) = acceptances h ++ (mark ev).acceptance.toList := by
  rw [acceptances_append]
  cases hm : (mark ev).acceptance <;> simp [acceptances, hm]

theorem batches_snoc :
    batches F (h ++ [ev]) =
      batches F h ++ (mark ev).batch.toList.filter fun b => b.fencing = F := by
  rw [batches_append]
  cases hm : (mark ev).batch <;> simp [batches, hm]

theorem lastClaim_of_unbound (hm : (mark ev).acceptance = none) :
    lastClaim L (h ++ [ev]) = lastClaim L h := by
  simp [lastClaim, acceptances_snoc, hm]

theorem lastClaim_of_bound {a : Acceptance} (hm : mark ev = .bound a) :
    lastClaim L (h ++ [ev]) = if a.keys.lease = L then some a else lastClaim L h := by
  unfold lastClaim
  rw [acceptances_snoc, hm]
  by_cases hL : a.keys.lease = L <;> simp [Mark.acceptance, hL]

theorem lastProgress_of_idle (hm : (mark ev).batch = none) :
    lastProgress F (h ++ [ev]) = lastProgress F h := by
  simp [lastProgress, batches_snoc, hm]

theorem lastProgress_of_advanced {b : Batch} (hm : mark ev = .advanced b) :
    lastProgress F (h ++ [ev]) =
      if b.fencing = F then some b.progress else lastProgress F h := by
  unfold lastProgress
  rw [batches_snoc, hm]
  by_cases hF : b.fencing = F <;> simp [Mark.batch, hF]

theorem mem_of_lastClaim {a : Acceptance} (hclaim : lastClaim L h = some a) :
    a ∈ acceptances h ∧ a.keys.lease = L := by
  have hmem := List.mem_of_getLast? hclaim
  simpa using List.mem_filter.mp hmem

theorem split_of_lastClaim {a : Acceptance} (hclaim : lastClaim L h = some a) :
    ∃ p ev q, h = p ++ ev :: q ∧ mark ev = .bound a ∧
      ∀ ev' ∈ q, ¬ ∃ a', mark ev' = .bound a' ∧ a'.keys.lease = L := by
  refine exists_since (P := fun h => lastClaim L h = some a) (fun h => by cases h)
    (fun h ev hclaim => ?_) hclaim
  cases hm : mark ev with
  | bound a' =>
    rw [lastClaim_of_bound hm] at hclaim
    split_ifs at hclaim with hL
    · exact Or.inl (congrArg Mark.bound (Option.some.inj hclaim))
    · refine Or.inr ⟨hclaim, ?_⟩
      rintro ⟨a'', ⟨⟩, hL'⟩
      exact hL hL'
  | none | advanced | committed | finalized =>
    rw [lastClaim_of_unbound (by rw [hm]; rfl)] at hclaim
    exact Or.inr ⟨hclaim, fun ⟨_, hm', _⟩ => by cases hm'⟩

end Snoc

end Ratelimit.Records
