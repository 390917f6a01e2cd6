import Ratelimit.Records.Bindings
import Ratelimit.Store.Frame

/-!
# What a history did to the counters

The record scripts reach the counters through deletions only, and traffic reaches
them through the counter store, so the counters after a history are those after a
run of the counter store. The log of that run marks the deletions of one caller.
-/
namespace Ratelimit.Management

open Library Records Store Memory

section Effects

/-- What an event did to the counters, as a call of the counter store. -/
def counterOp : Ev → Option Op
  | .env (.traffic op) => some op
  | .ran ⟨_, _, _, .peek bs, _⟩ => some (.peek bs)
  | .ran ⟨_, _, _, .batch b, .ok⟩ => some (.reset b.delete)
  | .ran ⟨_, _, _, .reset r, .done _⟩ => if r.dryRun then none else some (.reset r.delete)
  | _ => none

def deletesFor (i : ℕ) : Ev → Bool
  | .ran ⟨j, _, _, .batch _, _⟩ => decide (j = i)
  | .ran ⟨j, _, _, .reset _, _⟩ => decide (j = i)
  | _ => false

/-- What a history did to the counters, the deletions for one caller marked. -/
def counterLog (i : ℕ) : Db → List Ev → List (Bool × Store.Call)
  | _, [] => []
  | db, ev :: h =>
    ((counterOp ev).map fun op => (deletesFor i ev, ⟨db.now, op⟩)).toList ++
      counterLog i (redis.apply db ev) h

def deletedIn (log : List (Bool × Store.Call)) : List Text :=
  (log.filter Prod.fst).flatMap fun x => x.2.op.deletions

variable {db : Db} {ev : Ev} {h : List Ev} {i : ℕ}

/-- The part of the store that the records are not in. -/
def aside (db : Db) : ℕ × Entries := (db.now, db.counters)

theorem aside_pexpire (k : Text) (ms : ℕ) : aside (db.pexpire k ms) = aside db := by
  simp [aside]

theorem aside_accept (a : Acceptance) : aside (acceptScript db a).1 = aside db := by
  have hbind : ∀ db : Db, aside (bindCommand db a) = aside db := fun _ => aside_pexpire _ _
  unfold acceptScript
  split
  · rfl
  · split
    · rfl
    · split
      · exact hbind db
      · split
        · rfl
        · exact hbind _

theorem aside_writeOutcome (k : Text) (outcome : Records.Outcome) :
    aside (writeOutcome db k outcome) = aside db := aside_pexpire _ _

theorem aside_commit (c : Commit) : aside (commitScript db c).1 = aside db := by
  unfold commitScript
  split_ifs
  · rfl
  · exact aside_writeOutcome _ _

theorem aside_finalize (f : Finalize) : aside (finalizeScript db f).1 = aside db := by
  unfold finalizeScript
  split
  · rfl
  · split_ifs
    · rfl
    · rfl
    · exact aside_writeOutcome _ _

theorem aside_batch (b : Batch) :
    (batchScript db b = (db, .lost)) ∨ ((batchScript db b).2 = .ok ∧
      aside (batchScript db b).1 = (db.now, storeReset db.counters b.delete)) := by
  unfold batchScript
  split_ifs
  · exact Or.inl rfl
  · exact Or.inr ⟨rfl, rfl⟩

theorem aside_reset (r : Addressed) :
    (∃ command count answer, resetScript db r = (db, .replayed command count answer)) ∨
    ((∃ n, (resetScript db r).2 = .done n) ∧ aside (resetScript db r).1 =
      (db.now, if r.dryRun then db.counters else storeReset db.counters r.delete)) := by
  unfold resetScript
  split
  · exact Or.inl ⟨_, _, _, rfl⟩
  · exact Or.inr ⟨⟨_, rfl⟩, aside_pexpire _ _⟩

/-- Every event is a call of the counter store, or leaves the counters alone. -/
theorem aside_apply (hreply : Replied db ev) :
    db.now ≤ (redis.apply db ev).now ∧ (redis.apply db ev).counters =
      ((counterOp ev).map fun op => (storeCall db.counters ⟨db.now, op⟩).1).getD db.counters := by
  have hsame : ∀ {db' : Db}, aside db' = aside db → db.now ≤ db'.now ∧ db'.counters = db.counters := by
    intro db' h
    obtain ⟨hnow, hcounters⟩ := Prod.mk.inj h
    exact ⟨hnow.ge, hcounters⟩
  cases ev with
  | env e =>
    cases e with
    | elapse d => exact ⟨Nat.le_add_right _ _, rfl⟩
    | leaseLost k => exact ⟨le_rfl, rfl⟩
    | traffic op => exact ⟨le_rfl, rfl⟩
  | ran e =>
    obtain ⟨j, late, o, r, v⟩ := e
    have hv : v = (exec db r o).2 := hreply
    subst hv
    cases r with
    | accept a => exact hsame (aside_accept a)
    | commit c => exact hsame (aside_commit c)
    | finalize f => exact hsame (aside_finalize f)
    | batch b =>
      have happly : redis.apply db (.ran ⟨j, late, o, .batch b, (exec db (.batch b) o).2⟩) =
        (batchScript db b).1 := rfl
      have hverdict : (exec db (.batch b) o).2 = (batchScript db b).2 := rfl
      rw [happly, hverdict]
      rcases @aside_batch db b with hlost | ⟨hok, haside⟩
      · rw [hlost]
        exact ⟨le_rfl, rfl⟩
      · obtain ⟨hnow, hcounters⟩ := Prod.mk.inj haside
        rw [hok]
        exact ⟨hnow.ge, hcounters⟩
    | reset r =>
      have happly : redis.apply db (.ran ⟨j, late, o, .reset r, (exec db (.reset r) o).2⟩) =
        (resetScript db r).1 := rfl
      have hverdict : (exec db (.reset r) o).2 = (resetScript db r).2 := rfl
      rw [happly, hverdict]
      rcases @aside_reset db r with ⟨command, count, answer, hreplayed⟩ | ⟨⟨n, hdone⟩, haside⟩
      · rw [hreplayed]
        exact ⟨le_rfl, rfl⟩
      · obtain ⟨hnow, hcounters⟩ := Prod.mk.inj haside
        rw [hdone]
        refine ⟨hnow.ge, hcounters.trans ?_⟩
        cases hdry : r.dryRun <;> simp [counterOp, hdry, storeCall]
    | fields | holder | pttl | put | get | scan | peek | clock => exact ⟨le_rfl, rfl⟩

/-- The replies of a history from this content on are the ones the store gave. -/
def GenuineFrom : Db → List Ev → Prop
  | _, [] => True
  | db, ev :: h => Replied db ev ∧ GenuineFrom (redis.apply db ev) h

theorem counters_log (i : ℕ) : ∀ {db : Db}, GenuineFrom db h →
    (redis.replay db h).counters =
      (runs storeCall db.counters ((counterLog i db h).map Prod.snd)).1 := by
  induction h with
  | nil => exact fun _ => rfl
  | cons ev h ih =>
    intro db hgenuine
    have htail := ih hgenuine.2
    rw [(aside_apply hgenuine.1).2] at htail
    cases hop : counterOp ev with
    | none => simpa [counterLog, hop, Server.replay] using htail
    | some op => simpa [counterLog, hop, Server.replay] using htail

theorem monotone_log (i : ℕ) : ∀ {db : Db}, GenuineFrom db h →
    ∀ {t}, t ≤ db.now → MonotoneFrom (fun x => x.2.now) t (counterLog i db h) := by
  induction h with
  | nil => exact fun _ _ _ => trivial
  | cons ev h ih =>
    intro db hgenuine t ht
    have hnow := (aside_apply hgenuine.1).1
    cases hop : counterOp ev with
    | none => simpa [counterLog, hop] using ih hgenuine.2 (ht.trans hnow)
    | some op => simpa [counterLog, hop] using ⟨ht, ih hgenuine.2 hnow⟩

theorem reset_of_deletesFor {op : Op} (hmark : deletesFor i ev = true) (hop : counterOp ev = some op) :
    ∃ ks, op = .reset ks := by
  unfold deletesFor at hmark
  split at hmark
  · next j late o b v =>
    cases v <;> cases hop
    exact ⟨_, rfl⟩
  · next j late o r v =>
    cases v with
    | replayed => cases hop
    | done n =>
      simp only [counterOp] at hop
      split_ifs at hop
      exact ⟨_, (Option.some.inj hop).symm⟩
  · cases hmark

theorem reset_of_marked : ∀ {db : Db}, ∀ x ∈ counterLog i db h, x.1 = true →
    ∃ ks, x.2.op = .reset ks := by
  induction h with
  | nil => exact fun x hx => by cases hx
  | cons ev h ih =>
    intro db x hx hmark
    rcases List.mem_append.mp hx with hhead | htail
    · obtain ⟨op, hop, rfl⟩ := Option.map_eq_some_iff.mp (Option.mem_toList.mp hhead)
      exact reset_of_deletesFor hmark hop
    · exact ih x htail hmark

theorem subset_deletedIn {log : List (Bool × Store.Call)} {x : Bool × Store.Call} {ks : List Text}
    (hx : x ∈ log) (hmark : x.1 = true) (hop : x.2.op = .reset ks) : ks ⊆ deletedIn log := by
  intro k hk
  refine List.mem_flatMap.mpr ⟨x, List.mem_filter.mpr ⟨hx, hmark⟩, ?_⟩
  rw [hop]
  exact hk

theorem genuineFrom_of_replied : ∀ {db : Db},
    (∀ pre ev post, h = pre ++ ev :: post → Replied (redis.replay db pre) ev) → GenuineFrom db h := by
  induction h with
  | nil => exact fun _ => trivial
  | cons ev h ih =>
    intro db hreplied
    refine ⟨hreplied [] ev h rfl, ih fun pre ev' post hsplit => ?_⟩
    exact hreplied (ev :: pre) ev' post (by rw [hsplit]; rfl)

end Effects

end Ratelimit.Management
