import Ratelimit.Records.Redis
import Ratelimit.Store.Observation

/-!
# The command records in one process

`Memory` keeps the records, the leases and the tokens in maps of one process. One mutex stands
in for the one script, so a call is one function of the state and of the clock. An expired
entry counts as absent.
-/
namespace Ratelimit.Records

open Library Store Memory

/-- What the process keeps under a record key, the type `entry`. -/
structure MemEntry where
  command : Text
  fencing : Text
  terminal : Bool
  progress : Progress
  outcome : Outcome
  answer : Option ResetResponse
  expiresAt : ℕ
  deriving DecidableEq

structure Mem where
  counters : Entries
  records : Finmap fun _ : Text => MemEntry
  leases : Finmap fun _ : Text => Lease
  documents : Finmap fun _ : Text => Token

/-- The function `NewMemory`. -/
def Mem.new (store : Entries) : Mem := ⟨store, ∅, ∅, ∅⟩

namespace Mem

variable (now : ℕ)

def add (ms : ℕ) : ℕ := now + ms * 1000

def record (m : Mem) (key : Text) : Mem × Option MemEntry :=
  match m.records.lookup key with
  | none => (m, none)
  | some held =>
    if now < held.expiresAt then (m, some held)
    else ({ m with records := m.records.erase key }, none)

def lease (m : Mem) (key : Text) : Option Lease :=
  (m.leases.lookup key).filter fun held => now < held.expires

def document (m : Mem) (key : Text) : Option Token :=
  (m.documents.lookup key).filter fun held => now < held.expires

def owns (m : Mem) (key fencing : Text) : Bool :=
  match m.lease now key with
  | some held => decide (held.holder = fencing)
  | none => false

def left (held : Lease) : ℤ := microsDuration ((held.expires : ℤ) - now)

def shown (e : MemEntry) : Record :=
  { Record.absent with
    found := true
    command := e.command
    terminal := e.terminal
    outcome := e.outcome
    progress := e.progress
    answer := e.answer
    fencing := e.fencing }

def read (m : Mem) (keys : Keys) : Mem × Record :=
  let (m, held) := m.record now keys.record
  match held with
  | none => (m, .absent)
  | some record =>
    match m.lease now keys.lease with
    | some held => (m, { shown record with leaseHolder := held.holder, leaseTTL := left now held })
    | none => (m, shown record)

def bind (m : Mem) (a : Acceptance) : Mem :=
  { m with
    records := m.records.insert a.keys.record
      ⟨a.command, a.fencing, false, .zero, .zero, none, add now retention⟩
    leases := m.leases.insert a.keys.lease ⟨a.fencing, add now a.leaseTTL⟩ }

def accept (m : Mem) (a : Acceptance) : Mem × Accepted :=
  let (m, held) := m.record now a.keys.record
  match held with
  | some _ =>
    let (m, existing) := m.read now a.keys
    (m, .existing existing)
  | none =>
    match m.lease now a.keys.lease with
    | some held => (m, .sweepBusy (left now held))
    | none =>
      match a.keys.token with
      | none => (m.bind now a, .ok none)
      | some key =>
        match m.document now key with
        | none => (m, .tokenMissing)
        | some held =>
          ({ m with documents := m.documents.erase key }.bind now a, .ok (some held.document))

def batch (m : Mem) (b : Batch) : Mem × WriteVerdict :=
  if m.owns now b.keys.lease b.fencing = false then (m, .lost)
  else
    let (m, held) := m.record now b.keys.record
    match held with
    | none => (m, .lost)
    | some record =>
      ({ m with
        counters := if b.delete = [] then m.counters else storeReset m.counters b.delete
        records := m.records.insert b.keys.record { record with progress := b.progress } }, .ok)

def commit (m : Mem) (c : Commit) : Mem × WriteVerdict :=
  if m.owns now c.keys.lease c.fencing = false then (m, .lost)
  else
    let (m, held) := m.record now c.keys.record
    match held with
    | none => (m, .lost)
    | some record =>
      ({ m with
        records := m.records.insert c.keys.record
          { record with
            terminal := true
            outcome := c.outcome
            progress := c.outcome.progress
            expiresAt := add now retention }
        leases := m.leases.erase c.keys.lease }, .ok)

def finalize (m : Mem) (f : Finalize) : Mem × Record :=
  let (m, held) := m.record now f.keys.record
  match held with
  | none => (m, .absent)
  | some record =>
    if record.terminal then m.read now f.keys
    -- A live owner beat the finalizer to it.
    else if (m.lease now f.keys.lease).isSome then m.read now f.keys
    else
      let written := { m with
        records := m.records.insert f.keys.record
          { record with
            terminal := true
            outcome := { f.outcome with progress := record.progress }
            expiresAt := add now retention } }
      written.read now f.keys

/-- The walk of `exists` from a cursor on. -/
def existsFrom (k : Text) : ℕ → Entries → Text → Entries × Option Bool
  | 0, store, _ => (store, none)
  | steps + 1, store, cursor =>
    match storeScan now store k cursor 64 with
    | (store, .error _) => (store, none)
    | (store, .ok (found, next)) =>
      if k ∈ found then (store, some true)
      else if next = [] then (store, some false)
      else existsFrom k steps store next

/-- The function `exists`. Every step but the last passes a key of the store. -/
def existsKey (store : Entries) (k : Text) : Entries × Option Bool :=
  existsFrom now k (store.keys.card + 1) store []

/-- Which of the keys the counter store holds, in their order. -/
def live : Entries → List Text → Entries × Option (List Text)
  | store, [] => (store, some [])
  | store, k :: keys =>
    let (store, found) := existsKey now store k
    match found with
    | none => (store, none)
    | some found =>
      let (store, rest) := live store keys
      (store, rest.map fun out => if found then k :: out else out)

def reset (m : Mem) (r : Addressed) : Mem × Option AddressedOutcome :=
  let (m, held) := m.record now r.record
  match held with
  | some existing =>
    (m, some ⟨true, existing.command, existing.progress.reset, existing.answer⟩)
  | none =>
    let (counters, live) := live now m.counters r.delete
    match live with
    | none => ({ m with counters }, none)
    | some live =>
      ({ m with
        counters := if r.dryRun = false ∧ live ≠ [] then storeReset counters live else counters
        records := m.records.insert r.record
          ⟨r.command, [], true, { Progress.zero with reset := live.length }, .zero, some r.answer,
            add now retention⟩ },
        some ⟨false, r.command, live.length, some r.answer⟩)

def put (m : Mem) (key : Text) (value : TokenDocument) (ttl : ℕ) : Mem :=
  { m with documents := m.documents.insert key ⟨value, add now ttl⟩ }

def get (m : Mem) (key : Text) : Option TokenDocument := (m.document now key).map Token.document

section Views

variable {now : ℕ} {m : Mem} {k j L : Text} {e : MemEntry} {keys : Keys}

/-- The record under a key, unless it has expired. -/
def entry (now : ℕ) (m : Mem) (key : Text) : Option MemEntry :=
  (m.records.lookup key).filter fun e => now < e.expiresAt

theorem record_snd : (m.record now k).2 = m.entry now k := by
  unfold record entry
  cases m.records.lookup k with
  | none => rfl
  | some e => by_cases hlive : now < e.expiresAt <;> simp [Option.filter, hlive]

theorem entry_record : (m.record now k).1.entry now j = m.entry now j := by
  unfold record entry
  cases hk : m.records.lookup k with
  | none => rfl
  | some e =>
    by_cases hlive : now < e.expiresAt
    · simp [hlive]
    · by_cases hjk : j = k
      · subst hjk
        simp [hlive, hk, Option.filter]
      · simp [hlive, Finmap.lookup_erase_ne hjk]

@[simp] theorem counters_record : (m.record now k).1.counters = m.counters := by
  unfold record
  split
  · rfl
  · split_ifs <;> rfl

@[simp] theorem leases_record : (m.record now k).1.leases = m.leases := by
  unfold record
  split
  · rfl
  · split_ifs <;> rfl

@[simp] theorem documents_record : (m.record now k).1.documents = m.documents := by
  unfold record
  split
  · rfl
  · split_ifs <;> rfl

theorem lease_record : (m.record now k).1.lease now L = m.lease now L := by
  unfold lease
  rw [leases_record]

theorem entry_live (he : m.entry now k = some e) : now < e.expiresAt := by
  unfold entry at he
  rw [Option.filter_eq_some_iff, decide_eq_true_eq] at he
  exact he.2

theorem owns_iff {F : Text} :
    m.owns now L F = true ↔ (m.lease now L).map Lease.holder = some F := by
  unfold owns
  cases m.lease now L <;> simp

theorem read_fst : (m.read now keys).1 = (m.record now keys.record).1 := by
  unfold read
  dsimp only
  split
  · rfl
  · split <;> rfl

theorem read_some (he : m.entry now keys.record = some e) :
    (m.read now keys).2.found = true ∧ (m.read now keys).2.terminal = e.terminal ∧
      (m.read now keys).2.progress = e.progress := by
  unfold read
  dsimp only
  rw [record_snd, he]
  dsimp only
  split <;> exact ⟨rfl, rfl, rfl⟩

theorem read_none (he : m.entry now keys.record = none) :
    (m.read now keys).2 = .absent := by
  unfold read
  dsimp only
  rw [record_snd, he]

end Views

section Walk

variable {now : ℕ} {store : Entries} {k cursor : Text} {keys : List Text}

theorem existsFrom_fst (steps : ℕ) :
    AgreeOn Set.univ now (existsFrom now k steps store cursor).1 store := by
  induction steps generalizing store cursor with
  | zero => exact fun _ _ => rfl
  | succ steps ih =>
    intro j hj
    have hscan := @live_storeScan now store k cursor j 64
    unfold existsFrom
    split
    · next hs =>
      rw [hs] at hscan
      exact hscan
    · next hs =>
      rw [hs] at hscan
      split_ifs
      · exact hscan
      · exact hscan
      · exact (ih j hj).trans hscan

theorem existsFrom_absent (hk : Memory.live now store k = none) {steps : ℕ}
    (hsteps : (above now store k cursor).length < steps) :
    (existsFrom now k steps store cursor).2 = some false := by
  induction steps generalizing store cursor with
  | zero => omega
  | succ steps ih =>
    obtain ⟨next, hpage⟩ := @storeScan_page now store k cursor 64 (by norm_num)
    have hsame : AgreeOn Set.univ now (storeScan now store k cursor 64).1 store :=
      fun j _ => live_storeScan
    have hnot : k ∉ (above now store k cursor).take (64 : ℤ).toNat := by
      intro hin
      have hlive := (mem_above.mp (List.mem_of_mem_take hin)).1
      rw [hk] at hlive
      cases hlive
    have hscan : storeScan now store k cursor 64 =
        ((storeScan now store k cursor 64).1, .ok ((above now store k cursor).take (64 : ℤ).toNat, next)) :=
      Prod.ext rfl hpage
    unfold existsFrom
    rw [hscan]
    dsimp only
    rw [if_neg hnot]
    split_ifs with hend
    · rfl
    · apply ih
      · rw [hsame k trivial, hk]
      · have hmem := (storeScan_next (by norm_num) hpage).resolve_left hend
        have hless := length_above_lt hmem
        rw [above_congr hsame]
        omega

theorem existsFrom_present (hk : k ≠ []) (hlive : (Memory.live now store k).isSome = true) (steps : ℕ) :
    (existsFrom now k (steps + 1) store []).2 = some true := by
  obtain ⟨next, hpage⟩ := @storeScan_page now store k [] 64 (by norm_num)
  have hscan : storeScan now store k [] 64 =
      ((storeScan now store k [] 64).1, .ok ((above now store k []).take (64 : ℤ).toNat, next)) :=
    Prod.ext rfl hpage
  have hin : k ∈ (above now store k []).take (64 : ℤ).toNat := by
    have hfilter := @filter_take_above now store [] k (64 : ℤ).toNat (by norm_num)
    have habove : [] < k := lt_of_le_of_ne (le_of_isPrefix List.nil_prefix) hk.symm
    rw [if_pos ⟨hlive, habove⟩] at hfilter
    have hmem : k ∈ [k] := List.mem_singleton_self k
    rw [← hfilter] at hmem
    exact (List.mem_filter.mp hmem).1
  unfold existsFrom
  rw [hscan]
  dsimp only
  rw [if_pos hin]

theorem existsKey_snd (hk : k ≠ []) :
    (existsKey now store k).2 = some (Memory.live now store k).isSome := by
  unfold existsKey
  cases hlive : Memory.live now store k with
  | some e => exact existsFrom_present hk (by rw [hlive]; rfl) _
  | none =>
    apply existsFrom_absent hlive
    have hle : (above now store k []).length ≤ store.keys.card := by
      rw [above, Finset.length_sort]
      exact Finset.card_filter_le _ _
    omega

theorem live_spec (hkeys : [] ∉ keys) :
    (live now store keys).2 = some (keys.filter fun k => (Memory.live now store k).isSome) ∧
      AgreeOn Set.univ now (live now store keys).1 store := by
  induction keys generalizing store with
  | nil => exact ⟨rfl, fun _ _ => rfl⟩
  | cons k keys ih =>
    have hk : k ≠ [] := fun h => hkeys (h ▸ List.mem_cons_self)
    have hfound := @existsKey_snd now store k hk
    have hsame : AgreeOn Set.univ now (existsKey now store k).1 store := existsFrom_fst _
    obtain ⟨hrest, hagree⟩ := @ih (existsKey now store k).1 fun h => hkeys (List.mem_cons_of_mem _ h)
    have hfilter : (keys.filter fun j => (Memory.live now (existsKey now store k).1 j).isSome) =
        keys.filter fun j => (Memory.live now store j).isSome :=
      List.filter_congr fun j _ => by rw [hsame j trivial]
    unfold live
    dsimp only
    rw [hfound]
    dsimp only
    rw [hrest, hfilter]
    refine ⟨?_, fun j hj => (hagree j hj).trans (hsame j hj)⟩
    rw [Option.map_some, List.filter_cons]

end Walk

end Mem

end Ratelimit.Records
