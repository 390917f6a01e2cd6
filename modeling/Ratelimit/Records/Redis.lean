import Ratelimit.Library.Interleaving
import Ratelimit.Store.Memory

/-!
# The command records in the shared store

A script runs as one step, everything else is one command: `Lookup` is a pipeline of three and
`Finalize` two lookups around a script. The keys of records, leases, tokens and counters never
coincide, so the four kinds are four maps. A JSON document is kept as the value it encodes.
-/
namespace Ratelimit.Records

open Library Store Memory

structure Keys where
  record : Text
  lease : Text
  /-- Absent for a command that needs no token. -/
  token : Option Text
  deriving DecidableEq

structure Progress where
  scanned : ℕ
  matched : ℕ
  reset : ℕ
  rules : Finmap fun _ : Text => ℕ
  keys : List Text
  truncated : Bool
  deriving DecidableEq

def Progress.zero : Progress := ⟨0, 0, 0, ∅, [], false⟩

structure Outcome where
  failed : Bool
  code : Text
  errorID : Text
  message : Message
  progress : Progress
  token : Text
  tokenExpiresAt : Option ℤ
  deriving DecidableEq

def Outcome.zero : Outcome := ⟨false, [], [], ⟨"", []⟩, .zero, [], none⟩

structure TokenDocument where
  selection : Text
  domain : Text
  subject : Text
  ruleSetVersion : Text
  expiresAt : ℤ
  deriving DecidableEq

structure ResetResponse where
  domain : Text
  ruleID : Text
  ruleSetVersion : Text
  axes : Finmap fun _ : Text => Text
  keys : List Text
  dryRun : Bool
  matchedCount : Option ℕ
  resetCount : Option ℕ
  deriving DecidableEq

structure Record where
  found : Bool
  command : Text
  terminal : Bool
  outcome : Outcome
  progress : Progress
  answer : Option ResetResponse
  fencing : Text
  leaseHolder : Text
  leaseTTL : ℤ
  deriving DecidableEq

/-- The zero value of the struct: no record exists. -/
def Record.absent : Record := ⟨false, [], false, .zero, .zero, none, [], [], 0⟩

def Record.alive (r : Record) : Bool :=
  !r.terminal && decide (r.fencing ≠ []) && decide (r.fencing = r.leaseHolder)

structure Acceptance where
  keys : Keys
  command : Text
  fencing : Text
  /-- In milliseconds. -/
  leaseTTL : ℕ
  deriving DecidableEq

inductive Accepted where
  | ok (token : Option TokenDocument)
  | existing (r : Record)
  | tokenMissing
  | sweepBusy (leaseTTL : ℤ)
  deriving DecidableEq

structure Batch where
  keys : Keys
  fencing : Text
  delete : List Text
  progress : Progress
  deriving DecidableEq

structure Commit where
  keys : Keys
  fencing : Text
  outcome : Outcome
  deriving DecidableEq

structure Finalize where
  keys : Keys
  outcome : Outcome
  deriving DecidableEq

structure Addressed where
  record : Text
  command : Text
  delete : List Text
  dryRun : Bool
  answer : ResetResponse
  deriving DecidableEq

structure AddressedOutcome where
  replayed : Bool
  command : Text
  count : ℕ
  answer : Option ResetResponse
  deriving DecidableEq

def retention : ℕ := 24 * 3600 * 1000

def millisecond : ℤ := 1000000

structure Fields where
  command : Option Text
  fencing : Option Text
  progress : Option Progress
  outcome : Option Outcome
  terminal : Bool
  count : Option ℕ
  answer : Option ResetResponse
  deriving DecidableEq

def Fields.empty : Fields := ⟨none, none, none, none, false, none, none⟩

/-- A hash that was never given a time to live does not expire. -/
structure Binding where
  fields : Fields
  expires : Option ℕ
  deriving DecidableEq

structure Lease where
  holder : Text
  expires : ℕ
  deriving DecidableEq

structure Token where
  document : TokenDocument
  expires : ℕ
  deriving DecidableEq

structure Db where
  now : ℕ
  records : Finmap fun _ : Text => Binding
  leases : Finmap fun _ : Text => Lease
  tokens : Finmap fun _ : Text => Token
  counters : Entries

def Db.empty : Db := ⟨0, ∅, ∅, ∅, ∅⟩

section Commands

def Db.fields (db : Db) (k : Text) : Option Fields := (db.records.lookup k).map Binding.fields

def Db.holder (db : Db) (k : Text) : Option Text := (db.leases.lookup k).map Lease.holder

/-- `PTTL`, in milliseconds. -/
def Db.pttl (db : Db) (k : Text) : ℤ :=
  match db.leases.lookup k with
  | some lease => ((lease.expires - db.now) / 1000 : ℕ)
  | none => -2

def Db.after (db : Db) (ms : ℕ) : ℕ := db.now + ms * 1000

/-- `HSET`, which creates a missing hash without a time to live. -/
def Db.hset (db : Db) (k : Text) (write : Fields → Fields) : Db :=
  let old := (db.records.lookup k).getD ⟨.empty, none⟩
  { db with records := db.records.insert k { old with fields := write old.fields } }

/-- `PEXPIRE` of a record. -/
def Db.pexpire (db : Db) (k : Text) (ms : ℕ) : Db :=
  match db.records.lookup k with
  | some b => { db with records := db.records.insert k { b with expires := some (db.after ms) } }
  | none => db

end Commands

section Scripts

inductive AcceptVerdict where
  | existing
  | busy (ttl : ℤ)
  | noToken
  | accepted (token : Option TokenDocument)
  deriving DecidableEq

def bindCommand (db : Db) (a : Acceptance) : Db :=
  let bound := (db.hset a.keys.record fun f =>
    { f with command := some a.command, fencing := some a.fencing }).pexpire a.keys.record retention
  { bound with leases := bound.leases.insert a.keys.lease ⟨a.fencing, db.after a.leaseTTL⟩ }

def acceptScript (db : Db) (a : Acceptance) : Db × AcceptVerdict :=
  match (db.fields a.keys.record).bind Fields.command with
  | some _ => (db, .existing)
  | none =>
    match db.leases.lookup a.keys.lease with
    | some _ => (db, .busy (db.pttl a.keys.lease))
    | none =>
      match a.keys.token with
      | none => (bindCommand db a, .accepted none)
      | some key =>
        match db.tokens.lookup key with
        | none => (db, .noToken)
        | some token =>
          (bindCommand { db with tokens := db.tokens.erase key } a, .accepted (some token.document))

inductive WriteVerdict where
  | ok
  | lost
  deriving DecidableEq

def batchScript (db : Db) (b : Batch) : Db × WriteVerdict :=
  if db.holder b.keys.lease ≠ some b.fencing then (db, .lost)
  else
    let dropped := { db with counters := storeReset db.counters b.delete }
    (dropped.hset b.keys.record fun f => { f with progress := some b.progress }, .ok)

/-- The terminal outcome, with the retention counted from now on. -/
def writeOutcome (db : Db) (k : Text) (outcome : Outcome) : Db :=
  (db.hset k fun f => { f with outcome := some outcome, terminal := true }).pexpire k retention

def commitScript (db : Db) (c : Commit) : Db × WriteVerdict :=
  if db.holder c.keys.lease ≠ some c.fencing then (db, .lost)
  else
    let written := writeOutcome db c.keys.record c.outcome
    ({ written with leases := written.leases.erase c.keys.lease }, .ok)

inductive FinalizeVerdict where
  | gone
  | already
  | alive
  | ok
  deriving DecidableEq

def finalizeScript (db : Db) (f : Finalize) : Db × FinalizeVerdict :=
  match db.fields f.keys.record with
  | none => (db, .gone)
  | some fields =>
    if fields.terminal = true then (db, .already)
    else if (db.holder f.keys.lease).isSome = true then (db, .alive)
    else (writeOutcome db f.keys.record f.outcome, .ok)

inductive ResetVerdict where
  | replayed (command : Text) (count : Option ℕ) (answer : Option ResetResponse)
  | done (count : ℕ)
  deriving DecidableEq

/-- How many `EXISTS` of the keys one by one count. -/
def existing (now : ℤ) (m : Entries) (ks : List Text) : ℕ :=
  ks.countP fun k => (live now m k).isSome

/-- How many `UNLINK` of the keys one by one count. -/
def unlinked (now : ℤ) : Entries → List Text → ℕ
  | _, [] => 0
  | m, k :: ks => (if (live now m k).isSome then 1 else 0) + unlinked now (m.erase k) ks

def bindReset (r : Addressed) (count : ℕ) (f : Fields) : Fields :=
  { f with
    command := some r.command
    terminal := true
    count := some count
    answer := some r.answer }

def resetScript (db : Db) (r : Addressed) : Db × ResetVerdict :=
  match db.fields r.record with
  | some ⟨some command, _, _, _, _, count, answer⟩ => (db, .replayed command count answer)
  | _ =>
    let count := if r.dryRun then existing db.now db.counters r.delete
      else unlinked db.now db.counters r.delete
    let counters := if r.dryRun then db.counters else storeReset db.counters r.delete
    ((({ db with counters }).hset r.record (bindReset r count)).pexpire r.record retention,
      .done count)

end Scripts

inductive Req where
  | fields (record : Text)
  | holder (lease : Text)
  | pttl (lease : Text)
  | accept (a : Acceptance)
  | batch (b : Batch)
  | commit (c : Commit)
  | finalize (f : Finalize)
  | reset (r : Addressed)
  | put (key : Text) (document : TokenDocument) (ttl : ℕ)
  | get (key : Text)
  | scan (pre cursor : Text) (limit : ℕ)
  | peek (buckets : List Bucket)
  | clock

@[reducible] def Reply : Req → Type
  | .fields _ => Option Fields
  | .holder _ => Option Text
  | .pttl _ => ℤ
  | .accept _ => AcceptVerdict
  | .batch _ => WriteVerdict
  | .commit _ => WriteVerdict
  | .finalize _ => FinalizeVerdict
  | .reset _ => ResetVerdict
  | .put _ _ _ => Unit
  | .get _ => Option TokenDocument
  | .scan _ _ _ => List Text × Text
  | .peek _ => Answer
  | .clock => ℤ

/-- What the state of the store leaves open: the page a scan returns, with its
cursor, and the clock of the replica that asks for the time. -/
structure Oracle where
  page : List Text × Text
  clock : ℤ
  deriving DecidableEq

def exec (db : Db) (r : Req) (o : Oracle) : Db × Reply r :=
  match r with
  | .fields k => (db, db.fields k)
  | .holder k => (db, db.holder k)
  | .pttl k => (db, db.pttl k)
  | .accept a => acceptScript db a
  | .batch b => batchScript db b
  | .commit c => commitScript db c
  | .finalize f => finalizeScript db f
  | .reset r => resetScript db r
  | .put k document ttl =>
    ({ db with tokens := db.tokens.insert k ⟨document, db.after ttl⟩ }, ())
  | .get k => (db, (db.tokens.lookup k).map Token.document)
  | .scan _ _ _ => (db, o.page)
  | .peek bs =>
    let peeked := storePeek db.now db.counters bs
    ({ db with counters := peeked.1 }, peeked.2)
  | .clock => (db, o.clock)

/-- What happens to the store without a request of the handlers: time passes and
keys expire, a lease is lost early, traffic calls the counter store. -/
inductive Env where
  | elapse (micros : ℕ)
  | leaseLost (lease : Text)
  | traffic (op : Op)

def expired (now : ℕ) (deadline : Option ℕ) : Bool :=
  match deadline with
  | some at_ => decide (at_ ≤ now)
  | none => false

def elapse (db : Db) (micros : ℕ) : Db :=
  let now := db.now + micros
  { db with
    now
    records := eraseWhere (fun k => expired now ((db.records.lookup k).bind Binding.expires)) db.records
    leases := eraseWhere (fun k => expired now ((db.leases.lookup k).map Lease.expires)) db.leases
    tokens := eraseWhere (fun k => expired now ((db.tokens.lookup k).map Token.expires)) db.tokens }

def happen (db : Db) : Env → Db
  | .elapse micros => elapse db micros
  | .leaseLost k => { db with leases := db.leases.erase k }
  | .traffic op => { db with counters := (storeCall db.counters ⟨db.now, op⟩).1 }

def redis : Server Db Req Reply Oracle Env := ⟨exec, happen⟩

section Client

abbrev Client (α : Type) := Prog Req Reply α

/-- The record a hash describes, without the lease. -/
def recordOf : Option Fields → Record
  | none => .absent
  | some f =>
    let progress := match f.outcome with
      | some outcome => outcome.progress
      | none => f.progress.getD .zero
    { Record.absent with
      found := true
      command := f.command.getD []
      fencing := f.fencing.getD []
      terminal := f.terminal
      answer := f.answer
      outcome := f.outcome.getD .zero
      progress := match f.count with
        | some count => { progress with reset := count }
        | none => progress }

/-- The lease joins a record that was found. -/
def withLease (r : Record) (holder : Option Text) (ttl : Option ℤ) : Option Record :=
  match holder with
  | none => some r
  | some held =>
    ttl.map fun ms =>
      if r.found then { r with leaseHolder := held, leaseTTL := if ms < 0 then ms else ms * millisecond }
      else r

/-- What the three replies of a lookup say; the error case is `none`. -/
def looked (fields : Option (Option Fields)) (holder : Option (Option Text)) (ttl : Option ℤ) :
    Option Record :=
  match fields, holder with
  | some fields, some holder => withLease (recordOf fields) holder ttl
  | _, _ => none

def lookup (keys : Keys) : Client (Option Record) := do
  let fields ← Prog.ask (Req.fields keys.record)
  let holder ← Prog.ask (Req.holder keys.lease)
  let ttl ← Prog.ask (Req.pttl keys.lease)
  pure (looked fields holder ttl)

def accept (a : Acceptance) : Client (Option Accepted) := do
  let verdict : Option AcceptVerdict ← Prog.ask (Req.accept a)
  match verdict with
  | none => pure none
  | some .existing => do
    let record ← lookup a.keys
    pure (record.map Accepted.existing)
  | some (.busy ttl) => pure (some (.sweepBusy (if ttl < 0 then 0 else ttl * millisecond)))
  | some .noToken => pure (some .tokenMissing)
  | some (.accepted token) => pure (some (.ok token))

def finalize (f : Finalize) : Client (Option Record) := do
  match ← lookup f.keys with
  | none => pure none
  | some current =>
    if current.found = false ∨ current.terminal = true then pure (some current)
    else do
      let outcome := { f.outcome with progress := current.progress }
      let verdict : Option FinalizeVerdict ← Prog.ask (Req.finalize ⟨f.keys, outcome⟩)
      match verdict with
      | none => pure none
      | some _ => lookup f.keys

/-- A count that is not there is not a number. -/
def reset (r : Addressed) : Client (Option AddressedOutcome) := do
  let verdict : Option ResetVerdict ← Prog.ask (Req.reset r)
  match verdict with
  | none => pure none
  | some (.replayed command count answer) =>
    pure (count.map fun n => ⟨true, command, n, answer⟩)
  | some (.done count) => pure (some ⟨false, r.command, count, some r.answer⟩)

end Client

end Ratelimit.Records
