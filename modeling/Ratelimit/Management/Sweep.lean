import Ratelimit.Management.Bulk

/-!
# The sweep

The walk a bulk command runs on. Candidates are batched, and a batch is deleted together with
the progress that counts it. The scan goes on until the store's cursor is empty, so its loop is
given a bound: a walker that runs into it stops as one that died.
-/
namespace Ratelimit.Management

open Library Records Compile Store

def sweepBatch : ℕ := 256

def sweepScanStep : ℕ := 512

section Judging

/-- One rate of the enforced set, with the rule and block that own it. -/
structure RateRef where
  block : Block
  rule : Rule
  rate : Rate
  deriving DecidableEq

def RateRef.shadow (r : RateRef) : Bool := decide (r.rule.behavior = .shadow)

def rateRefs (snapshot : Snapshot) : List RateRef :=
  snapshot.blocks.flatMap fun block =>
    block.rules.flatMap fun rule => rule.rates.map fun rate => ⟨block, rule, rate⟩

/-- The rate index: of two rates with one prefix the first wins. -/
def rateIndex (snapshot : Snapshot) (pre : Text) : Option RateRef :=
  (rateRefs snapshot).find? fun r => r.rate.keyPrefix = pre

structure CounterCandidate where
  key : Text
  ref : Option RateRef
  ruleID : Text
  axes : Finmap fun _ : Text => Text
  deriving DecidableEq

def CounterKey.namedAxes (c : CounterKey) (names : List Text) :
    Except Message (Finmap fun _ : Text => Text) :=
  if c.axes.length ≠ names.length then
    .error ⟨"a counter of %s carries %d axis values but the rule declares %d",
      [.text c.ruleID, .number c.axes.length, .number names.length]⟩
  else .ok ((names.zip c.axes).foldl (fun axes e => axes.insert e.1 e.2) ∅)

def splitID (id : Text) : Option (Text × Text) :=
  match Strings.split id (byte '/') with
  | [block, rule] => if block = [] ∨ rule = [] then none else some (block, rule)
  | _ => none

def scanPrefix (s : Key.Scope) (sel : Selector) : Text :=
  match sel.ruleIDs with
  | [id] =>
    match splitID id with
    | some (block, rule) => Key.rulePrefix ⟨s, block, rule⟩
    | none => if id ≠ [] ∧ byte '/' ∉ id then Key.blockPrefix s id else Key.domainPrefix s
  | _ => Key.domainPrefix s

/-- What one sweep walks: its command, in its domain, under its keys. -/
structure Sweep where
  scope : Key.Scope
  snapshot : Snapshot
  command : BulkCommand
  keys : Keys
  fencing : Text

def Sweep.consider (s : Sweep) (k : Text) : Option CounterCandidate :=
  match parseCounterKey s.scope k with
  | .error _ => none
  | .ok parsed =>
    let sel := s.command.selector
    if s.command.domainWide = false ∧ sel.matches parsed = false then none
    else
      match rateIndex s.snapshot parsed.ratePrefix with
      | none =>
        if sel.axes ≠ ∅ ∨ sel.limitedOnly = true then none
        else some ⟨k, none, parsed.ruleID, ∅⟩
      | some ref =>
        match parsed.namedAxes ref.rule.counters with
        | .error _ => none
        | .ok axes =>
          if s.command.domainWide = false ∧ sel.matchesAxes axes = false then none
          else some ⟨k, some ref, parsed.ruleID, axes⟩

theorem selected_eq_some_iff {α : Type} {wide fits : Bool} {o : Option α} {c : α} :
    (if wide = false ∧ fits = false then none else o) = some c ↔
      (wide = true ∨ fits = true) ∧ o = some c := by
  cases wide <;> cases fits <;> simp

theorem consider_eq_some_iff {s : Sweep} {k : Text} {c : CounterCandidate} :
    s.consider k = some c ↔ ∃ parsed, parseCounterKey s.scope k = .ok parsed ∧
      (s.command.domainWide = true ∨ s.command.selector.matches parsed = true) ∧
      ((rateIndex s.snapshot parsed.ratePrefix = none ∧ s.command.selector.axes = ∅ ∧
          s.command.selector.limitedOnly = false ∧ ⟨k, none, parsed.ruleID, ∅⟩ = c) ∨
        ∃ ref axes, rateIndex s.snapshot parsed.ratePrefix = some ref ∧
          parsed.namedAxes ref.rule.counters = .ok axes ∧
          (s.command.domainWide = true ∨ s.command.selector.matchesAxes axes = true) ∧
          ⟨k, some ref, parsed.ruleID, axes⟩ = c) := by
  unfold Sweep.consider
  cases hparse : parseCounterKey s.scope k with
  | error e => simp
  | ok parsed =>
    simp only [selected_eq_some_iff, Except.ok.injEq, exists_eq_left']
    refine and_congr_right fun _ => ?_
    cases hindex : rateIndex s.snapshot parsed.ratePrefix with
    | none => simp [and_assoc]
    | some ref =>
      cases haxes : parsed.namedAxes ref.rule.counters with
      | error e => simp [haxes]
      | ok axes =>
        simp only [haxes, selected_eq_some_iff]
        simp [haxes]

theorem consider_key {s : Sweep} {k : Text} {c : CounterCandidate} (hc : s.consider k = some c) :
    c.key = k := by
  obtain ⟨parsed, -, -, ⟨-, -, -, rfl⟩ | ⟨ref, axes, -, -, -, rfl⟩⟩ := consider_eq_some_iff.mp hc
  · rfl
  · rfl

end Judging

section Walking

/-- Why a walk stopped early: its deadline, or anything else. -/
inductive Fault where
  | deadline
  | failed
  deriving DecidableEq

/-- The walk so far: its progress and the candidates since the last commit. -/
structure Walker where
  progress : Progress
  batch : List CounterCandidate

def Walker.start : Walker := ⟨.zero, []⟩

def Walker.scan (w : Walker) : Walker :=
  { w with progress := { w.progress with scanned := w.progress.scanned + 1 } }

def countKey (execute : Bool) (p : Progress) (c : CounterCandidate) : Progress where
  scanned := p.scanned
  matched := p.matched + 1
  reset := if execute then p.reset + 1 else p.reset
  rules := p.rules.insert c.ruleID ((p.rules.lookup c.ruleID).getD 0 + 1)
  keys := if p.keys.length < keySampleLimit then p.keys ++ [c.key] else p.keys
  truncated := if p.keys.length < keySampleLimit then p.truncated else true

/-- The replica's clock. A replica that cannot read it is gone. -/
def now : Client ℤ := do
  let reading : Option ℤ ← Prog.ask Req.clock
  match reading with
  | some t => pure t
  | none => Prog.halt

/-- The cost-1 bucket of a candidate. A candidate without its rule has none. -/
def CounterCandidate.bucket (c : CounterCandidate) : Option Bucket :=
  c.ref.map fun ref => ⟨c.key, ref.rate.algorithm.id, ref.rate.window, ref.shadow, 1⟩

/-- The counters of a batch that would refuse the next request; `none` where the
store did not say. -/
def refusing (batch : List CounterCandidate) : Client (Option (List CounterCandidate)) :=
  match batch.mapM CounterCandidate.bucket with
  | none => Prog.halt
  | some buckets => do
    let answer : Option Answer ← Prog.ask (Req.peek buckets)
    match answer with
    | some (.ok verdicts) =>
      if verdicts.length ≠ buckets.length then pure none
      else pure (some (((batch.zip verdicts).filter fun p => !p.2.allowed).map Prod.fst))
    | _ => pure none

/-- The step that deletes and records a judged batch. -/
def Sweep.deleteBatch (s : Sweep) (w : Walker) (kept : List CounterCandidate) :
    Client (Walker × Option Fault) :=
  let execute := !s.command.dryRun
  let counted := { w with progress := kept.foldl (countKey execute) w.progress }
  if kept = [] then pure (counted, none)
  else do
    let delete := if execute then kept.map CounterCandidate.key else []
    let verdict : Option WriteVerdict ←
      Prog.ask (Req.batch ⟨s.keys, s.fencing, delete, counted.progress⟩)
    match verdict with
    | some .ok => pure (counted, none)
    | _ => pure (counted, some .failed)

def Sweep.commitBatch (s : Sweep) (w : Walker) : Client (Walker × Option Fault) :=
  if w.batch = [] then pure (w, none)
  else if s.command.selector.limitedOnly then do
    match ← refusing w.batch with
    | some kept => s.deleteBatch w kept
    | none => pure (w, some .failed)
  else s.deleteBatch w w.batch

def Sweep.walk (s : Sweep) (deadline : ℤ) : List Text → Walker → Client (Walker × Option Fault)
  | [], w => pure (w, none)
  | k :: ks, w => do
    let t ← now
    if deadline < t then pure (w, some .deadline)
    else
      match s.consider k with
      | none => s.walk deadline ks w.scan
      | some c =>
        let w := { w.scan with batch := w.batch ++ [c] }
        if w.batch.length < sweepBatch then s.walk deadline ks w
        else do
          let (w, fault) ← s.commitBatch w
          match fault with
          | some fault => pure (w, some fault)
          | none => s.walk deadline ks { w with batch := [] }

def Sweep.scanPrefix (s : Sweep) : Text :=
  if s.command.domainWide then Key.domainPrefix s.scope
  else Management.scanPrefix s.scope s.command.selector

/-- The loop over the steps of the scan, for so many of them at most. -/
def Sweep.run (s : Sweep) (deadline : ℤ) : ℕ → Text → Walker → Client (Walker × Option Fault)
  | 0, _, _ => Prog.halt
  | fuel + 1, cursor, w => do
    let t ← now
    if deadline < t then pure (w, some .deadline)
    else do
      let page : Option (List Text × Text) ←
        Prog.ask (Req.scan s.scanPrefix cursor sweepScanStep)
      match page with
      | none => pure (w, some .failed)
      | some (keys, next) => do
        let (w, fault) ← s.walk deadline keys w
        match fault with
        | some fault => pure (w, some fault)
        | none => if next = [] then s.commitBatch w else s.run deadline fuel next w

end Walking

end Ratelimit.Management
