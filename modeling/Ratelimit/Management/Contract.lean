import Ratelimit.Management.Handlers

/-!
# What a bulk call may send

Every request of the bulk handler, by what the call has seen of the store so far: a batch
deletes only what the walk considered, a token is minted only at the end of a walk, and an
execution is accepted only with a token it has checked.
-/
namespace Ratelimit.Management

open Library Records Store

abbrev Seen := Transcript Reply

section Transcripts

def isAccept : Req → Bool
  | .accept _ => true
  | _ => false

def isCommit : Req → Bool
  | .commit _ => true
  | _ => false

def isPut : Req → Bool
  | .put _ _ _ => true
  | _ => false

def made (M : Req → Bool) (τ : Seen) : ℕ := τ.countP fun x => M x.1

def batchOf : Exchange Reply → Option (Batch × Option WriteVerdict)
  | ⟨.batch b, v⟩ => some (b, v)
  | _ => none

def batchesIn (τ : Seen) : List (Batch × Option WriteVerdict) := τ.filterMap batchOf

def told (τ : Seen) : Progress := ((batchesIn τ).getLast?.map fun p => p.1.progress).getD .zero

def dropped (τ : Seen) : List Text := (batchesIn τ).flatMap fun p => p.1.delete

def scanOf : Exchange Reply → Option (Text × Option (List Text × Text))
  | ⟨.scan _ cursor _, v⟩ => some (cursor, v)
  | _ => none

def scansIn (τ : Seen) : List (Text × Option (List Text × Text)) := τ.filterMap scanOf

/-- The cursor a chain of scans has come to: each took up where the last ended. -/
def cursorAfter (scans : List (Text × Option (List Text × Text))) : Option Text :=
  scans.foldl (fun cursor s =>
    if cursor = some s.1 then s.2.map Prod.snd else none) (some [])

def pagesIn (τ : Seen) : List Text := (scansIn τ).flatMap fun s => (s.2.map Prod.fst).getD []

variable {M : Req → Bool} {τ : Seen} {x : Exchange Reply}

@[simp] theorem made_nil : made M [] = 0 := rfl

@[simp] theorem made_snoc : made M (τ ++ [x]) = made M τ + if M x.1 then 1 else 0 := by
  rw [made, List.countP_append, List.countP_singleton]
  rfl

@[simp] theorem batchesIn_snoc : batchesIn (τ ++ [x]) = batchesIn τ ++ (batchOf x).toList := by
  rw [batchesIn, List.filterMap_append]
  cases h : batchOf x <;> simp [batchesIn, h]

@[simp] theorem scansIn_snoc : scansIn (τ ++ [x]) = scansIn τ ++ (scanOf x).toList := by
  rw [scansIn, List.filterMap_append]
  cases h : scanOf x <;> simp [scansIn, h]

theorem told_of_silent (hx : batchOf x = none) : told (τ ++ [x]) = told τ := by
  simp [told, hx]

theorem dropped_of_silent (hx : batchOf x = none) : dropped (τ ++ [x]) = dropped τ := by
  simp [dropped, hx]

theorem pagesIn_of_silent (hx : scanOf x = none) : pagesIn (τ ++ [x]) = pagesIn τ := by
  simp [pagesIn, hx]

end Transcripts

section Permits

/-- Equal but for the number of keys examined. -/
def AgreeButScanned (p q : Progress) : Prop := { p with scanned := 0 } = { q with scanned := 0 }

/-- The candidate refused in the peek that was just answered. -/
def Refused (τ : Seen) (c : CounterCandidate) : Prop :=
  ∃ buckets verdicts b v, τ.getLast? = some ⟨.peek buckets, some (.ok verdicts)⟩ ∧
    (b, v) ∈ buckets.zip verdicts ∧ c.bucket = some b ∧ v.allowed = false

/-- A key a batch deletes: considered, and under the limited filter refused in its peek. -/
def Deletable (s : Sweep) (τ : Seen) (k : Text) : Prop :=
  ∃ c, s.consider k = some c ∧ (s.command.selector.limitedOnly = true → Refused τ c)

def Confirmed (std : Stdlib) (a : Admitted) (τ : Seen) : Prop :=
  ∃ doc, ⟨.get (tokenKey a.scope a.command.confirmationToken), some (some doc)⟩ ∈ τ ∧
    checkDocument std a doc = none

def AllRan (τ : Seen) : Prop := ∀ p ∈ batchesIn τ, p.2 = some .ok

def looks (a : Admitted) (τ : Seen) (fields : Option (Option Fields)) (holder : Option (Option Text))
    (ttl : Option ℤ) : Seen :=
  τ ++ [⟨.fields a.keys.record, fields⟩] ++ [⟨.holder a.keys.lease, holder⟩] ++
    [⟨.pttl a.keys.lease, ttl⟩]

def Bound (std : Stdlib) (a : Admitted) (τ : Seen) : Prop :=
  ∃ verdict, ⟨.accept (a.acceptance std), some verdict⟩ ∈ τ

/-- An outcome of the walker discloses what its batches told, or what the record read as. -/
def Discloses (std : Stdlib) (a : Admitted) (τ : Seen) (outcome : Outcome) : Prop :=
  (AllRan τ ∧ AgreeButScanned outcome.progress (told τ) ∧
    outcome.code ≠ Code.interrupted.text) ∨
  (outcome.code = Code.interrupted.text ∧ ∃ τ' f holder ttl,
    τ = looks a τ' (some (some f)) holder ttl ∧ Bound std a τ' ∧
      outcome.progress = (recordOf (some f)).progress)

/-- A finalizer read the record twice: first with its lease gone, then still open. -/
def Abandoned (a : Admitted) (τ : Seen) (outcome : Outcome) : Prop :=
  ∃ τ₀ f f' holder ttl holder' ttl',
    τ = looks a (looks a τ₀ (some (some f)) (some holder) ttl) (some (some f')) holder' ttl' ∧
    f.terminal = false ∧ (f.fencing.getD [] = [] ∨ holder ≠ some (f.fencing.getD [])) ∧
    f'.terminal = false ∧ outcome.progress = (recordOf (some f')).progress

def Permits (std : Stdlib) (a : Admitted) (τ : Seen) : Req → Prop
  | .fields k => k = a.keys.record
  | .holder k => k = a.keys.lease
  | .pttl k => k = a.keys.lease
  | .accept x => x = a.acceptance std ∧ made isAccept τ = 0 ∧
      (a.command.dryRun = false → Confirmed std a τ)
  | .batch b => b.keys = a.keys ∧ b.fencing = a.call.fencing ∧ made isCommit τ = 0 ∧
      (a.command.dryRun = true → b.delete = []) ∧ ∀ k ∈ b.delete, Deletable a.sweep τ k
  | .commit c => c.keys = a.keys ∧ c.fencing = a.call.fencing ∧ Discloses std a τ c.outcome
  | .finalize f => f.keys = a.keys ∧ Abandoned a τ f.outcome
  | .put k doc _ => a.command.dryRun = true ∧ made isPut τ = 0 ∧
      k = tokenKey a.scope a.newConfirmationToken ∧ (∃ expires, doc = tokenDocument std a expires) ∧
      scansIn τ ≠ [] ∧ cursorAfter (scansIn τ) = some []
  | .get k => k = tokenKey a.scope a.command.confirmationToken
  | .scan pre cursor _ => pre = a.sweep.scanPrefix ∧ cursorAfter (scansIn τ) = some cursor
  | .reset _ => False
  | .peek _ => True
  | .clock => True

end Permits

end Ratelimit.Management
