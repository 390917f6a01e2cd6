import Ratelimit.Compile.Accepted
import Ratelimit.Management.BuiltKeys
import Ratelimit.Management.Counters
import Ratelimit.Store.MemorySpec

/-!
# The candidates of a listing and of a sweep

A candidate stands for the key it was made of and for one window of the enforced
set. Windows of a compiled set pass the guard of the store, so a peek at candidates
is refused for nothing but a repeated key.
-/
namespace Ratelimit.Management

open Library Compile Store

section Windows

variable {scope : Key.Scope} {snapshot : Snapshot} {pre : Text} {ref : RateRef}

theorem mem_rateRefs : ref ∈ rateRefs snapshot ↔
    ref.block ∈ snapshot.blocks ∧ ref.rule ∈ ref.block.rules ∧ ref.rate ∈ ref.rule.rates := by
  unfold rateRefs
  simp only [List.mem_flatMap, List.mem_map]
  constructor
  · rintro ⟨block, hblock, rule, hrule, rate, hrate, rfl⟩
    exact ⟨hblock, hrule, hrate⟩
  · rintro ⟨hblock, hrule, hrate⟩
    exact ⟨_, hblock, _, hrule, _, hrate, rfl⟩

theorem rateIndex_sound (hsound : snapshot.Sound scope) (h : rateIndex snapshot pre = some ref) :
    Algo.check ref.rate.algorithm ref.rate.window = .ok () ∧
      pre = Key.ratePrefix ⟨scope, ref.block.name, ref.rule.name⟩ ref.rate.algorithm
        ref.rate.window := by
  obtain ⟨hblock, hrule, hrate⟩ := mem_rateRefs.mp (List.mem_of_find?_eq_some h)
  have hpre : ref.rate.keyPrefix = pre := by simpa using List.find?_some h
  have hrates := ((hsound.blocks _ hblock).rules _ hrule).rates _ hrate
  exact ⟨hrates.checked, hpre.symm.trans hrates.keyPrefix_eq⟩

theorem rulePrefix_of_parse {k : Text} {counter : CounterKey} {block rule : Text}
    {a : Algo.Algorithm} {w : Algo.Window} (h : parseCounterKey scope k = .ok counter)
    (hpre : counter.ratePrefix = Key.ratePrefix ⟨scope, block, rule⟩ a w) :
    counter.ruleID = ruleID counter.block counter.rule ∧
      Key.rulePrefix ⟨scope, counter.block, counter.rule⟩ <+: k := by
  obtain ⟨rest, owner, algorithm, period, values, rfl, hfields, howner, hid, hrate⟩ :=
    parseCounterKey_parts h
  have hclean : ∀ f ∈ [owner, algorithm, period], byte ':' ∉ f := by
    intro f hf
    refine @counterFields_clean rest f ?_
    rw [hfields]
    exact List.mem_append_left values hf
  have hbucket := Key.bucket_ratePrefix ⟨scope, block, rule⟩ a w []
  rw [Key.bucket, List.flatMap_nil, List.append_nil, ← hpre, hrate] at hbucket
  have hsegments := terminated_inj hclean (Key.segments_clean ⟨scope, block, rule⟩ a w [])
    (List.append_cancel_left hbucket)
  obtain rfl : owner = Key.escape block ++ byte '/' :: Key.escape rule := (List.cons.inj hsegments).1
  obtain ⟨hblock, hrule⟩ := Prod.mk.inj (eq_of_splitRuleSegment howner)
  have howned : Key.rulePrefix ⟨scope, block, rule⟩ = Key.domainPrefix scope ++
      (Key.escape block ++ byte '/' :: Key.escape rule ++ [byte ':']) := by
    simp [Key.rulePrefix, ascii]
  refine ⟨hid, ?_⟩
  rw [hblock, hrule, howned, List.prefix_append_right_inj]
  exact counterFields_head hfields

def RateRef.bucket (ref : RateRef) (k : Text) : Bucket :=
  ⟨k, ref.rate.algorithm.id, ref.rate.window, ref.shadow, 1⟩

theorem guarded_bucket (hsound : snapshot.Sound scope) (h : rateIndex snapshot pre = some ref)
    (k : Text) : Guarded (ref.bucket k) :=
  guarded_of_check (le_refl (1 : ℤ)) (rateIndex_sound hsound h).1

theorem guardBuckets_of_guarded {bs : List Bucket} (h : ∀ b ∈ bs, Guarded b) :
    guardBuckets bs = .ok () ↔ (bs.map Bucket.key).Nodup := by
  rw [guardBuckets_ok_iff]
  exact and_iff_right h

end Windows

section Candidates

variable {l : Listing} {s : Sweep} {k : Text}

theorem admits_some {c : EnforcedCandidate} (h : l.admits k = some c) : ∃ parsed ref axes,
    parseCounterKey l.scope k = .ok parsed ∧ l.selector.matches parsed = true ∧
      rateIndex l.snapshot parsed.ratePrefix = some ref ∧ c = ⟨k, ref, parsed.ruleID, axes⟩ := by
  unfold Listing.admits at h
  split at h
  · cases h
  next parsed hparse =>
    split_ifs at h with hmatches
    split at h
    · cases h
    next ref href =>
      split at h
      · cases h
      next axes haxes =>
        split_ifs at h
        exact ⟨parsed, ref, axes, hparse, by simpa using hmatches, href, (Option.some.inj h).symm⟩

theorem admits_key {c : EnforcedCandidate} (h : l.admits k = some c) : c.key = k := by
  obtain ⟨parsed, ref, axes, -, -, -, rfl⟩ := admits_some h
  rfl

theorem admits_guarded {c : EnforcedCandidate} (hsound : l.snapshot.Sound l.scope)
    (h : l.admits k = some c) : Guarded c.bucket := by
  obtain ⟨parsed, ref, axes, -, -, href, rfl⟩ := admits_some h
  exact guarded_bucket hsound href k

theorem admits_scanPrefix {c : EnforcedCandidate} (hsound : l.snapshot.Sound l.scope)
    (h : l.admits k = some c) : l.scanPrefix <+: k := by
  obtain ⟨parsed, ref, axes, hparse, hmatches, href, rfl⟩ := admits_some h
  obtain ⟨hid, hrule⟩ := rulePrefix_of_parse hparse (rateIndex_sound hsound href).2
  exact (scanPrefix_rulePrefix hid hmatches).trans hrule

theorem take_eq (p : Page) (keys : List Text) : l.take p keys =
    { p with
      scanned := p.scanned + keys.length
      candidates := p.candidates ++ keys.filterMap l.admits } := by
  unfold Listing.take
  induction keys generalizing p with
  | nil => simp
  | cons k keys ih =>
    rw [List.foldl_cons, ih]
    have hcount : p.scanned + 1 + keys.length = p.scanned + (k :: keys).length := by
      rw [List.length_cons]
      omega
    cases hk : l.admits k <;> simp [hk, hcount]

theorem one_le_room {p : Page} {steps : ℕ} (h : l.full p steps = false) : 1 ≤ l.room p := by
  simp only [Listing.full, Bool.or_eq_false_iff, decide_eq_false_iff_not] at h
  obtain ⟨⟨hsize, hbudget⟩, -⟩ := h
  unfold Listing.room
  omega

theorem consider_limited {c : CounterCandidate} (hlimited : s.command.selector.limitedOnly = true)
    (h : s.consider k = some c) : ∃ pre ref, rateIndex s.snapshot pre = some ref ∧
      c.bucket = some (ref.bucket k) := by
  obtain ⟨parsed, -, -, ⟨-, -, hall, -⟩ | ⟨ref, axes, href, -, -, rfl⟩⟩ := consider_eq_some_iff.mp h
  · rw [hlimited] at hall
    cases hall
  · exact ⟨_, ref, href, rfl⟩

end Candidates

section Batches

variable {w : Sweep}

def Drawn (w : Sweep) (batch : List CounterCandidate) : Prop :=
  ∀ c ∈ batch, ∃ k, w.consider k = some c

theorem drawn_buckets (hsound : w.snapshot.Sound w.scope)
    (hlimited : w.command.selector.limitedOnly = true) {batch : List CounterCandidate}
    (hdrawn : Drawn w batch) : ∃ buckets, batch.mapM CounterCandidate.bucket = some buckets ∧
      List.Forall₂ (fun c b => c.bucket = some b) batch buckets ∧
      buckets.map Bucket.key = batch.map CounterCandidate.key ∧ (∀ b ∈ buckets, Guarded b) ∧
      Memory.Registered buckets := by
  induction batch with
  | nil => exact ⟨[], rfl, .nil, rfl, fun b hb => (nomatch hb), fun b hb => (nomatch hb)⟩
  | cons c batch ih =>
    obtain ⟨buckets, hmap, hpairs, hkeys, hguarded, hregistered⟩ :=
      ih fun c hc => hdrawn c (List.mem_cons_of_mem _ hc)
    obtain ⟨k, hk⟩ := hdrawn c List.mem_cons_self
    obtain ⟨pre, ref, href, hbucket⟩ := consider_limited hlimited hk
    refine ⟨ref.bucket k :: buckets, by simp [List.mapM_cons, hbucket, hmap], .cons hbucket hpairs,
      ?_, ?_, ?_⟩
    · rw [List.map_cons, List.map_cons, hkeys, consider_key hk]
      rfl
    · exact List.forall_mem_cons.mpr ⟨guarded_bucket hsound href k, hguarded⟩
    · exact List.forall_mem_cons.mpr ⟨⟨ref.rate.algorithm, rfl⟩, hregistered⟩

theorem drawn_take {k : Text} {c : CounterCandidate} {batch : List CounterCandidate}
    (h : Drawn w batch) (hc : w.consider k = some c) : Drawn w (batch ++ [c]) := by
  intro c' hc'
  rcases List.mem_append.mp hc' with hold | hnew
  · exact h c' hold
  · exact ⟨k, List.mem_singleton.mp hnew ▸ hc⟩

end Batches

end Ratelimit.Management
