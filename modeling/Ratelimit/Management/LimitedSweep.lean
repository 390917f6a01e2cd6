import Ratelimit.Management.CounterPage
import Ratelimit.Management.HandlerContract

/-!
# A sweep under the limited filter

A sweep of the counters that refuse judges each batch by one peek. On a store that
answers its calls it completes exactly where no batch names a key twice.
-/
namespace Ratelimit.Management

open Library Records Store

section Batches

/-- The candidates of a walk are batched as they come, and no batch has a key twice. -/
def BatchesDiffer (ks : List Text) : Prop :=
  ∀ i j, i < j → j < ks.length → i / sweepBatch = j / sweepBatch → ks[i]? ≠ ks[j]?

variable {batch ks : List Text} {k : Text}

theorem batchesDiffer_short (h : ks.length ≤ sweepBatch) : BatchesDiffer ks ↔ ks.Nodup := by
  rw [List.nodup_iff_getElem?_ne_getElem?]
  refine forall_congr' fun i => forall_congr' fun j => ?_
  refine forall_congr' fun hij => forall_congr' fun hj => ?_
  have hone : i / sweepBatch = j / sweepBatch := by
    rw [Nat.div_eq_of_lt (by omega), Nat.div_eq_of_lt (by omega)]
  exact ⟨fun hne => hne hone, fun hne _ => hne⟩

theorem batchesDiffer_append (h : batch.length = sweepBatch) :
    BatchesDiffer (batch ++ ks) ↔ batch.Nodup ∧ BatchesDiffer ks := by
  have hpositive : 0 < sweepBatch := by decide
  rw [← batchesDiffer_short h.le]
  constructor
  · intro hdiffer
    constructor
    · intro i j hij hj hdiv
      have hne := hdiffer i j hij (by rw [List.length_append]; omega) hdiv
      rwa [List.getElem?_append_left (by omega), List.getElem?_append_left hj] at hne
    · intro i j hij hj hdiv
      have hshift : (batch.length + i) / sweepBatch = (batch.length + j) / sweepBatch := by
        rw [h, Nat.add_div_left _ hpositive, Nat.add_div_left _ hpositive, hdiv]
      have hne := hdiffer (batch.length + i) (batch.length + j) (by omega)
        (by rw [List.length_append]; omega) hshift
      rwa [List.getElem?_append_right (by omega), List.getElem?_append_right (by omega),
        Nat.add_sub_cancel_left, Nat.add_sub_cancel_left] at hne
  · rintro ⟨hbatch, hrest⟩ i j hij hj hdiv
    rw [List.length_append] at hj
    by_cases hlow : j < batch.length
    · rw [List.getElem?_append_left (by omega), List.getElem?_append_left hlow]
      exact hbatch i j hij hlow hdiv
    · have hlater : ¬i < batch.length := by
        intro hi
        rw [Nat.div_eq_of_lt (h ▸ hi)] at hdiv
        have hone := Nat.div_pos (h ▸ not_lt.mp hlow) hpositive
        omega
      obtain ⟨i, rfl⟩ := Nat.exists_eq_add_of_le (not_lt.mp hlater)
      obtain ⟨j, rfl⟩ := Nat.exists_eq_add_of_le (not_lt.mp hlow)
      rw [h, Nat.add_div_left _ hpositive, Nat.add_div_left _ hpositive] at hdiv
      rw [List.getElem?_append_right (by omega), List.getElem?_append_right (by omega),
        Nat.add_sub_cancel_left, Nat.add_sub_cancel_left]
      exact hrest i j (by omega) (by omega) (by omega)

/-- The batch that is left of a walk over some candidates, unless a batch before it
repeats a key. -/
def cut : List Text → List Text → Option (List Text)
  | batch, [] => some batch
  | batch, k :: ks =>
    let batch := batch ++ [k]
    if batch.length < sweepBatch then cut batch ks
    else if batch.Nodup then cut [] ks
    else none

theorem cut_append (ks' : List Text) : cut batch (ks ++ ks') = (cut batch ks).bind fun b => cut b ks' := by
  induction ks generalizing batch with
  | nil => rfl
  | cons k ks ih =>
    rw [List.cons_append, cut, cut]
    split_ifs
    · exact ih
    · exact ih
    · rfl

theorem batchesDiffer_iff_cut (h : batch.length < sweepBatch) :
    BatchesDiffer (batch ++ ks) ↔ ∃ rest, cut batch ks = some rest ∧ rest.Nodup := by
  induction ks generalizing batch with
  | nil =>
    rw [List.append_nil, batchesDiffer_short h.le]
    simp [cut]
  | cons k ks ih =>
    rw [List.append_cons, cut]
    split_ifs with hlength hnodup
    · exact ih hlength
    · have hfull : (batch ++ [k]).length = sweepBatch := by
        rw [List.length_append, List.length_singleton] at hlength ⊢
        omega
      rw [batchesDiffer_append hfull, and_iff_right hnodup]
      exact @ih [] (by decide)
    · have hfull : (batch ++ [k]).length = sweepBatch := by
        rw [List.length_append, List.length_singleton] at hlength ⊢
        omega
      rw [batchesDiffer_append hfull]
      simp [hnodup]

end Batches

section Sweeping

/-- A store that answers every call of a sweep in time, with whichever keys in a step. -/
structure AnswersSweep {S : Type} (answer : S → (r : Req) → S × Option (Reply r))
    (left : S → ℕ) : Prop where
  clock : ∀ s, ∃ t, (answer s .clock).2 = some t
  timely : ∀ s s' t t', (answer s .clock).2 = some t → (answer s' .clock).2 = some t' →
    t' ≤ t + sweepDeadline
  scan : ∀ s pre cursor limit, ∃ keys next, (answer s (.scan pre cursor limit)).2 = some (keys, next) ∧
    (next ≠ [] → left (answer s (.scan pre cursor limit)).1 < left s)
  peek : ∀ s buckets, Judged buckets (answer s (.peek buckets)).2
  batch : ∀ s b, (answer s (.batch b)).2 = some .ok
  put : ∀ s k document ttl, (answer s (.put k document ttl)).2 = some ()
  commit : ∀ s c, (answer s (.commit c)).2 = some .ok
  keeps : ∀ s r, left (answer s r).1 ≤ left s

def commitOf : Exchange Reply → Option Commit
  | ⟨.commit c, _⟩ => some c
  | _ => none

def commitsIn (τ : Seen) : List Commit := τ.filterMap commitOf

/-- A completed outcome is recorded, and no interrupted one. -/
def Completes (τ : Seen) : Prop :=
  (∃ c ∈ commitsIn τ, c.outcome.failed = false) ∧
    ∀ c ∈ commitsIn τ, c.outcome.code ≠ Code.interrupted.text

def candidateKeys (w : Sweep) (ks : List Text) : List Text :=
  (ks.filterMap w.consider).map CounterCandidate.key

variable {S : Type} {answer : S → (r : Req) → S × Option (Reply r)} {left : S → ℕ} {s : S}
  {w : Sweep} {walker : Walker} {a : Admitted} {std : Stdlib}

/-- A part of the walk between two steps of the scan. -/
structure Still (left : S → ℕ) (s s' : S) (τ : Seen) : Prop where
  left_le : left s' ≤ left s
  scans : scansIn τ = []
  commits : commitsIn τ = []

theorem scansIn_append (τ τ' : Seen) : scansIn (τ ++ τ') = scansIn τ ++ scansIn τ' :=
  List.filterMap_append

theorem commitsIn_append (τ τ' : Seen) : commitsIn (τ ++ τ') = commitsIn τ ++ commitsIn τ' :=
  List.filterMap_append

theorem Still.trans {s' s'' : S} {τ τ' : Seen} (h : Still left s s' τ) (h' : Still left s' s'' τ') :
    Still left s s'' (τ ++ τ') where
  left_le := h'.left_le.trans h.left_le
  scans := by rw [scansIn_append, h.scans, h'.scans]; rfl
  commits := by rw [commitsIn_append, h.commits, h'.commits]; rfl

theorem still_refl : Still left s s [] := ⟨le_rfl, rfl, rfl⟩

theorem pagesIn_cons_scan {pre cursor next : Text} {limit : ℕ} {keys : List Text} {τ : Seen} :
    pagesIn (⟨.scan pre cursor limit, some (keys, next)⟩ :: τ) = keys ++ pagesIn τ := rfl

theorem pagesIn_still {s' : S} {τ τ' : Seen} (h : Still left s s' τ) :
    pagesIn (τ ++ τ') = pagesIn τ' := by
  rw [pagesIn, scansIn_append, h.scans]
  rfl

theorem candidateKeys_append (ks ks' : List Text) :
    candidateKeys w (ks ++ ks') = candidateKeys w ks ++ candidateKeys w ks' := by
  rw [candidateKeys, List.filterMap_append, List.map_append]
  rfl

/-- The walk over the keys of one step leaves this batch, or it has failed. -/
structure Leaves (w : Sweep) (batch : Option (List Text)) (r : Walker × Option Fault) : Prop where
  goes_on : ∀ rest, batch = some rest →
    r.2 = none ∧ r.1.batch.map CounterCandidate.key = rest ∧ Drawn w r.1.batch
  stops : batch = none → r.2 = some .failed

/-- What a whole walk ends with, the batch in hand included. -/
structure Walks (w : Sweep) (batch : List Text) (τ : Seen) (r : Walker × Option Fault) : Prop where
  commits : commitsIn τ = []
  done_iff : r.2 = none ↔
    ∃ rest, cut batch (candidateKeys w (pagesIn τ)) = some rest ∧ rest.Nodup
  failed : r.2 ≠ none → r.2 = some .failed

section Answered

variable (hanswers : AnswersSweep answer left)

include hanswers

theorem Still.ask {r : Req} {s' : S} {τ : Seen} (h : Still left (answer s r).1 s' τ)
    (hscan : scanOf ⟨r, (answer s r).2⟩ = none) (hcommit : commitOf ⟨r, (answer s r).2⟩ = none) :
    Still left s s' (⟨r, (answer s r).2⟩ :: τ) where
  left_le := h.left_le.trans (hanswers.keeps s r)
  scans := by rw [scansIn, List.filterMap_cons_none hscan]; exact h.scans
  commits := by rw [commitsIn, List.filterMap_cons_none hcommit]; exact h.commits

theorem now_yields :
    Yields answer s now fun s' τ t => Still left s s' τ ∧ (answer s .clock).2 = some t := by
  obtain ⟨t, ht⟩ := hanswers.clock s
  refine yields_ask.mpr ?_
  have hstill : Still left s (answer s .clock).1 [⟨.clock, (answer s .clock).2⟩] :=
    still_refl.ask hanswers rfl rfl
  rw [ht] at hstill ⊢
  exact ⟨hstill, rfl⟩

theorem deleteBatch_yields (kept : List CounterCandidate) :
    Yields answer s (w.deleteBatch walker kept) fun s' τ r => Still left s s' τ ∧ r.2 = none := by
  unfold Sweep.deleteBatch
  rw [yields_ite]
  refine ⟨fun _ => ⟨still_refl, rfl⟩, fun _ => yields_ask.mpr ?_⟩
  have hstill : ∀ b, Still left s (answer s (.batch b)).1
      [⟨.batch b, (answer s (.batch b)).2⟩] := fun b => still_refl.ask hanswers rfl rfl
  simp only [hanswers.batch] at hstill ⊢
  exact ⟨hstill _, rfl⟩

theorem commitOutcome_yields (outcome : Outcome) (response : Response BulkResult) :
    Yields answer s (commitOutcome a outcome response) fun _ τ _ =>
      scansIn τ = [] ∧ commitsIn τ = [⟨a.keys, a.call.fencing, outcome⟩] := by
  refine yields_ask.mpr ?_
  rw [hanswers.commit]
  exact ⟨rfl, rfl⟩

theorem recordFailure_yields (walker : Walker) :
    Yields answer s (recordFailure a walker .failed) fun _ τ _ =>
      scansIn τ = [] ∧ ∀ c ∈ commitsIn τ, c.outcome.failed = true := by
  refine yields_bind.mpr (yields_ask.mpr (yields_ask.mpr (yields_ask.mpr ?_)))
  rw [yields_pure]
  split
  · rw [yields_ite]
    refine ⟨fun _ => ⟨rfl, fun c hc => nomatch hc⟩, fun _ => ?_⟩
    refine (commitOutcome_yields hanswers _ _).mono fun s' τ r hr => ⟨hr.1, fun c hc => ?_⟩
    have hcommits : c ∈ commitsIn τ := hc
    rw [hr.2, List.mem_singleton] at hcommits
    rw [hcommits]
  · exact ⟨rfl, fun c hc => nomatch hc⟩

theorem finishSweep_yields (walker : Walker) :
    Yields answer s (finishSweep std a walker) fun _ τ _ => scansIn τ = [] ∧
      ∃ c, commitsIn τ = [c] ∧ c.outcome.failed = false ∧ c.outcome.code = [] := by
  unfold finishSweep
  rw [yields_ite]
  constructor
  · intro _
    refine yields_bind.mpr (yields_bind.mpr ((now_yields hanswers).mono ?_))
    rintro s' τ t ⟨hstill, -⟩
    refine yields_ask.mpr ?_
    rw [hanswers.put, yields_pure]
    refine (commitOutcome_yields hanswers _ _).mono fun s'' τ' r hr => ⟨?_, ?_⟩
    · rw [scansIn_append, scansIn_append, hstill.scans, hr.1]
      rfl
    · rw [commitsIn_append, commitsIn_append, hstill.commits, hr.2]
      exact ⟨_, rfl, rfl, rfl⟩
  · intro _
    exact (commitOutcome_yields hanswers _ _).mono fun s' τ r hr => ⟨hr.1, _, hr.2, rfl, rfl⟩

section Batched

variable (hsound : w.snapshot.Sound w.scope) (hlimited : w.command.selector.limitedOnly = true)

include hsound hlimited

theorem refusing_yields {batch : List CounterCandidate} (hdrawn : Drawn w batch) :
    Yields answer s (refusing batch) fun s' τ kept =>
      Still left s s' τ ∧ ((batch.map CounterCandidate.key).Nodup → ∃ ks, kept = some ks) ∧
        (¬(batch.map CounterCandidate.key).Nodup → kept = none) := by
  obtain ⟨buckets, hmap, -, hkeys, hguarded, hregistered⟩ := drawn_buckets hsound hlimited hdrawn
  have hguard := guardBuckets_of_guarded hguarded
  have hpeek := hanswers.peek s buckets
  have hstill : Still left s (answer s (.peek buckets)).1
      [⟨.peek buckets, (answer s (.peek buckets)).2⟩] := still_refl.ask hanswers rfl rfl
  rw [hkeys] at hguard
  unfold refusing
  rw [hmap]
  refine yields_ask.mpr ?_
  by_cases hnodup : (batch.map CounterCandidate.key).Nodup
  · obtain ⟨verdicts, hreply, hlength⟩ := hpeek.passed (hguard.mpr hnodup) hregistered
    rw [hreply] at hstill ⊢
    dsimp only
    rw [if_neg (not_not.mpr hlength)]
    exact ⟨hstill, fun _ => ⟨_, rfl⟩, fun hrepeats => absurd hnodup hrepeats⟩
  · obtain ⟨e, hreply⟩ := hpeek.refused (mt hguard.mp hnodup)
    rw [hreply] at hstill ⊢
    exact ⟨hstill, fun hdiffer => absurd hdiffer hnodup, fun _ => rfl⟩

theorem commitBatch_yields (hdrawn : Drawn w walker.batch) :
    Yields answer s (w.commitBatch walker) fun s' τ r => Still left s s' τ ∧
      ((walker.batch.map CounterCandidate.key).Nodup → r.2 = none) ∧
      (¬(walker.batch.map CounterCandidate.key).Nodup → r.2 = some .failed) := by
  unfold Sweep.commitBatch
  rw [yields_ite, if_pos hlimited]
  constructor
  · intro hempty
    refine ⟨still_refl, fun _ => rfl, fun hrepeats => absurd ?_ hrepeats⟩
    rw [hempty]
    exact List.nodup_nil
  · intro _
    refine yields_bind.mpr ((refusing_yields hanswers hsound hlimited hdrawn).mono ?_)
    rintro s' τ kept ⟨hstill, hdiffers, hrepeats⟩
    by_cases hnodup : (walker.batch.map CounterCandidate.key).Nodup
    · obtain ⟨ks, rfl⟩ := hdiffers hnodup
      refine (deleteBatch_yields hanswers ks).mono fun s'' τ' r hr => ?_
      exact ⟨hstill.trans hr.1, fun _ => hr.2, fun hnot => absurd hnodup hnot⟩
    · obtain rfl := hrepeats hnodup
      exact ⟨hstill.trans still_refl, fun hdiffer => absurd hdiffer hnodup, fun _ => rfl⟩

theorem walk_yields {deadline : ℤ} (htimely : ∀ s t, (answer s .clock).2 = some t → t ≤ deadline)
    (ks : List Text) :
    ∀ {s : S} {walker : Walker}, Drawn w walker.batch →
      Yields answer s (w.walk deadline ks walker) fun s' τ r => Still left s s' τ ∧
        Leaves w (cut (walker.batch.map CounterCandidate.key) (candidateKeys w ks)) r := by
  induction ks with
  | nil =>
    intro s walker hdrawn
    refine ⟨still_refl, fun rest hrest => ?_, fun hnone => nomatch hnone⟩
    exact ⟨rfl, Option.some.inj hrest, hdrawn⟩
  | cons k ks ih =>
    intro s walker hdrawn
    refine yields_bind.mpr ((now_yields hanswers).mono ?_)
    rintro s' τ t ⟨hstill, ht⟩
    rw [if_neg (not_lt.mpr (htimely s t ht))]
    cases hk : w.consider k with
    | none =>
      refine (@ih s' walker.scan hdrawn).mono fun s'' τ' r hr => ⟨hstill.trans hr.1, ?_⟩
      have hkeys : candidateKeys w (k :: ks) = candidateKeys w ks := by
        rw [candidateKeys, List.filterMap_cons_none hk]
        rfl
      rw [hkeys]
      exact hr.2
    | some c =>
      have hkeys : candidateKeys w (k :: ks) = c.key :: candidateKeys w ks := by
        rw [candidateKeys, List.filterMap_cons_some hk]
        rfl
      have htaken := drawn_take hdrawn hk
      have hbatch : (walker.batch ++ [c]).map CounterCandidate.key =
          walker.batch.map CounterCandidate.key ++ [c.key] := by
        rw [List.map_append]
        rfl
      dsimp only
      rw [yields_ite]
      constructor
      · intro hshort
        refine (@ih s' { walker.scan with batch := walker.batch ++ [c] } htaken).mono ?_
        intro s'' τ' r hr
        refine ⟨hstill.trans hr.1, ?_⟩
        rw [hkeys, cut, ← hbatch, List.length_map, if_pos hshort]
        exact hr.2
      · intro hfull
        refine yields_bind.mpr ((@commitBatch_yields _ _ _ s' w
          { walker.scan with batch := walker.batch ++ [c] } hanswers hsound hlimited htaken).mono ?_)
        rintro s'' τ' ⟨walker', fault⟩ ⟨hstill', hdiffers, hrepeats⟩
        by_cases hnodup : ((walker.batch ++ [c]).map CounterCandidate.key).Nodup
        · obtain rfl : fault = none := hdiffers hnodup
          refine (@ih s'' { walker' with batch := [] } fun c hc => nomatch hc).mono ?_
          intro s''' τ'' r hr
          refine ⟨hstill.trans (hstill'.trans hr.1), ?_⟩
          rw [hkeys, cut, ← hbatch, List.length_map, if_neg hfull, if_pos hnodup]
          exact hr.2
        · obtain rfl : fault = some .failed := hrepeats hnodup
          refine ⟨hstill.trans (hstill'.trans still_refl), ?_⟩
          rw [hkeys, cut, ← hbatch, List.length_map, if_neg hfull, if_neg hnodup]
          exact ⟨fun rest hrest => (nomatch hrest), fun _ => rfl⟩

theorem run_yields {deadline : ℤ} (htimely : ∀ s t, (answer s .clock).2 = some t → t ≤ deadline)
    (fuel : ℕ) :
    ∀ {s : S} {walker : Walker} (cursor : Text), left s < fuel → Drawn w walker.batch →
      Yields answer s (w.run deadline fuel cursor walker) fun _ τ r =>
        Walks w (walker.batch.map CounterCandidate.key) τ r := by
  induction fuel with
  | zero => exact fun _ hfuel => nomatch hfuel
  | succ fuel ih =>
    intro s walker cursor hfuel hdrawn
    refine yields_bind.mpr ((now_yields hanswers).mono ?_)
    rintro s' τ t ⟨hstill, ht⟩
    rw [if_neg (not_lt.mpr (htimely s t ht))]
    refine yields_ask.mpr ?_
    obtain ⟨keys, next, hpage, hleft⟩ := hanswers.scan s' w.scanPrefix cursor sweepScanStep
    rw [hpage]
    refine yields_bind.mpr ((walk_yields hanswers hsound hlimited htimely keys hdrawn).mono ?_)
    rintro s'' τ' ⟨walker', fault⟩ ⟨hstill', hleaves⟩
    have hpages : ∀ τ'', pagesIn (τ ++ (⟨.scan w.scanPrefix cursor sweepScanStep, some (keys, next)⟩ ::
        (τ' ++ τ''))) = keys ++ pagesIn τ'' := by
      intro τ''
      rw [pagesIn_still hstill, pagesIn_cons_scan, pagesIn_still hstill']
    have hcommits : ∀ τ'', commitsIn (τ ++ (⟨.scan w.scanPrefix cursor sweepScanStep,
        some (keys, next)⟩ :: (τ' ++ τ''))) = commitsIn τ'' := by
      intro τ''
      rw [commitsIn_append, hstill.commits, List.nil_append, commitsIn, List.filterMap_cons_none rfl,
        ← commitsIn, commitsIn_append, hstill'.commits, List.nil_append]
    cases hcut : cut (walker.batch.map CounterCandidate.key) (candidateKeys w keys) with
    | none =>
      obtain rfl : fault = some .failed := hleaves.stops hcut
      refine ⟨hcommits [], ?_, fun _ => rfl⟩
      rw [hpages, candidateKeys_append, cut_append, hcut]
      simp
    | some rest =>
      obtain ⟨hnone, hrest, hdrawn'⟩ := hleaves.goes_on rest hcut
      obtain rfl : fault = none := hnone
      dsimp only at hrest hdrawn' ⊢
      rw [yields_ite]
      constructor
      · intro _
        refine (commitBatch_yields hanswers hsound hlimited hdrawn').mono ?_
        rintro s''' τ'' r ⟨hstill'', hdiffers, hrepeats⟩
        rw [hrest] at hdiffers hrepeats
        have hlast : pagesIn τ'' = [] := by
          rw [pagesIn, hstill''.scans]
          rfl
        refine ⟨(hcommits τ'').trans hstill''.commits, ?_, ?_⟩
        · rw [hpages, hlast, List.append_nil, hcut]
          by_cases hnodup : rest.Nodup
          · simp [hnodup, hdiffers hnodup]
          · simp [hnodup, hrepeats hnodup]
        · intro hfault
          exact hrepeats fun hnodup => hfault (hdiffers hnodup)
      · intro hnext
        have hfewer : left s'' < fuel := by
          have := hleft hnext
          have := hstill.left_le
          have := hstill'.left_le
          omega
        refine (ih next hfewer hdrawn').mono fun s''' τ'' r hr => ?_
        refine ⟨(hcommits τ'').trans hr.commits, ?_, hr.failed⟩
        rw [hr.done_iff, hpages, candidateKeys_append, cut_append, hcut, hrest]
        rfl

end Batched

/-- A sweep with the limited filter completes where no batch repeats a key. -/
theorem sweep_yields (hsound : a.served.snapshot.Sound a.scope)
    (hlimited : a.command.selector.limitedOnly = true) (hfuel : left s < a.call.fuel) :
    Yields answer s (sweep std a) fun _ τ _ =>
      Completes τ ↔ BatchesDiffer (candidateKeys a.sweep (pagesIn τ)) := by
  refine yields_bind.mpr ((now_yields hanswers).mono ?_)
  rintro s' τ t ⟨hstill, ht⟩
  have htimely : ∀ s'' t', (answer s'' .clock).2 = some t' → t' ≤ t + sweepDeadline :=
    fun s'' t' ht' => hanswers.timely s s'' t t' ht ht'
  refine yields_bind.mpr ((@run_yields _ answer left a.sweep hanswers hsound hlimited _ htimely _ s'
    .start [] (hstill.left_le.trans_lt hfuel) fun c hc => absurd hc List.not_mem_nil).mono ?_)
  rintro s'' τ' ⟨walker, fault⟩ hwalks
  have hpages : ∀ τ'', scansIn τ'' = [] → pagesIn (τ ++ (τ' ++ τ'')) = pagesIn τ' := by
    intro τ'' hscans
    rw [pagesIn_still hstill, pagesIn, scansIn_append, hscans, List.append_nil]
    rfl
  have hcommits : ∀ τ'', commitsIn (τ ++ (τ' ++ τ'')) = commitsIn τ'' := by
    intro τ''
    rw [commitsIn_append, commitsIn_append, hstill.commits, hwalks.commits]
    rfl
  have hdiffer := @batchesDiffer_iff_cut [] (candidateKeys a.sweep (pagesIn τ')) (by decide)
  rw [List.nil_append] at hdiffer
  have hdone : fault = none ↔ BatchesDiffer (candidateKeys a.sweep (pagesIn τ')) :=
    hwalks.done_iff.trans hdiffer.symm
  cases fault with
  | none =>
    refine (finishSweep_yields hanswers walker).mono ?_
    rintro s''' τ'' r ⟨hscans, c, hc, hok, hcode⟩
    rw [hpages τ'' hscans, Completes, hcommits, hc]
    refine iff_of_true ⟨⟨c, List.mem_singleton_self c, hok⟩, fun c' hc' => ?_⟩ (hdone.mp rfl)
    rw [List.mem_singleton.mp hc', hcode]
    exact unset_ne_interrupted
  | some fault =>
    obtain rfl : fault = .failed := Option.some.inj (hwalks.failed (Option.some_ne_none _))
    refine (recordFailure_yields hanswers walker).mono ?_
    rintro s''' τ'' r ⟨hscans, hfailed⟩
    rw [hpages τ'' hscans, Completes, hcommits]
    refine iff_of_false ?_ fun hdiffers => absurd (hdone.mpr hdiffers) (Option.some_ne_none _)
    rintro ⟨⟨c, hc, hok⟩, -⟩
    rw [hfailed c hc] at hok
    cases hok

end Answered

end Sweeping

end Ratelimit.Management
