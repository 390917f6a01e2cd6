import Ratelimit.Management.Contract

/-!
# The walk keeps the contract

The loops of the sweep, from the inside out. While a call walks, its batches all
ran, its progress is what the last of them told but for the keys examined since,
and the keys it dropped and those it still holds are the candidates of the keys
walked so far.
-/
namespace Ratelimit.Management

open Library Records Store

section Walks

/-- What holds of a call while it walks: the keys walked so far are `done`. -/
structure Walked (s : Sweep) (τ : Seen) (done : List Text) (w : Walker) : Prop where
  unended : made isCommit τ = 0
  unminted : made isPut τ = 0
  ran : AllRan τ
  agrees : AgreeButScanned w.progress (told τ)
  judged : ∀ c ∈ w.batch, s.consider c.key = some c
  drops : s.command.selector.limitedOnly = false → s.command.dryRun = false →
    dropped τ ++ w.batch.map CounterCandidate.key =
      (done.filterMap s.consider).map CounterCandidate.key

structure Silent (x : Exchange Reply) : Prop where
  commit : isCommit x.1 = false
  put : isPut x.1 = false
  batch : batchOf x = none

variable {std : Stdlib} {a : Admitted} {s : Sweep} {τ : Seen} {x : Exchange Reply}
  {done : List Text} {w : Walker} {k : Text}

theorem AllRan.silent (h : AllRan τ) (hx : batchOf x = none) : AllRan (τ ++ [x]) := by
  unfold AllRan
  rw [batchesIn_snoc, hx, Option.toList_none, List.append_nil]
  exact h

theorem Walked.silent (h : Walked s τ done w) (hx : Silent x) : Walked s (τ ++ [x]) done w where
  unended := by simp [h.unended, hx.commit]
  unminted := by simp [h.unminted, hx.put]
  ran := h.ran.silent hx.batch
  agrees := by
    rw [told_of_silent hx.batch]
    exact h.agrees
  judged := h.judged
  drops := by
    rw [dropped_of_silent hx.batch]
    exact h.drops

theorem Walked.pass (h : Walked s τ done w) (hk : s.consider k = none) :
    Walked s τ (done ++ [k]) w.scan where
  unended := h.unended
  unminted := h.unminted
  ran := h.ran
  agrees := h.agrees
  judged := h.judged
  drops := by
    intro hlimited hdry
    have hdropped := h.drops hlimited hdry
    rw [List.filterMap_append, List.filterMap_cons_none hk, List.filterMap_nil, List.append_nil]
    exact hdropped

theorem Walked.take {c : CounterCandidate} (h : Walked s τ done w) (hc : s.consider k = some c) :
    Walked s τ (done ++ [k]) { w.scan with batch := w.batch ++ [c] } where
  unended := h.unended
  unminted := h.unminted
  ran := h.ran
  agrees := h.agrees
  judged := by
    intro c' hc'
    rcases List.mem_append.mp hc' with hold | hnew
    · exact h.judged c' hold
    · rw [List.mem_singleton.mp hnew, consider_key hc]
      exact hc
  drops := by
    intro hlimited hdry
    have hdropped := h.drops hlimited hdry
    have hlast : [k].filterMap s.consider = [c] := by simp [hc]
    rw [List.filterMap_append, hlast, List.map_append, List.map_append, ← hdropped,
      List.append_assoc]

def Stepped (s : Sweep) (τ : Seen) (done : List Text) : Walker × Option Fault → Prop
  | (w, none) => Walked s τ done w
  | (w, some .deadline) => ∃ done', Walked s τ done' w
  | (_, some .failed) => True

theorem obeys_lookup {Q : Seen → Option Record → Prop}
    (hQ : ∀ fields holder ttl, Q (τ ++ [⟨.fields a.keys.record, fields⟩] ++
      [⟨.holder a.keys.lease, holder⟩] ++ [⟨.pttl a.keys.lease, ttl⟩]) (looked fields holder ttl)) :
    Obeys (Permits std a) Q τ (lookup a.keys) := by
  refine obeys_ask.mpr ⟨rfl, fun fields => ?_⟩
  refine obeys_ask.mpr ⟨rfl, fun holder => ?_⟩
  exact obeys_ask.mpr ⟨rfl, fun ttl => hQ fields holder ttl⟩

theorem obeys_now {Q : Seen → ℤ → Prop} (hQ : ∀ t, Q (τ ++ [⟨.clock, some t⟩]) t) :
    Obeys (Permits std a) Q τ now := by
  refine obeys_ask.mpr ⟨trivial, fun reading => ?_⟩
  cases reading with
  | none => trivial
  | some t => exact hQ t

theorem mem_zip_of_mapM {batch : List CounterCandidate} {buckets : List Bucket}
    {verdicts : List Verdict} {c : CounterCandidate} {v : Verdict}
    (hmap : batch.mapM CounterCandidate.bucket = some buckets)
    (hmem : (c, v) ∈ batch.zip verdicts) :
    ∃ b, c.bucket = some b ∧ (b, v) ∈ buckets.zip verdicts := by
  induction batch generalizing buckets verdicts with
  | nil => simp at hmem
  | cons c' batch ih =>
    cases verdicts with
    | nil => simp at hmem
    | cons v' verdicts =>
      obtain ⟨b', hb', bs, hbs, rfl⟩ : ∃ b', c'.bucket = some b' ∧
          ∃ bs, batch.mapM CounterCandidate.bucket = some bs ∧ b' :: bs = buckets := by
        simpa [List.mapM_cons, Option.bind_eq_some_iff] using hmap
      rw [List.zip_cons_cons] at hmem ⊢
      rcases List.mem_cons.mp hmem with heq | hmem
      · obtain ⟨rfl, rfl⟩ := Prod.mk.inj heq
        exact ⟨b', hb', List.mem_cons_self⟩
      · obtain ⟨b, hb, hzip⟩ := ih hbs hmem
        exact ⟨b, hb, List.mem_cons_of_mem _ hzip⟩

theorem obeys_refusing {batch : List CounterCandidate}
    {Q : Seen → Option (List CounterCandidate) → Prop}
    (hQ : ∀ x, Silent x → scanOf x = none → (∀ kept : List CounterCandidate,
      (∀ c ∈ kept, c ∈ batch ∧ Refused (τ ++ [x]) c) → Q (τ ++ [x]) (some kept)) ∧
      Q (τ ++ [x]) none) :
    Obeys (Permits std a) Q τ (refusing batch) := by
  unfold refusing
  split
  · trivial
  · next buckets hbuckets =>
    refine obeys_ask.mpr ⟨trivial, fun answer => ?_⟩
    obtain ⟨hsome, hnone⟩ := hQ ⟨.peek buckets, answer⟩ ⟨rfl, rfl, rfl⟩ rfl
    split
    · next verdicts =>
      rw [obeys_ite]
      refine ⟨fun _ => hnone, fun _ => hsome _ fun c hc => ?_⟩
      obtain ⟨⟨c', v⟩, hmem, rfl⟩ := List.mem_map.mp hc
      obtain ⟨hzip, hrefused⟩ := List.mem_filter.mp hmem
      obtain ⟨b, hb, hbv⟩ := mem_zip_of_mapM hbuckets hzip
      refine ⟨(List.of_mem_zip hzip).1, buckets, verdicts, b, v, List.getLast?_concat, hbv, hb, ?_⟩
      simpa using hrefused
    · exact hnone

def Flushed (s : Sweep) (τ : Seen) (done : List Text) : Walker × Option Fault → Prop
  | (w, none) => Walked s τ done { w with batch := [] }
  | (_, some fault) => fault = .failed

theorem Flushed.stopped {fault : Fault} (h : Flushed s τ done (w, some fault)) (done' : List Text) :
    Stepped s τ done' (w, some fault) := by
  obtain rfl : fault = .failed := h
  trivial

/-- The batch that ran: everything it told and dropped is in the transcript now. -/
theorem Walked.flush (h : Walked s τ done w) {b : Batch}
    (hdelete : s.command.selector.limitedOnly = false → s.command.dryRun = false →
      b.delete = w.batch.map CounterCandidate.key) :
    Walked s (τ ++ [⟨.batch b, some .ok⟩]) done ⟨b.progress, []⟩ where
  unended := by simp [h.unended, isCommit]
  unminted := by simp [h.unminted, isPut]
  ran := by
    intro p hp
    rw [batchesIn_snoc] at hp
    rcases List.mem_append.mp hp with hold | hnew
    · exact h.ran p hold
    · obtain rfl := List.mem_singleton.mp hnew
      rfl
  agrees := by simp [told, batchOf, AgreeButScanned]
  judged := by simp
  drops := by
    intro hlimited hdry
    have hdropped := h.drops hlimited hdry
    rw [← hdelete hlimited hdry] at hdropped
    simpa [dropped, batchOf] using hdropped

theorem obeys_deleteBatch {kept : List CounterCandidate} (h : Walked a.sweep τ done w)
    (hkept : ∀ c ∈ kept, c ∈ w.batch ∧ (a.command.selector.limitedOnly = true → Refused τ c))
    (hall : a.command.selector.limitedOnly = false → kept = w.batch) :
    Obeys (Permits std a) (fun τ' r => scansIn τ' = scansIn τ ∧ Flushed a.sweep τ' done r) τ
      (a.sweep.deleteBatch w kept) := by
  unfold Sweep.deleteBatch
  rw [obeys_ite]
  constructor
  · rintro rfl
    refine ⟨rfl, h.unended, h.unminted, h.ran, h.agrees, by simp, fun hlimited hdry => ?_⟩
    rw [← h.drops hlimited hdry, ← hall hlimited]
  · intro _
    refine obeys_ask.mpr ⟨⟨rfl, rfl, h.unended, ?_, ?_⟩, fun verdict => ?_⟩
    · intro hdry
      simp [Admitted.sweep, hdry]
    · intro k hk
      obtain ⟨c, hc, rfl⟩ : ∃ c ∈ kept, c.key = k := by
        split_ifs at hk
        · exact List.mem_map.mp hk
        · simp at hk
      obtain ⟨hmem, hrefused⟩ := hkept c hc
      exact ⟨c, h.judged c hmem, hrefused⟩
    · have hscans : ∀ b v, scansIn (τ ++ [⟨.batch b, v⟩]) = scansIn τ := by
        intro b v
        simp [scanOf]
      rcases verdict with _ | (_ | _)
      · exact ⟨hscans _ _, rfl⟩
      · refine ⟨hscans _ _, h.flush fun hlimited hdry => ?_⟩
        have hexecute : a.sweep.command.dryRun = false := hdry
        simp [hexecute, hall hlimited]
      · exact ⟨hscans _ _, rfl⟩

theorem obeys_commitBatch (h : Walked a.sweep τ done w) :
    Obeys (Permits std a) (fun τ' r => scansIn τ' = scansIn τ ∧ Flushed a.sweep τ' done r) τ
      (a.sweep.commitBatch w) := by
  unfold Sweep.commitBatch
  rw [obeys_ite, obeys_ite]
  refine ⟨fun hempty => ⟨rfl, ?_⟩, fun _ => ⟨fun hlimited => ?_, fun hlimited => ?_⟩⟩
  · obtain ⟨progress, batch⟩ := w
    obtain rfl : batch = [] := hempty
    exact h
  · refine obeys_bind.mpr (obeys_refusing fun x hx hscan => ⟨fun kept hkept => ?_, ?_⟩)
    · have hscans : scansIn (τ ++ [x]) = scansIn τ := by simp [hscan]
      rw [← hscans]
      refine obeys_deleteBatch (h.silent hx) (fun c hc => ?_) fun hfalse => ?_
      · exact ⟨(hkept c hc).1, fun _ => (hkept c hc).2⟩
      · exact absurd (hlimited.symm.trans hfalse) (by decide)
    · exact ⟨by simp [hscan], rfl⟩
  · exact obeys_deleteBatch h (fun c hc => ⟨hc, fun htrue => absurd htrue hlimited⟩) fun _ => rfl

theorem silent_clock (t : Option ℤ) : Silent ⟨.clock, t⟩ := ⟨rfl, rfl, rfl⟩

theorem obeys_walk (deadline : ℤ) (ks : List Text) :
    ∀ {τ : Seen} {done : List Text} {w : Walker}, Walked a.sweep τ done w →
      Obeys (Permits std a)
        (fun τ' r => scansIn τ' = scansIn τ ∧ Stepped a.sweep τ' (done ++ ks) r) τ
        (a.sweep.walk deadline ks w) := by
  induction ks with
  | nil =>
    intro τ done w h
    refine ⟨rfl, ?_⟩
    rw [List.append_nil]
    exact h
  | cons k ks ih =>
    intro τ done w h
    refine obeys_bind.mpr (obeys_now fun t => ?_)
    have hclock := h.silent (silent_clock (some t))
    have hscans : scansIn (τ ++ [⟨.clock, some t⟩]) = scansIn τ := by simp [scanOf]
    rw [← hscans, List.append_cons done k ks]
    rw [obeys_ite]
    refine ⟨fun _ => ⟨rfl, done, hclock⟩, fun _ => ?_⟩
    split
    · next hnone => exact ih (hclock.pass hnone)
    · next c hsome =>
      have htaken := hclock.take hsome
      rw [obeys_ite]
      refine ⟨fun _ => ih htaken, fun _ => ?_⟩
      refine obeys_bind.mpr ((obeys_commitBatch htaken).mono ?_)
      rintro τ' ⟨w', fault⟩ ⟨hscans', hflushed⟩
      rw [← hscans']
      cases fault with
      | some fault => exact ⟨rfl, hflushed.stopped _⟩
      | none => exact ih hflushed

/-- A walk that reached the end of the scan, with nothing left in the batch. -/
def Complete (s : Sweep) (τ : Seen) (w : Walker) : Prop :=
  Walked s τ (pagesIn τ) { w with batch := [] } ∧ scansIn τ ≠ [] ∧ cursorAfter (scansIn τ) = some []

def Swept (s : Sweep) (τ : Seen) : Walker × Option Fault → Prop
  | (w, none) => Complete s τ w
  | (w, some .deadline) => ∃ done, Walked s τ done w
  | (_, some .failed) => True

theorem Stepped.swept {fault : Fault} (h : Stepped s τ done (w, some fault)) :
    Swept s τ (w, some fault) := by
  cases fault with
  | deadline => exact ⟨_, h.choose_spec⟩
  | failed => trivial

theorem obeys_run (deadline : ℤ) (fuel : ℕ) :
    ∀ {τ : Seen} {cursor : Text} {w : Walker}, Walked a.sweep τ (pagesIn τ) w →
      cursorAfter (scansIn τ) = some cursor →
      Obeys (Permits std a) (fun τ' r => Swept a.sweep τ' r) τ
        (a.sweep.run deadline fuel cursor w) := by
  induction fuel with
  | zero =>
    intro τ cursor w _ _
    trivial
  | succ fuel ih =>
    intro τ cursor w h hcursor
    refine obeys_bind.mpr (obeys_now fun t => ?_)
    have hclock := h.silent (silent_clock (some t))
    have hscans : scansIn (τ ++ [⟨.clock, some t⟩]) = scansIn τ := by simp [scanOf]
    have hpages : pagesIn (τ ++ [⟨.clock, some t⟩]) = pagesIn τ := pagesIn_of_silent rfl
    rw [← hpages] at hclock
    rw [← hscans] at hcursor
    generalize τ ++ [⟨.clock, some t⟩] = τ at hclock hcursor ⊢
    rw [obeys_ite]
    refine ⟨fun _ => ⟨_, hclock⟩, fun _ => ?_⟩
    refine obeys_ask.mpr ⟨⟨rfl, hcursor⟩, fun page => ?_⟩
    have hscanned : ∀ page, Walked a.sweep
        (τ ++ [⟨.scan a.sweep.scanPrefix cursor sweepScanStep, page⟩]) (pagesIn τ) w :=
      fun page => hclock.silent ⟨rfl, rfl, rfl⟩
    split
    · trivial
    · next keys next =>
      refine obeys_bind.mpr ((obeys_walk deadline keys (hscanned _)).mono ?_)
      rintro τ' ⟨w', fault⟩ ⟨hscans', hstepped⟩
      have hpages' : pagesIn τ' = pagesIn τ ++ keys := by
        unfold pagesIn
        rw [hscans']
        simp [scanOf]
      have hcursor' : cursorAfter (scansIn τ') = some next := by
        rw [hscans', scansIn_snoc]
        simp only [scanOf, Option.toList_some, cursorAfter, List.foldl_append, List.foldl_cons,
          List.foldl_nil]
        rw [cursorAfter] at hcursor
        rw [hcursor, if_pos rfl]
        rfl
      rw [← hpages'] at hstepped
      cases fault with
      | some fault => exact hstepped.swept
      | none =>
        rw [obeys_ite]
        constructor
        · rintro rfl
          refine (obeys_commitBatch hstepped).mono ?_
          rintro τ'' ⟨w'', fault⟩ ⟨hscans'', hflushed⟩
          cases fault with
          | some fault => exact (hflushed.stopped (pagesIn τ')).swept
          | none =>
            have hpages'' : pagesIn τ'' = pagesIn τ' := by
              unfold pagesIn
              rw [hscans'']
            refine ⟨hpages'' ▸ hflushed, ?_, ?_⟩
            · rw [hscans'', hscans', scansIn_snoc]
              simp [scanOf]
            · rw [hscans'', hcursor']
        · intro _
          exact ih hstepped hcursor'

end Walks

section Rule

/-- An invariant that every part of the loop keeps under a contract. -/
structure WalkRule (P : Seen → Req → Prop) (s : Sweep) (I : Seen → Walker → Prop) : Prop where
  clock : ∀ {τ w}, I τ w → P τ .clock ∧ ∀ v, I (τ ++ [⟨.clock, v⟩]) w
  scan : ∀ {τ w} cursor, I τ w → P τ (.scan s.scanPrefix cursor sweepScanStep) ∧
    ∀ v, I (τ ++ [⟨.scan s.scanPrefix cursor sweepScanStep, v⟩]) w
  pass : ∀ {τ w}, I τ w → I τ w.scan
  take : ∀ {τ w k c}, s.consider k = some c → I τ w → I τ { w.scan with batch := w.batch ++ [c] }
  commit : ∀ {τ w}, I τ w → Obeys P
    (fun τ' r => r.2 = none → I τ' { r.1 with batch := [] }) τ (s.commitBatch w)

variable {P : Seen → Req → Prop} {s : Sweep} {I : Seen → Walker → Prop} {τ : Seen} {w : Walker}

theorem WalkRule.now (rule : WalkRule P s I) (h : I τ w) {Q : Seen → ℤ → Prop}
    (hQ : ∀ τ' t, I τ' w → Q τ' t) : Obeys P Q τ now := by
  refine obeys_ask.mpr ⟨(rule.clock h).1, fun reading => ?_⟩
  cases reading with
  | none => trivial
  | some t => exact hQ _ t ((rule.clock h).2 _)

theorem WalkRule.walk (rule : WalkRule P s I) (deadline : ℤ) (ks : List Text) :
    ∀ {τ : Seen} {w : Walker}, I τ w →
      Obeys P (fun τ' r => r.2 = none → I τ' r.1) τ (s.walk deadline ks w) := by
  induction ks with
  | nil => exact fun h _ => h
  | cons k ks ih =>
    intro τ w h
    refine obeys_bind.mpr (rule.now h fun τ t h => ?_)
    rw [obeys_ite]
    refine ⟨fun _ hnone => (nomatch hnone), fun _ => ?_⟩
    split
    · exact ih (rule.pass h)
    · next c hsome =>
      have htaken := rule.take hsome h
      rw [obeys_ite]
      refine ⟨fun _ => ih htaken, fun _ => ?_⟩
      refine obeys_bind.mpr ((rule.commit htaken).mono ?_)
      rintro τ' ⟨w', fault⟩ hcommitted
      cases fault with
      | some fault => exact fun hnone => nomatch hnone
      | none => exact ih (hcommitted rfl)

/-- The invariant holds at the end of a walk that came to the end of its scan. -/
theorem WalkRule.run (rule : WalkRule P s I) (deadline : ℤ) (fuel : ℕ) :
    ∀ {τ : Seen} {w : Walker} (cursor : Text), I τ w →
      Obeys P (fun τ' r => r.2 = none → I τ' { r.1 with batch := [] }) τ
        (s.run deadline fuel cursor w) := by
  induction fuel with
  | zero => exact fun _ _ => trivial
  | succ fuel ih =>
    intro τ w cursor h
    refine obeys_bind.mpr (rule.now h fun τ t h => ?_)
    rw [obeys_ite]
    refine ⟨fun _ hnone => (nomatch hnone), fun _ => ?_⟩
    refine obeys_ask.mpr ⟨(rule.scan cursor h).1, fun page => ?_⟩
    have hscanned := (rule.scan cursor h).2 page
    split
    · exact fun hnone => nomatch hnone
    · refine obeys_bind.mpr ((rule.walk deadline _ hscanned).mono ?_)
      rintro τ' ⟨w', fault⟩ hwalked
      cases fault with
      | some fault => exact fun hnone => nomatch hnone
      | none =>
        rw [obeys_ite]
        exact ⟨fun _ => rule.commit (hwalked rfl), fun _ => ih _ (hwalked rfl)⟩

end Rule

end Ratelimit.Management
