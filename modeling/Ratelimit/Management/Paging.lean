import Ratelimit.Management.PageWalk

/-!
# Following the pages of a listing

A page that stops hands the last key it took on as a continuation. Where the
continuation comes back as the same key, the pages together list what the store holds:
nothing is left out between two pages, and nothing is on both.
-/
namespace Ratelimit.Management

open Library Store Memory

section Judging

variable {clock : ℕ → ℕ} {m₀ : Entries} {s : Entries × ℕ} {l : Listing}

/-- What a listing shows of a candidate at some time, if anything. -/
def Listing.listedAt (l : Listing) (now : ℕ) (m : Entries) (c : EnforcedCandidate) :
    Option CounterView :=
  let verdict := currentVerdict (outcome now m c.bucket)
  if l.selector.limitedOnly && verdict.allowed then none
  else some (counterView c c.bucket verdict)

/-- The views of the admitted ones among some keys, each judged at its own time. -/
def Listing.listed (l : Listing) (m : Entries) (stamp : Text → ℕ) (ks : List Text) :
    List CounterView :=
  (ks.filterMap l.admits).filterMap fun c => l.listedAt (stamp c.key) m c

theorem listedAt_key {now : ℕ} {m : Entries} {c : EnforcedCandidate} {v : CounterView}
    (h : l.listedAt now m c = some v) : v.key = c.key := by
  unfold Listing.listedAt at h
  dsimp only at h
  split_ifs at h
  rw [← Option.some.inj h]
  rfl

theorem listed_append (m : Entries) (stamp : Text → ℕ) (ks ks' : List Text) :
    l.listed m stamp (ks ++ ks') = l.listed m stamp ks ++ l.listed m stamp ks' := by
  simp only [Listing.listed, List.filterMap_append]

theorem listed_congr {m : Entries} {stamp stamp' : Text → ℕ} {ks : List Text}
    (h : ∀ k ∈ ks, stamp k = stamp' k) : l.listed m stamp ks = l.listed m stamp' ks := by
  refine List.filterMap_congr fun c hc => ?_
  obtain ⟨k, hk, hadmits⟩ := List.mem_filterMap.mp hc
  rw [admits_key hadmits, h k hk]

theorem mem_listed {m : Entries} {stamp : Text → ℕ} {ks : List Text} {v : CounterView} :
    v ∈ l.listed m stamp ks ↔
      ∃ k c, k ∈ ks ∧ l.admits k = some c ∧ l.listedAt (stamp k) m c = some v := by
  simp only [Listing.listed, List.mem_filterMap]
  constructor
  · rintro ⟨c, ⟨k, hk, hadmits⟩, hlisted⟩
    exact ⟨k, c, hk, hadmits, admits_key hadmits ▸ hlisted⟩
  · rintro ⟨k, c, hk, hadmits, hlisted⟩
    exact ⟨c, ⟨k, hk, hadmits⟩, (admits_key hadmits).symm ▸ hlisted⟩

theorem admitted_sublist (ks : List Text) :
    ((ks.filterMap l.admits).map EnforcedCandidate.key).Sublist ks := by
  have hsublist := @map_filterMap_sublist _ _ _ l.admits id EnforcedCandidate.key
    (fun _ _ hc => admits_key hc) ks
  rwa [List.map_id] at hsublist

theorem listed_nodup {m : Entries} {stamp : Text → ℕ} {ks : List Text} (h : ks.Nodup) :
    ((l.listed m stamp ks).map CounterView.key).Nodup :=
  ((map_filterMap_sublist (fun _ _ hv => listedAt_key hv) _).trans (admitted_sublist ks)).nodup h

theorem views_map (f : EnforcedCandidate → Verdict) (limitedOnly : Bool)
    (candidates : List EnforcedCandidate) :
    views limitedOnly candidates (candidates.map f) = candidates.filterMap fun c =>
      if limitedOnly && (f c).allowed then none else some (counterView c c.bucket (f c)) := by
  induction candidates with
  | nil => rfl
  | cons c candidates ih =>
    unfold views at ih ⊢
    rw [List.map_cons, List.zip_cons_cons, List.filter_cons, List.filterMap_cons, ← ih]
    cases limitedOnly && (f c).allowed <;> simp

theorem judge_lists {base : Text} {candidates : List EnforcedCandidate} (h₀ : Keeps clock m₀ [] m₀)
    (hkeeps : Keeps clock m₀ base s.1) (hguarded : ∀ c ∈ candidates, Guarded c.bucket)
    (hbase : ∀ c ∈ candidates, base < c.key) (hnodup : (candidates.map EnforcedCandidate.key).Nodup) :
    Yields (asked clock) s (judge candidates l.selector.limitedOnly) fun s' _ r =>
      r = .ok (candidates.filterMap (l.listedAt (clock s.2) m₀)) ∧
        ∀ resume, base ≤ resume → (∀ c ∈ candidates, c.key ≤ resume) →
          Keeps clock m₀ resume s'.1 := by
  unfold judge
  rw [yields_ite]
  refine ⟨?_, fun _ => yields_ask.mpr ?_⟩
  · rintro rfl
    exact ⟨rfl, fun resume hle _ => hkeeps.later hle⟩
  · have hguard : guardBuckets (candidates.map EnforcedCandidate.bucket) = .ok () := by
      rw [guardBuckets_of_guarded (List.forall_mem_map.mpr hguarded), List.map_map]
      exact hnodup
    have hregistered : Registered (candidates.map EnforcedCandidate.bucket) :=
      List.forall_mem_map.mpr fun c _ => ⟨c.ref.rate.algorithm, rfl⟩
    have hpeek : (asked clock s (.peek (candidates.map EnforcedCandidate.bucket))).2 = some (.ok
        (candidates.map fun c => currentVerdict (outcome (clock s.2) s.1 c.bucket))) := by
      refine congrArg some ((storePeek_snd hguard hregistered).trans ?_)
      rw [List.map_map]
      rfl
    rw [hpeek]
    dsimp only
    rw [if_neg (by simp), views_map]
    refine ⟨congrArg Except.ok (List.filterMap_congr fun c hc => ?_), fun resume hle hresume => ?_⟩
    · rw [Listing.listedAt, hkeeps.outcome_eq h₀ (hbase c hc)]
    · exact (hkeeps.later hle).peek (List.forall_mem_map.mpr hresume)

end Judging

section Pages

variable {std : Stdlib} {clock : ℕ → ℕ} {m₀ : Entries} {s : Entries × ℕ} {l : Listing}

theorem not_full_empty (hsize : 1 ≤ l.pageSize) :
    ¬l.full .empty (maxScanSteps - maxScanSteps) = true := by
  have hpage : ¬l.pageSize ≤ 0 := by omega
  simp [Listing.full, Page.empty, scanBudget, maxScanSteps, hpage]

/-- A page from a start stops at a key, whatever the store has dropped below the start. -/
def Listing.StopsAt (l : Listing) (clock : ℕ → ℕ) (m₀ : Entries) (start stop : Text) : Prop :=
  ∃ s : Entries × ℕ, Keeps clock m₀ start s.1 ∧
    Yields (asked clock) s (l.selectCandidates start) fun _ _ r =>
      ∃ p, r = .ok p ∧ p.more = true ∧ p.resume = stop

theorem selectCandidates_takes {start : Text} (hsize : 1 ≤ l.pageSize)
    (hkeeps : Keeps clock m₀ start s.1) :
    Yields (asked clock) s (l.selectCandidates start) fun s' τ r => ∃ p, r = .ok p ∧
      p.candidates = (keysIn τ).filterMap l.admits ∧ Keeps clock m₀ start s'.1 ∧
      TakenFrom (above (clock 0) m₀ l.scanPrefix) start (keysIn τ) p ∧
      (keysIn τ).Sublist (above (clock 0) m₀ l.scanPrefix start) ∧
      (p.more = true → p.resume ∈ keysIn τ) := by
  refine ((selectFrom_yields (asked_answers clock) _ start .empty).and
    (selectFrom_takes maxScanSteps start .empty rfl le_rfl hkeeps)).mono ?_
  rintro s' τ _ ⟨⟨-, p, rfl, hp, -⟩, hkept, hpage⟩
  obtain ⟨htaken, hresume⟩ := hpage p rfl
  refine ⟨p, rfl, hp.candidates, hkept, htaken, ?_, fun hmore => ?_⟩
  · cases hmore : p.more with
    | false => exact htaken.last hmore ▸ List.Sublist.refl _
    | true => exact htaken.onward hmore ▸ List.sublist_append_left _ _
  · rcases hresume hmore with hin | ⟨-, hfull⟩
    · exact hin
    · exact absurd hfull (not_full_empty hsize)

/-- The pages of a chain stop at live keys. -/
theorem stop_mem_above (hsize : 1 ≤ l.pageSize) {stop : Text}
    (h : Relation.TransGen (l.StopsAt clock m₀) [] stop) :
    stop ∈ above (clock 0) m₀ l.scanPrefix [] := by
  have hstep : ∀ {start stop}, l.StopsAt clock m₀ start stop →
      stop ∈ above (clock 0) m₀ l.scanPrefix start := by
    rintro start stop ⟨s, hkeeps, hstops⟩
    obtain ⟨_, _, _, -, ⟨p, rfl, hmore, rfl⟩, p', hp', -, -, -, hsublist, hresume⟩ :=
      yields_iff.mp (hstops.and (selectCandidates_takes hsize hkeeps))
    obtain rfl := Except.ok.inj hp'
    exact hsublist.subset (hresume hmore)
  induction h with
  | single hstop => exact hstep hstop
  | tail _ hstop ih =>
    obtain ⟨hlive, hless, hpre⟩ := mem_above.mp (hstep hstop)
    exact mem_above.mpr ⟨hlive, (mem_above.mp ih).2.1.trans hless, hpre⟩

/-- A page of the listing, of the keys it took and the time of its peek. -/
structure PageFrom (std : Stdlib) (l : Listing) (clock : ℕ → ℕ) (m₀ : Entries) (start : Text)
    (now : ℤ) (taken : List Text) (i : ℕ) (m : Entries) (list : CounterList) : Prop where
  items : list.items = (taken.filterMap l.admits).filterMap (l.listedAt (clock i) m₀)
  last : list.nextCursor = none → above (clock 0) m₀ l.scanPrefix start = taken
  onward : ∀ c, list.nextCursor = some c → ∃ resume ∈ taken, l.StopsAt clock m₀ start resume ∧
    c = encodeCursor std resume l.selector now ∧ Keeps clock m₀ resume m ∧
      above (clock 0) m₀ l.scanPrefix start = taken ++ above (clock 0) m₀ l.scanPrefix resume

theorem listCounters_lists {start : Text} {now : ℤ} (hsound : l.snapshot.Sound l.scope)
    (hsize : 1 ≤ l.pageSize) (h₀ : Keeps clock m₀ [] m₀) (hkeeps : Keeps clock m₀ start s.1) :
    Yields (asked clock) s (listCounters std l start now) fun s' _ r => ∃ list taken i,
      r = .ok list ∧ PageFrom std l clock m₀ start now taken i s'.1 list := by
  obtain ⟨s', τ, _, hrun, p, rfl, hcandidates, hkept, htaken, hsublist, hresume⟩ :=
    yields_iff.mp (selectCandidates_takes hsize hkeeps)
  refine yields_bind.mpr (yields_iff.mpr ⟨s', τ, _, hrun, ?_⟩)
  have hmem : ∀ c ∈ p.candidates, ∃ k ∈ keysIn τ, l.admits k = some c := by
    intro c hc
    rw [hcandidates] at hc
    exact List.mem_filterMap.mp hc
  have hguarded : ∀ c ∈ p.candidates, Guarded c.bucket := hcandidates ▸ admitted_guarded hsound _
  have hbase : ∀ c ∈ p.candidates, start < c.key := by
    intro c hc
    obtain ⟨k, hin, hk⟩ := hmem c hc
    rw [admits_key hk]
    exact (mem_above.mp (hsublist.subset hin)).2.1
  have hnodup : (p.candidates.map EnforcedCandidate.key).Nodup := by
    rw [hcandidates]
    exact ((admitted_sublist _).trans hsublist).nodup sortedLT_above.nodup
  dsimp only
  refine yields_bind.mpr ((judge_lists h₀ hkept hguarded hbase hnodup).mono ?_)
  rintro s'' τ' _ ⟨rfl, hleft⟩
  dsimp only
  rw [yields_ite, yields_pure, yields_pure]
  have hitems : p.candidates.filterMap (l.listedAt (clock s'.2) m₀) =
      ((keysIn τ).filterMap l.admits).filterMap (l.listedAt (clock s'.2) m₀) := by rw [hcandidates]
  constructor
  · intro hmore
    have hstopped := hresume hmore
    refine ⟨_, keysIn τ, s'.2, rfl, hitems, fun hnone => (nomatch hnone), ?_⟩
    intro c hc
    have hstart := (mem_above.mp (hsublist.subset hstopped)).2.1
    refine ⟨p.resume, hstopped, ⟨s, hkeeps, yields_iff.mpr ⟨s', τ, _, hrun, p, rfl, hmore, rfl⟩⟩,
      (Option.some.inj hc).symm, hleft p.resume hstart.le ?_, htaken.onward hmore⟩
    intro c hc
    obtain ⟨k, hin, hk⟩ := hmem c hc
    rw [admits_key hk]
    exact htaken.le_resume hmore k hin
  · intro hmore
    exact ⟨_, keysIn τ, s'.2, rfl, hitems, fun _ => htaken.last (by simpa using hmore),
      fun c hc => (nomatch hc)⟩

/-- The work of one page: the steps it asked for, the keys it examined and kept. -/
structure Within (l : Listing) (τ : Listed) (r : Except ApiError CounterList) : Prop where
  steps : τ.countP (fun x => isScan x.1) ≤ maxScanSteps
  limits : ∀ pre cursor limit v, ⟨.scan pre cursor limit, v⟩ ∈ τ → 1 ≤ limit
  examined : (keysIn τ).length ≤ scanBudget
  kept : (((keysIn τ).filterMap l.admits).length : ℤ) ≤ l.pageSize
  scanned : ∀ list, r = .ok list → list.scanned = (keysIn τ).length

theorem listCounters_within (hsound : l.snapshot.Sound l.scope) (hsize : 1 ≤ l.pageSize)
    (start : Text) (now : ℤ) :
    Yields (asked clock) s (listCounters std l start now) fun _ τ r => Within l τ r := by
  refine (listCounters_yields std (asked_answers clock) hsound start now).mono ?_
  rintro s' τ r ⟨p, hrun⟩
  obtain ⟨hexamined, hkept⟩ := hrun.fits (asked_short clock) hsize
  exact ⟨hrun.steps, hrun.limits, hrun.scanned ▸ hexamined, hrun.candidates ▸ hkept,
    fun list hlist => (hrun.reported list hlist).trans hrun.scanned⟩

/-- Any request for a page, whatever the store holds and the cursor says. -/
theorem servePage_within (hsound : l.snapshot.Sound l.scope) (hsize : 1 ≤ l.pageSize)
    (cursor : Option (Option Cursor)) (now : ℤ) :
    Yields (asked clock) s (servePage std l cursor now) fun _ τ r => Within l τ r := by
  unfold servePage
  split
  · exact listCounters_within hsound hsize [] now
  · split
    · refine ⟨Nat.zero_le _, ?_, Nat.zero_le _, ?_, ?_⟩
      · exact fun pre cursor limit v hx => (nomatch hx)
      · change (0 : ℤ) ≤ l.pageSize
        omega
      · exact fun list hlist => (nomatch hlist)
    · exact listCounters_within hsound hsize _ now

end Pages

section Following

variable {std : Stdlib} {clock : ℕ → ℕ} {m₀ : Entries} {s : Entries × ℕ} {l : Listing}
  {times : ℕ → ℤ}

/-- A client that asks for page after page, at these times, until one has no
continuation, for so many pages at most. -/
def follow (std : Stdlib) (l : Listing) (times : ℕ → ℤ) :
    ℕ → ℕ → Option (Option Cursor) → Lister (Except ApiError (List CounterList))
  | 0, _, _ => Prog.halt
  | fuel + 1, i, cursor => do
    match ← servePage std l cursor (times i) with
    | .error e => pure (.error e)
    | .ok list =>
      match list.nextCursor with
      | none => pure (.ok [list])
      | some next => do
        match ← follow std l times fuel (i + 1) (some (some next)) with
        | .error e => pure (.error e)
        | .ok rest => pure (.ok (list :: rest))

/-- A continuation comes back within its lifetime as the key it was made of exactly where
that key is text. -/
theorem decodeCursor_encodeCursor {sel : Selector} {now later : ℤ} (resume : Text)
    (h : unix later ≤ unix (now + cursorTTL)) :
    decodeCursor std (some (encodeCursor std resume sel now)) sel later = .ok resume ↔
      Utf8.Valid resume := by
  have hdecoded : decodeCursor std (some (encodeCursor std resume sel now)) sel later =
      .ok (Utf8.coerce resume) := by
    rw [decodeCursor]
    exact (if_neg (not_not.mpr rfl)).trans (if_neg (not_lt.mpr h))
  rw [hdecoded, ← Utf8.coerce_eq_iff]
  exact ⟨Except.ok.inj, congrArg Except.ok⟩

theorem follow_lists (hsound : l.snapshot.Sound l.scope) (hsize : 1 ≤ l.pageSize)
    (h₀ : Keeps clock m₀ [] m₀) (htimes : ∀ i, unix (times (i + 1)) ≤ unix (times i + cursorTTL))
    (fuel : ℕ) :
    ∀ {s : Entries × ℕ} {i : ℕ} {start : Text} {cursor : Option (Option Cursor)},
      (∀ k, Relation.TransGen (l.StopsAt clock m₀) start k → Utf8.Valid k) →
      servePage std l cursor (times i) = listCounters std l start (times i) →
      Keeps clock m₀ start s.1 → (above (clock 0) m₀ l.scanPrefix start).length < fuel →
      Yields (asked clock) s (follow std l times fuel i cursor) fun _ _ r => ∃ pages stamp,
        r = .ok pages ∧ (∀ k, stamp k ∈ Set.range clock) ∧
          pages.flatMap CounterList.items =
            l.listed m₀ stamp (above (clock 0) m₀ l.scanPrefix start) := by
  induction fuel with
  | zero => exact fun _ _ _ hfuel => absurd hfuel (Nat.not_lt_zero _)
  | succ fuel ih =>
    intro s i start cursor hvalid hserve hkeeps hfuel
    unfold follow
    rw [hserve]
    refine yields_bind.mpr ((listCounters_lists hsound hsize h₀ hkeeps).mono ?_)
    rintro s' τ _ ⟨list, taken, j, rfl, hpage⟩
    dsimp only
    cases hnext : list.nextCursor with
    | none =>
      refine ⟨[list], fun _ => clock j, rfl, fun _ => ⟨j, rfl⟩, ?_⟩
      rw [hpage.last hnext, List.flatMap_singleton]
      exact hpage.items
    | some c =>
      obtain ⟨resume, hresume, hstops, rfl, hkept, hsplit⟩ := hpage.onward c hnext
      have habove : resume ∈ above (clock 0) m₀ l.scanPrefix start := by
        rw [hsplit]
        exact List.mem_append_left _ hresume
      have htext : Utf8.Valid resume := hvalid resume (.single hstops)
      have hresumes : servePage std l (some (some (encodeCursor std resume l.selector (times i))))
          (times (i + 1)) = listCounters std l resume (times (i + 1)) := by
        rw [servePage, (decodeCursor_encodeCursor resume (htimes i)).mpr htext]
      have hless := length_above_lt habove
      refine yields_bind.mpr ((ih (fun k hk => hvalid k (.head hstops hk)) hresumes hkept
        (by omega)).mono ?_)
      rintro s'' τ' _ ⟨pages, stamp, rfl, hstamp, hpages⟩
      have hnodup : (taken ++ above (clock 0) m₀ l.scanPrefix resume).Nodup :=
        hsplit ▸ sortedLT_above.nodup
      have hapart := (List.nodup_append'.mp hnodup).2.2
      refine ⟨list :: pages, fun k => if k ∈ taken then clock j else stamp k, rfl, ?_, ?_⟩
      · intro k
        dsimp only
        split_ifs
        · exact ⟨j, rfl⟩
        · exact hstamp k
      · rw [List.flatMap_cons, hpages, hpage.items, hsplit, listed_append]
        refine congrArg₂ _ ?_ ?_
        · exact @listed_congr l m₀ (fun _ => clock j) _ taken fun k hk => (if_pos hk).symm
        · exact listed_congr fun k hk => (if_neg fun hin => hapart hin hk).symm

/-- The pages list every live counter that is admitted once, as it was at the time of some
call; with the limited filter, where it refused then. -/
structure Partitions (l : Listing) (clock : ℕ → ℕ) (m : Entries) (pages : List CounterList) :
    Prop where
  once : ((pages.flatMap CounterList.items).map CounterView.key).Nodup
  listed : ∃ stamp : Text → ℕ, (∀ k, stamp k ∈ Set.range clock) ∧
    ∀ v, v ∈ pages.flatMap CounterList.items ↔ ∃ k c, (live (clock 0) m k).isSome = true ∧
      l.admits k = some c ∧ l.listedAt (stamp k) m c = some v

theorem partitions_of_listed {stamp : Text → ℕ} {pages : List CounterList}
    (hsound : l.snapshot.Sound l.scope) (hstamp : ∀ k, stamp k ∈ Set.range clock)
    (h : pages.flatMap CounterList.items = l.listed m₀ stamp (above (clock 0) m₀ l.scanPrefix [])) :
    Partitions l clock m₀ pages := by
  constructor
  · rw [h]
    exact listed_nodup sortedLT_above.nodup
  · refine ⟨stamp, hstamp, fun v => ?_⟩
    rw [h, mem_listed]
    constructor
    · rintro ⟨k, c, hk, hadmits, hlisted⟩
      exact ⟨k, c, (mem_above.mp hk).1, hadmits, hlisted⟩
    · rintro ⟨k, c, hlive, hadmits, hlisted⟩
      have hpre := admits_scanPrefix hsound hadmits
      have hpositive : [] < k := by
        refine lt_of_lt_of_le ?_ (le_of_isPrefix ((domainPrefix_scanPrefix l.scope _).trans hpre))
        exact List.nil_lt_cons _ _
      exact ⟨k, c, mem_above.mpr ⟨hlive, hpositive, hpre⟩, hadmits, hlisted⟩

/-- The continuation of a page resumes where it stopped exactly where it stopped at text. Where the
pages stop at text, following the continuations comes to an end, and the pages partition the
counters. -/
theorem pages_partition_counters (std : Stdlib) (l : Listing) (p : Option Model.Policy)
    (hl : l.snapshot = (Compile.compile l.scope.namespaceName l.scope.domain p).1)
    (hsize : 1 ≤ l.pageSize) (clock : ℕ → ℕ) (m : Entries)
    (hstill : ∀ i k, live (clock i) m k = live (clock 0) m k) (times : ℕ → ℤ)
    (htimes : ∀ i, unix (times (i + 1)) ≤ unix (times i + cursorTTL)) (fuel : ℕ)
    (hfuel : (above (clock 0) m l.scanPrefix []).length < fuel) :
    (∀ s cursor now, ∃ s' τ r,
      (servePage std l cursor now).against (asked clock) s = (s', τ, some r) ∧ Within l τ r) ∧
    (∀ resume i, decodeCursor std (some (encodeCursor std resume l.selector (times i))) l.selector
      (times (i + 1)) = .ok resume ↔ Utf8.Valid resume) ∧
    ((∀ k, Relation.TransGen (l.StopsAt clock m) [] k → Utf8.Valid k) → ∃ s' τ pages,
      (follow std l times fuel 0 none).against (asked clock) (m, 0) = (s', τ, some (.ok pages)) ∧
        Partitions l clock m pages) := by
  have hsound : l.snapshot.Sound l.scope := by
    rw [hl]
    exact Compile.compile_sound_in l.scope p
  have hkeeps : Keeps clock m [] m := fun i k _ => hstill i k
  refine ⟨fun s cursor now => ?_, fun resume i => ?_, fun hvalid => ?_⟩
  · exact yields_iff.mp (servePage_within hsound hsize cursor now)
  · exact decodeCursor_encodeCursor resume (htimes i)
  · obtain ⟨s', τ, r, heq, pages, stamp, rfl, hstamp, hpages⟩ := yields_iff.mp
      (@follow_lists std clock m l times hsound hsize hkeeps htimes fuel (m, 0) 0 [] none hvalid rfl
        hkeeps hfuel)
    exact ⟨s', τ, pages, heq, partitions_of_listed hsound hstamp hpages⟩

def tenantListing : Listing :=
  ⟨shopScope, (policyShop (tenantPolicy .unset [ascii "tenant"]) (ascii "v1")).snapshot, .empty, 1⟩

def twoTenants (one other : Text) : Entries :=
  (Finmap.singleton (tenantCounter one) ⟨.gcraID, 6000000, 0, 0, 6000000⟩).insert
    (tenantCounter other) ⟨.gcraID, 6000000, 0, 0, 6000000⟩

theorem pages_partition_two_tenants : ∃ s' τ pages,
    (follow sampleStdlib tenantListing (fun _ => 0) 3 0 none).against (asked fun _ => 0)
      (twoTenants (ascii "a") (ascii "b"), 0) = (s', τ, some (.ok pages)) ∧
    Partitions tenantListing (fun _ => 0) (twoTenants (ascii "a") (ascii "b")) pages := by
  have habove : ∀ k ∈ above (0 : ℕ) (twoTenants (ascii "a") (ascii "b"))
      tenantListing.scanPrefix [], Utf8.Valid k := by
    rw [above_eq_sortedBy]
    decide +kernel
  refine (pages_partition_counters sampleStdlib tenantListing
    (some (tenantPolicy .unset [ascii "tenant"])) rfl (by decide) (fun _ => 0)
    (twoTenants (ascii "a") (ascii "b")) (fun _ _ => rfl) (fun _ => 0) (fun _ => by decide) 3
    (by rw [above_eq_sortedBy]; decide +kernel)).2.2 fun k hk => ?_
  exact habove k (@stop_mem_above (fun _ => 0) _ tenantListing (by decide) k hk)

/-- The walk by a sort that computes. -/
def askedBy (s : Entries × ℕ) : (r : CounterReq) → (Entries × ℕ) × Option (CounterReply r)
  | .scan pre cursor limit =>
    let scanned := storeScanBy 0 s.1 pre cursor limit
    ((scanned.1, s.2 + 1), scanned.2.toOption.map fun step => .page step.1 step.2)
  | .peek buckets => asked (fun _ => 0) s (.peek buckets)

/-- The first tenant's name is one stray byte. The continuation of its page resumes past
the counter of the second one, which is on no page. -/
theorem page_skips_tenant :
    let stray : Text := [0x80]
    let other : Text := [0xC3, 0xA9]
    Utf8.Valid (tenantCounter other) ∧
      (live 0 (twoTenants stray other) (tenantCounter other)).isSome = true ∧
      (tenantListing.admits (tenantCounter other)).isSome = true ∧
      ((follow sampleStdlib tenantListing (fun _ => 0) 3 0 none).against (asked fun _ => 0)
        (twoTenants stray other, 0)).2.2.map (fun r => r.toOption.map fun pages =>
          (pages.flatMap CounterList.items).map CounterView.key) =
        some (some [tenantCounter stray]) := by
  have hasked : asked (fun _ => 0) = askedBy := by
    funext s r
    cases r with
    | scan pre cursor limit =>
      dsimp only [asked, askedBy]
      rw [storeScan_eq_by]
    | peek buckets => rfl
  rw [hasked]
  decide +kernel

end Following

end Ratelimit.Management
