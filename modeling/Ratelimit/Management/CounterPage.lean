import Ratelimit.Management.Candidates

/-!
# Pages of a listing

A page of a listing, on any store that answers its calls: the steps it asks for, the
candidates it keeps of the keys they return, and the one peek that judges them.
-/
namespace Ratelimit.Management

open Library Store

/-- What a peek answers: one verdict for each bucket, or the refusal of the guard. -/
structure Judged (buckets : List Bucket) (reply : Option Store.Answer) : Prop where
  passed : guardBuckets buckets = .ok () → Memory.Registered buckets →
    ∃ verdicts, reply = some (.ok verdicts) ∧ verdicts.length = buckets.length
  refused : guardBuckets buckets ≠ .ok () → ∃ e, reply = some (.error e)

theorem judged_storePeek (now : ℕ) (m : Memory.Entries) (buckets : List Bucket) :
    Judged buckets (some (Memory.storePeek now m buckets).2) where
  passed hguard hregistered := by
    rw [Memory.storePeek_snd hguard hregistered]
    exact ⟨_, rfl, List.length_map _⟩
  refused hguard := by
    unfold Memory.storePeek
    cases hfailed : guardBuckets buckets with
    | error e => exact ⟨e, rfl⟩
    | ok _ => exact absurd hfailed hguard

section Listing

abbrev Listed := Transcript CounterReply

/-- A store that answers every call, with whichever keys in a step. -/
structure AnswersListing {S : Type}
    (answer : S → (r : CounterReq) → S × Option (CounterReply r)) : Prop where
  scan : ∀ s pre cursor limit, 1 ≤ limit →
    ∃ keys next, (answer s (.scan pre cursor limit)).2 = some (.page keys next)
  peek : ∀ s buckets, Judged buckets (answer s (.peek buckets)).2

def keysOf : Exchange CounterReply → List Text
  | ⟨.scan _ _ _, some (.page keys _)⟩ => keys
  | _ => []

def keysIn (τ : Listed) : List Text := τ.flatMap keysOf

theorem keysIn_append (τ τ' : Listed) : keysIn (τ ++ τ') = keysIn τ ++ keysIn τ' :=
  List.flatMap_append

/-- A step of a page, which asks for at least one key. -/
def IsStep (x : Exchange CounterReply) : Prop :=
  ∃ pre cursor limit v, x = ⟨.scan pre cursor limit, v⟩ ∧ 1 ≤ limit

variable {S : Type} {answer : S → (r : CounterReq) → S × Option (CounterReply r)} {s : S}
  {l : Listing}

/-- A page holds what the steps returned and the selection admits. -/
structure PageOf (l : Listing) (out : Page) (τ : Listed) (p : Page) : Prop where
  candidates : p.candidates = out.candidates ++ (keysIn τ).filterMap l.admits
  scanned : p.scanned = out.scanned + (keysIn τ).length
  steps : ∀ x ∈ τ, IsStep x

/-- The page is no larger than asked for, and the walk within its budget. -/
structure PageFits (l : Listing) (p : Page) : Prop where
  scanned : p.scanned ≤ scanBudget
  candidates : (p.candidates.length : ℤ) ≤ l.pageSize

theorem PageFits.take {p : Page} {keys : List Text} (h : PageFits l p)
    (hkeys : keys.length ≤ (l.room p).toNat) : PageFits l (l.take p keys) := by
  have hadmitted := List.length_filterMap_le l.admits keys
  obtain ⟨hscanned, hcandidates⟩ := h
  unfold Listing.room at hkeys
  rw [take_eq]
  constructor
  · dsimp only
    omega
  · dsimp only
    rw [List.length_append]
    omega

/-- No step returns more keys than it was asked for. -/
def ShortSteps (answer : S → (r : CounterReq) → S × Option (CounterReply r)) : Prop :=
  ∀ s pre cursor limit keys next, (answer s (.scan pre cursor limit)).2 = some (.page keys next) →
    1 ≤ limit → keys.length ≤ limit.toNat

theorem selectFrom_yields (hanswers : AnswersListing answer) (left : ℕ) :
    ∀ {s : S} (next : Text) (out : Page), Yields answer s (l.selectFrom left next out) fun _ τ r =>
      τ.length ≤ left ∧ ∃ p, r = .ok p ∧ PageOf l out τ p ∧
        (ShortSteps answer → PageFits l out → PageFits l p) := by
  have hstopped : ∀ {s : S} {left : ℕ} (next : Text) (out : Page),
      Yields answer s (pure (Except.ok (out.stopped next)) : Lister (Except ScanFault Page))
        fun _ τ r => τ.length ≤ left ∧ ∃ p, r = .ok p ∧ PageOf l out τ p ∧
          (ShortSteps answer → PageFits l out → PageFits l p) := by
    intro s left next out
    refine ⟨Nat.zero_le _, _, rfl, ⟨?_, ?_, fun x hx => nomatch hx⟩, fun _ h => ⟨h.1, h.2⟩⟩
    · exact (List.append_nil _).symm
    · rfl
  induction left with
  | zero => exact fun next out => hstopped next out
  | succ left ih =>
    intro s next out
    unfold Listing.selectFrom
    rw [yields_ite]
    refine ⟨fun _ => hstopped next out, fun hroom => yields_ask.mpr ?_⟩
    have hlimit := one_le_room (Bool.eq_false_of_not_eq_true hroom)
    obtain ⟨keys, next', hpage⟩ := hanswers.scan s l.scanPrefix next (l.room out) hlimit
    have hstep : IsStep ⟨.scan l.scanPrefix next (l.room out), some (.page keys next')⟩ :=
      ⟨_, _, _, _, rfl, hlimit⟩
    have htaken : ShortSteps answer → PageFits l out → PageFits l (l.take out keys) :=
      fun hshort hout => hout.take (hshort _ _ _ _ _ _ hpage hlimit)
    rw [take_eq] at htaken
    rw [hpage]
    dsimp only
    rw [yields_ite, take_eq]
    constructor
    · intro _
      refine ⟨Nat.succ_le_succ (Nat.zero_le _), _, rfl, ⟨?_, ?_, ?_⟩, htaken⟩
      · simp [keysIn, keysOf]
      · simp [keysIn, keysOf]
      · simpa using hstep
    · intro _
      refine (ih next' _).mono ?_
      rintro s' τ r ⟨hlength, p, rfl, hp, hfits⟩
      refine ⟨Nat.succ_le_succ hlength, p, rfl, ⟨?_, ?_, ?_⟩, fun h hout => hfits h (htaken h hout)⟩
      · rw [hp.candidates]
        simp [keysIn, keysOf]
      · rw [hp.scanned]
        simp [keysIn, keysOf, Nat.add_assoc]
      · intro x hx
        rcases List.mem_cons.mp hx with rfl | hx
        · exact hstep
        · exact hp.steps x hx

def Peeks (τ : Listed) : Prop := ∀ x ∈ τ, ∃ buckets v, x = ⟨.peek buckets, v⟩

theorem Peeks.keysIn_eq {τ : Listed} (h : Peeks τ) : keysIn τ = [] := by
  refine List.flatMap_eq_nil_iff.mpr fun x hx => ?_
  obtain ⟨buckets, v, rfl⟩ := h x hx
  rfl

theorem views_sublist {limitedOnly : Bool} {candidates : List EnforcedCandidate}
    {verdicts : List Verdict} (hlength : verdicts.length = candidates.length) :
    ((views limitedOnly candidates verdicts).map CounterView.key).Sublist
      (candidates.map EnforcedCandidate.key) := by
  have hkeys : (views limitedOnly candidates verdicts).map CounterView.key =
      (((candidates.zip verdicts).filter fun p => !(limitedOnly && p.2.allowed)).map Prod.fst).map
        EnforcedCandidate.key := by
    rw [views, List.map_map, List.map_map]
    rfl
  rw [hkeys]
  refine List.Sublist.map _ ?_
  have hall : (candidates.zip verdicts).map Prod.fst = candidates := List.map_fst_zip hlength.ge
  conv_rhs => rw [← hall]
  exact List.filter_sublist.map _

/-- One peek judges the candidates, unless one of them is there twice. -/
theorem judge_yields (hanswers : AnswersListing answer) {candidates : List EnforcedCandidate}
    (hguarded : ∀ c ∈ candidates, Guarded c.bucket) (limitedOnly : Bool) :
    Yields answer s (judge candidates limitedOnly) fun _ τ r => Peeks τ ∧
      ((candidates.map EnforcedCandidate.key).Nodup → ∃ verdicts : List Verdict,
        verdicts.length = candidates.length ∧ r = .ok (views limitedOnly candidates verdicts)) ∧
      (¬(candidates.map EnforcedCandidate.key).Nodup → ∃ e, r = .error e) := by
  unfold judge
  rw [yields_ite]
  refine ⟨?_, fun _ => yields_ask.mpr ?_⟩
  · rintro rfl
    exact ⟨fun x hx => (nomatch hx), fun _ => ⟨[], rfl, rfl⟩,
      fun hrepeats => absurd List.nodup_nil hrepeats⟩
  · have hpeeks : ∀ v, Peeks [⟨.peek (candidates.map EnforcedCandidate.bucket), v⟩] :=
      fun v x hx => ⟨_, v, List.mem_singleton.mp hx⟩
    have hpeek := hanswers.peek s (candidates.map EnforcedCandidate.bucket)
    have hguard := guardBuckets_of_guarded (List.forall_mem_map.mpr hguarded)
    rw [List.map_map] at hguard
    change _ ↔ (candidates.map EnforcedCandidate.key).Nodup at hguard
    by_cases hnodup : (candidates.map EnforcedCandidate.key).Nodup
    · have hregistered : Memory.Registered (candidates.map EnforcedCandidate.bucket) :=
        List.forall_mem_map.mpr fun c _ => ⟨c.ref.rate.algorithm, rfl⟩
      obtain ⟨verdicts, hreply, hlength⟩ := hpeek.passed (hguard.mpr hnodup) hregistered
      rw [hreply]
      dsimp only
      rw [if_neg (not_not.mpr hlength)]
      rw [List.length_map] at hlength
      exact ⟨hpeeks _, fun _ => ⟨verdicts, hlength, rfl⟩, fun hrepeats => absurd hnodup hrepeats⟩
    · obtain ⟨e, hreply⟩ := hpeek.refused (mt hguard.mp hnodup)
      rw [hreply]
      exact ⟨hpeeks _, fun hdiffer => absurd hdiffer hnodup, fun _ => ⟨_, rfl⟩⟩

/-- The page came out, with no counter on it twice. -/
def ListsOnce (r : Except ApiError CounterList) : Prop :=
  ∃ list, r = .ok list ∧ (list.items.map CounterView.key).Nodup

theorem admitted_guarded (hsound : l.snapshot.Sound l.scope) (ks : List Text) :
    ∀ c ∈ ks.filterMap l.admits, Guarded c.bucket := by
  intro c hc
  obtain ⟨k, -, hk⟩ := List.mem_filterMap.mp hc
  exact admits_guarded hsound hk

def isScan : CounterReq → Bool
  | .scan _ _ _ => true
  | .peek _ => false

/-- The calls of a page, what its walk kept, and what came out. -/
structure PageRun (answer : S → (r : CounterReq) → S × Option (CounterReply r)) (l : Listing)
    (τ : Listed) (p : Page) (r : Except ApiError CounterList) : Prop where
  candidates : p.candidates = (keysIn τ).filterMap l.admits
  scanned : p.scanned = (keysIn τ).length
  steps : τ.countP (fun x => isScan x.1) ≤ maxScanSteps
  limits : ∀ pre cursor limit v, ⟨.scan pre cursor limit, v⟩ ∈ τ → 1 ≤ limit
  reported : ∀ list, r = .ok list → list.scanned = p.scanned
  once_iff : ListsOnce r ↔ (p.candidates.map EnforcedCandidate.key).Nodup
  fits : ShortSteps answer → 1 ≤ l.pageSize → PageFits l p

theorem listCounters_yields (std : Stdlib) (hanswers : AnswersListing answer)
    (hsound : l.snapshot.Sound l.scope) (start : Text) (now : ℤ) :
    Yields answer s (listCounters std l start now) fun _ τ r => ∃ p, PageRun answer l τ p r := by
  refine yields_bind.mpr ((selectFrom_yields hanswers _ start .empty).mono ?_)
  rintro s' τ _ ⟨hlength, p, rfl, hp, hfits⟩
  have hcandidates : p.candidates = (keysIn τ).filterMap l.admits := hp.candidates
  have hguarded : ∀ c ∈ p.candidates, Guarded c.bucket := hcandidates ▸ admitted_guarded hsound _
  dsimp only
  refine yields_bind.mpr ((judge_yields hanswers hguarded l.selector.limitedOnly).mono ?_)
  rintro s'' τ' r ⟨hpeeks, hpassed, hrefused⟩
  have hkeys : keysIn (τ ++ τ') = keysIn τ := by
    rw [keysIn_append, hpeeks.keysIn_eq, List.append_nil]
  have hsilent : τ'.countP (fun x => isScan x.1) = 0 := by
    refine List.countP_eq_zero.mpr fun x hx => ?_
    obtain ⟨buckets, v, rfl⟩ := hpeeks x hx
    exact Bool.false_ne_true
  have hrun : ∀ r : Except ApiError CounterList, (∀ list, r = .ok list → list.scanned = p.scanned) →
      (ListsOnce r ↔ (p.candidates.map EnforcedCandidate.key).Nodup) →
        PageRun answer l (τ ++ τ') p r := by
    intro r hreported honce
    refine ⟨hkeys ▸ hcandidates, hkeys ▸ hp.scanned.trans (Nat.zero_add _), ?_, ?_, hreported, honce,
      fun hshort hsize => hfits hshort ⟨Nat.zero_le _, ?_⟩⟩
    · rw [List.countP_append, hsilent]
      exact List.countP_le_length.trans hlength
    · intro pre cursor limit v hx
      rcases List.mem_append.mp hx with hx | hx
      · obtain ⟨pre', cursor', limit', v', heq, hlimit⟩ := hp.steps _ hx
        cases heq
        exact hlimit
      · obtain ⟨buckets, v', heq⟩ := hpeeks _ hx
        cases heq
    · change (0 : ℤ) ≤ l.pageSize
      omega
  by_cases hnodup : (p.candidates.map EnforcedCandidate.key).Nodup
  · obtain ⟨verdicts, hlength, rfl⟩ := hpassed hnodup
    have honce := (@views_sublist l.selector.limitedOnly _ _ hlength).nodup hnodup
    dsimp only
    rw [yields_ite, yields_pure, yields_pure, List.append_nil]
    constructor <;> intro _ <;> refine ⟨p, hrun _ ?_ (iff_of_true ⟨_, rfl, honce⟩ hnodup)⟩ <;>
      rintro list ⟨⟩ <;> rfl
  · obtain ⟨e, rfl⟩ := hrefused hnodup
    dsimp only
    rw [yields_pure, List.append_nil]
    exact ⟨p, hrun _ nofun (iff_of_false nofun hnodup)⟩

end Listing

end Ratelimit.Management
