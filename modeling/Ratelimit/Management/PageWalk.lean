import Ratelimit.Management.CounterPage
import Ratelimit.Store.Walk

/-!
# The walk of a page over the in-memory store

The in-memory store resumes a walk after any key, and its cursor is the last key of a
step. The steps of a page take the keys above its start in their order, no more of them
than the page has room for, whatever other calls find at the keys below.
-/
namespace Ratelimit.Management

open Library Store Memory

section Keeping

/-- The in-memory store under a listing: the call with this number reads the clock at
this time. -/
def asked (clock : ℕ → ℕ) (s : Entries × ℕ) :
    (r : CounterReq) → (Entries × ℕ) × Option (CounterReply r)
  | .scan pre cursor limit =>
    let scanned := storeScan (clock s.2) s.1 pre cursor limit
    ((scanned.1, s.2 + 1), scanned.2.toOption.map fun step => .page step.1 step.2)
  | .peek buckets =>
    let peeked := storePeek (clock s.2) s.1 buckets
    ((peeked.1, s.2 + 1), some peeked.2)

/-- Above the cursor the store still holds what it held, whenever one looks. -/
def Keeps (clock : ℕ → ℕ) (m₀ : Entries) (cursor : Text) (m : Entries) : Prop :=
  ∀ i k, cursor < k → live (clock i) m k = live (clock 0) m₀ k

variable {clock : ℕ → ℕ} {m₀ m : Entries} {s : Entries × ℕ} {pre cursor cursor' : Text} {limit : ℤ}
  {i : ℕ}

theorem asked_scan (hlimit : 1 ≤ limit) : ∃ page next,
    (asked clock s (.scan pre cursor limit)).2 = some (.page page next) ∧
      ScanStep (clock s.2) s.1 pre cursor limit page next := by
  obtain ⟨page, next, hscan, hstep⟩ := @storeScan_step (clock s.2) s.1 pre cursor limit hlimit
  refine ⟨page, next, ?_, hstep⟩
  dsimp only [asked]
  rw [hscan]
  rfl

theorem asked_answers (clock : ℕ → ℕ) : AnswersListing (asked clock) where
  scan s pre cursor limit hlimit := by
    obtain ⟨page, next, hscan, -⟩ := @asked_scan clock s pre cursor limit hlimit
    exact ⟨page, next, hscan⟩
  peek s buckets := judged_storePeek _ _ _

theorem asked_short (clock : ℕ → ℕ) : ShortSteps (asked clock) := by
  intro s pre cursor limit keys next hpage hlimit
  obtain ⟨page, next', hscan, hstep⟩ := @asked_scan clock s pre cursor limit hlimit
  obtain ⟨rfl, rfl⟩ : page = keys ∧ next' = next := by simpa [hscan] using hpage
  exact hstep.length_le

theorem Keeps.later (h : Keeps clock m₀ cursor m) (hle : cursor ≤ cursor') :
    Keeps clock m₀ cursor' m :=
  fun i k hk => h i k (lt_of_le_of_lt hle hk)

theorem Keeps.above_eq (h : Keeps clock m₀ cursor m) (i : ℕ) :
    above (clock i) m pre cursor = above (clock 0) m₀ pre cursor :=
  above_of_live fun k hk _ => by rw [h i k hk]

theorem Keeps.scan (h : Keeps clock m₀ cursor m) :
    Keeps clock m₀ cursor (storeScan (clock i) m pre cursor' limit).1 := by
  intro j k hk
  rw [storeScan_fst]
  split_ifs
  · exact h j k hk
  · rw [live, lookup_sweepExpired, h i k hk, ← h j k hk, ← live_later le_rfl]

theorem Keeps.peek {bs : List Bucket} (h : Keeps clock m₀ cursor m)
    (hbs : ∀ b ∈ bs, b.key ≤ cursor) : Keeps clock m₀ cursor (storePeek (clock i) m bs).1 := by
  intro j k hk
  have hother : k ∉ bs.map Bucket.key := by
    intro hmem
    obtain ⟨b, hb, rfl⟩ := List.mem_map.mp hmem
    exact absurd hk (not_lt.mpr (hbs b hb))
  rw [live_of_lookup (lookup_storePeek_of_not_mem hother)]
  exact h j k hk

theorem Keeps.outcome_eq {b : Bucket} (h : Keeps clock m₀ cursor m) (h₀ : Keeps clock m₀ [] m₀)
    (hb : cursor < b.key) : outcome (clock i) m b = outcome (clock i) m₀ b := by
  have hpositive : ([] : Text) < b.key := lt_of_le_of_lt (not_lt.mp (List.not_lt_nil _)) hb
  have hheld : held (clock i) m b = held (clock i) m₀ b := by
    rw [held, held, h i b.key hb, ← h₀ i b.key hpositive]
  rw [outcome, outcome, hheld]

end Keeping

section Walking

variable {clock : ℕ → ℕ} {m₀ : Entries} {s : Entries × ℕ} {l : Listing}

/-- What the steps of a page took of the keys above its start, and where it stopped. -/
structure TakenFrom (keys : Text → List Text) (start : Text) (taken : List Text) (p : Page) :
    Prop where
  last : p.more = false → keys start = taken
  onward : p.more = true → keys start = taken ++ keys p.resume
  le_resume : p.more = true → ∀ k ∈ taken, k ≤ p.resume

/-- A page stops at the last key it took or, if it was full, where it started. -/
def StepsFrom (l : Listing) (clock : ℕ → ℕ) (m₀ : Entries) (base start : Text) (full : Bool)
    (s' : Entries × ℕ) (τ : Listed) (r : Except ScanFault Page) : Prop :=
  Keeps clock m₀ base s'.1 ∧
    ∀ p, r = .ok p → TakenFrom (above (clock 0) m₀ l.scanPrefix) start (keysIn τ) p ∧
      (p.more = true → p.resume ∈ keysIn τ ∨ p.resume = start ∧ full = true)

theorem stopped_takes {base start : Text} {out : Page} {full : Bool}
    (hkeeps : Keeps clock m₀ base s.1) (hfull : full = true) :
    Yields (asked clock) s (pure (.ok (out.stopped start)) : Lister (Except ScanFault Page))
      (StepsFrom l clock m₀ base start full) := by
  refine ⟨hkeeps, fun p hp => ?_⟩
  obtain rfl := Except.ok.inj hp
  refine ⟨⟨fun hmore => ?_, fun _ => rfl, fun _ k hk => ?_⟩, fun _ => Or.inr ⟨rfl, hfull⟩⟩
  · cases hmore
  · cases hk

/-- The steps of a page take the keys above its start in their order. -/
theorem selectFrom_takes (left : ℕ) : ∀ {s : Entries × ℕ} {base : Text} (start : Text) (out : Page),
    out.more = false → base ≤ start → Keeps clock m₀ base s.1 →
    Yields (asked clock) s (l.selectFrom left start out)
      (StepsFrom l clock m₀ base start (l.full out (maxScanSteps - left))) := by
  induction left with
  | zero =>
    intro s base start out _ _ hkeeps
    exact stopped_takes hkeeps (by simp [Listing.full])
  | succ left ih =>
    intro s base start out hmore hbase hkeeps
    unfold Listing.selectFrom
    rw [yields_ite]
    refine ⟨stopped_takes hkeeps, fun hroom => yields_ask.mpr ?_⟩
    obtain ⟨keys, next, hscan, hstep⟩ := @asked_scan clock s l.scanPrefix start _
      (one_le_room (Bool.eq_false_of_not_eq_true hroom))
    have hscanned : Keeps clock m₀ base
        (asked clock s (.scan l.scanPrefix start (l.room out))).1.1 := hkeeps.scan
    have hstart := hkeeps.later hbase
    rw [hscan]
    dsimp only
    rw [yields_ite, take_eq]
    constructor
    · rintro rfl
      refine ⟨hscanned, fun p hp => ?_⟩
      obtain rfl := Except.ok.inj hp
      have hlast : above (clock 0) m₀ l.scanPrefix start = keys :=
        (hstart.above_eq s.2).symm.trans (hstep.last rfl)
      refine ⟨⟨fun _ => ?_, fun h => ?_, fun h => ?_⟩, fun h => ?_⟩
      · rw [hlast]
        simp [keysIn, keysOf]
      all_goals
        rw [show out.more = true from h] at hmore
        cases hmore
    · intro hnext
      have hmem := hstep.next_mem hnext
      have honward := hstep.onward hnext
      have hless : start < next := by
        refine (mem_above.mp (?_ : next ∈ above (clock s.2) s.1 l.scanPrefix start)).2.1
        rw [honward]
        exact List.mem_append_left _ hmem
      have hsplit : above (clock 0) m₀ l.scanPrefix start =
          keys ++ above (clock 0) m₀ l.scanPrefix next := by
        rw [← hstart.above_eq s.2, ← (hstart.later hless.le).above_eq s.2]
        exact honward
      have hrest : ({ out with
          scanned := out.scanned + keys.length
          candidates := out.candidates ++ keys.filterMap l.admits } : Page).more = false := hmore
      refine (ih next _ hrest (hbase.trans hless.le) hscanned).mono ?_
      rintro s' τ r ⟨hkept, hpage⟩
      refine ⟨hkept, fun p hp => ?_⟩
      obtain ⟨htaken, hresume⟩ := hpage p hp
      have hkeys : keysIn (⟨.scan l.scanPrefix start (l.room out), some (.page keys next)⟩ :: τ) =
          keys ++ keysIn τ := rfl
      have hstops : p.more = true → next ≤ p.resume ∧ (p.resume ∈ keysIn τ ∨ p.resume = next) := by
        intro hp
        rcases hresume hp with hin | ⟨heq, -⟩
        · have habove : p.resume ∈ above (clock 0) m₀ l.scanPrefix next := by
            rw [htaken.onward hp]
            exact List.mem_append_left _ hin
          exact ⟨(mem_above.mp habove).2.1.le, Or.inl hin⟩
        · exact ⟨heq.ge, Or.inr heq⟩
      rw [hkeys]
      refine ⟨⟨fun hp => ?_, fun hp => ?_, fun hp k hk => ?_⟩, fun hp => Or.inl ?_⟩
      · rw [hsplit, htaken.last hp]
      · rw [hsplit, htaken.onward hp, List.append_assoc]
      · rcases List.mem_append.mp hk with hk | hk
        · exact (hstep.le_next hnext k hk).trans (hstops hp).1
        · exact htaken.le_resume hp k hk
      · rcases (hstops hp).2 with hin | heq
        · exact List.mem_append_right _ hin
        · exact List.mem_append_left _ (heq ▸ hmem)

end Walking

end Ratelimit.Management
