import Ratelimit.Store.Memory

/-!
# What each call of the in-memory store does

One statement for each function: the entry a bucket is judged on, the outcomes
of a whole list, the verdicts of a call, and what a call leaves under a key.
Later modules use these and do not open the functions again.
-/
namespace Ratelimit.Memory

open Algo Store

section Evaluation

variable {now period : ℤ} {m m' : Entries} {b : Bucket} {bs : List Bucket} {k : Text}

/-- The entry a bucket is judged on: live, and written by its own algorithm. -/
def held (now : ℤ) (m : Entries) (b : Bucket) : Option Entry :=
  (live now m b.key).filter fun e => e.algorithm = b.algorithm

def Registered (bs : List Bucket) : Prop := ∀ b ∈ bs, ∃ a : Algorithm, b.algorithm = a.id

/-- What a bucket of a registered algorithm evaluates to. -/
def outcome (now : ℤ) (m : Entries) (b : Bucket) : Outcome :=
  if b.algorithm = .gcraID then evalGCRA (held now m b) now b.window b.cost
  else evalFixed (held now m b) now b.window b.cost

theorem windowStart_eq {now : ℕ} : windowStart now period = period * (now / period) := by
  unfold windowStart
  rw [Int.tmod_eq_emod_of_nonneg (by omega)]
  have := Int.mul_ediv_add_emod now period
  omega

theorem windowStart_nonneg {now : ℕ} (hp : 1 ≤ period) : 0 ≤ windowStart now period := by
  rw [windowStart_eq]
  exact mul_nonneg (by omega) (Int.ediv_nonneg (by omega) (by omega))

theorem windowStart_le {now : ℕ} (hp : 1 ≤ period) : windowStart now period ≤ now := by
  unfold windowStart
  rw [Int.tmod_eq_emod_of_nonneg (by omega)]
  have := Int.emod_nonneg now (by omega : period ≠ 0)
  omega

theorem lt_windowStart_add {now : ℕ} (hp : 1 ≤ period) :
    (now : ℤ) < windowStart now period + period := by
  unfold windowStart
  rw [Int.tmod_eq_emod_of_nonneg (by omega)]
  have := Int.emod_lt_of_pos now (by omega : 0 < period)
  omega

theorem windowStart_mono {now now' : ℕ} (hp : 1 ≤ period) (hle : now ≤ now') :
    windowStart now period ≤ windowStart now' period := by
  rw [windowStart_eq, windowStart_eq]
  apply mul_le_mul_of_nonneg_left _ (by omega)
  exact Int.ediv_le_ediv (by omega) (by exact_mod_cast hle)

/-- The clock is still in the same window, or the next one has begun. -/
theorem windowStart_cases {t t' : ℕ} (hp : 1 ≤ period) (hle : t ≤ t') :
    (windowStart t' period = windowStart t period ∧ (t' : ℤ) < windowStart t period + period) ∨
      windowStart t period + period ≤ windowStart t' period := by
  have hdiv : (t : ℤ) / period ≤ (t' : ℤ) / period :=
    Int.ediv_le_ediv (by omega) (by exact_mod_cast hle)
  rcases hdiv.eq_or_lt with hsame | hnext
  · left
    have hstart : windowStart t' period = windowStart t period := by
      rw [windowStart_eq, windowStart_eq, hsame]
    exact ⟨hstart, hstart ▸ lt_windowStart_add hp⟩
  · right
    rw [windowStart_eq, windowStart_eq]
    have hmul := mul_le_mul_of_nonneg_left (Int.add_one_le_of_lt hnext) (by omega : 0 ≤ period)
    linarith

theorem nonNegative_tdiv {x d : ℤ} (hd : 0 < d) :
    nonNegative (x.tdiv d) = if x / d < 0 then 0 else x / d := by
  unfold nonNegative
  by_cases hx : 0 ≤ x
  · rw [Int.tdiv_eq_ediv_of_nonneg hx]
  · have hneg : x / d < 0 := Int.ediv_neg_of_neg_of_pos (by omega) hd
    have hle : x.tdiv d ≤ 0 := by
      rw [← neg_neg x, Int.neg_tdiv, Int.tdiv_eq_ediv_of_nonneg (by omega)]
      have := Int.ediv_nonneg (by omega : 0 ≤ -x) (le_of_lt hd)
      omega
    rw [if_pos hneg]
    split_ifs <;> omega

theorem le_arrival (e : Option Entry) (now : ℤ) : now ≤ arrival e now := by
  unfold arrival
  cases e with
  | none => exact le_rfl
  | some e =>
    dsimp only
    split_ifs <;> omega

theorem counted_eq_zero {e : Option Entry} {start : ℤ} (h : ∀ x, e = some x → x.start ≠ start) :
    counted e start = 0 := by
  cases e with
  | none => rfl
  | some x => exact if_neg (h x rfl)

theorem outcome_of_gcra (h : b.algorithm = .gcraID) :
    outcome now m b = evalGCRA (held now m b) now b.window b.cost := if_pos h

theorem outcome_of_fixedWindow (h : b.algorithm = .fixedWindowID) :
    outcome now m b = evalFixed (held now m b) now b.window b.cost := by
  simp [outcome, h]

theorem evalGCRA_allowed_iff {e : Option Entry} {w : Window} {cost : ℤ} :
    (evalGCRA e now w cost).allowed = true ↔
      cost ≤ w.burst ∧ arrival e now + emissionMicros w * cost - tauMicros w ≤ now := by
  by_cases hburst : w.burst < cost
  · simp only [evalGCRA, if_pos hburst, Bool.false_eq_true, false_iff]
    omega
  · simp only [evalGCRA, if_neg hburst, decide_eq_true_eq]
    omega

theorem evalGCRA_next {e : Option Entry} {w : Window} {cost : ℤ} (h : cost ≤ w.burst) :
    (evalGCRA e now w cost).next =
      ⟨.gcraID, arrival e now + emissionMicros w * cost, 0, 0,
        arrival e now + emissionMicros w * cost⟩ := by
  simp [evalGCRA, if_neg (not_lt.mpr h)]

theorem evalFixed_allowed_iff {e : Option Entry} {w : Window} {cost : ℤ} :
    (evalFixed e now w cost).allowed = true ↔
      cost ≤ max (w.requests - counted e (windowStart now (periodMicros w))) 0 := by
  simp only [evalFixed, decide_eq_true_eq]

theorem outcome_next_algorithm {a : Algorithm} (ha : b.algorithm = a.id)
    (h : (outcome now m b).allowed = true) : (outcome now m b).next.algorithm = b.algorithm := by
  cases a with
  | gcra =>
    rw [outcome_of_gcra ha] at h ⊢
    rw [evalGCRA_next (evalGCRA_allowed_iff.mp h).1]
    exact ha.symm
  | fixedWindow =>
    rw [outcome_of_fixedWindow ha]
    exact ha.symm

theorem held_eq_some_iff {e : Entry} :
    held now m b = some e ↔
      m.lookup b.key = some e ∧ now < e.deadline ∧ e.algorithm = b.algorithm := by
  simp [held, live, Option.filter_eq_some_iff]

theorem held_of_lookup_held {now' : ℤ} (hle : now ≤ now') (h : m'.lookup b.key = held now m b) :
    held now' m' b = held now' m b := by
  apply Option.ext
  intro e
  rw [held_eq_some_iff, held_eq_some_iff, h, held_eq_some_iff]
  constructor
  · rintro ⟨⟨hlookup, -, -⟩, hlive, halg⟩
    exact ⟨hlookup, hlive, halg⟩
  · rintro ⟨hlookup, hlive, halg⟩
    exact ⟨⟨hlookup, hle.trans_lt hlive, halg⟩, hlive, halg⟩

theorem outcome_of_held (h : held now m' b = held now m b) :
    outcome now m' b = outcome now m b := by
  unfold outcome
  rw [h]

theorem fetch_snd : (fetch now m b).2 = held now m b := by
  unfold fetch held live
  cases hl : m.lookup b.key with
  | none => rfl
  | some e =>
    by_cases hdead : e.deadline ≤ now
    · simp [hdead, not_lt.mpr hdead, Option.filter]
    · by_cases halg : e.algorithm = b.algorithm
      · simp [hdead, halg, not_le.mp hdead, Option.filter]
      · simp [hdead, halg, not_le.mp hdead, Option.filter]

theorem lookup_fetch_self : (fetch now m b).1.lookup b.key = held now m b := by
  rw [← fetch_snd]
  unfold fetch
  cases hl : m.lookup b.key with
  | none => simpa using hl
  | some e => by_cases hdrop : e.deadline ≤ now ∨ e.algorithm ≠ b.algorithm <;> simp [hdrop, hl]

theorem lookup_fetch_of_ne (hk : k ≠ b.key) : (fetch now m b).1.lookup k = m.lookup k := by
  unfold fetch
  cases hl : m.lookup b.key with
  | none => rfl
  | some e =>
    by_cases hdrop : e.deadline ≤ now ∨ e.algorithm ≠ b.algorithm
    · simp [hdrop, Finmap.lookup_erase_ne hk]
    · simp [hdrop]

theorem outcome_congr (h : m.lookup b.key = m'.lookup b.key) :
    outcome now m b = outcome now m' b := by
  simp [outcome, held, live, h]

theorem evalBucket_held {a : Algorithm} (h : b.algorithm = a.id) :
    evalBucket now (held now m b) b = .ok (outcome now m b) := by
  unfold evalBucket outcome
  rw [h]
  cases a <;> simp [Algorithm.id]

@[simp] theorem evalAll_cons (b : Bucket) (bs : List Bucket) :
    evalAll now m (b :: bs) =
      match evalBucket now (fetch now m b).2 b with
      | .error msg => ((fetch now m b).1, .error msg)
      | .ok o => ((evalAll now (fetch now m b).1 bs).1,
          (evalAll now (fetch now m b).1 bs).2.map (o :: ·)) :=
  rfl

theorem evalAll_snd (hnd : (bs.map Bucket.key).Nodup) (hreg : Registered bs) :
    (evalAll now m bs).2 = .ok (bs.map (outcome now m)) := by
  induction bs generalizing m with
  | nil => rfl
  | cons b bs ih =>
    obtain ⟨hb, hnd⟩ := List.nodup_cons.mp hnd
    obtain ⟨a, ha⟩ := hreg b List.mem_cons_self
    have hrest := ih (m := (fetch now m b).1) hnd fun c hc => hreg c (List.mem_cons_of_mem _ hc)
    have hsame : bs.map (outcome now (fetch now m b).1) = bs.map (outcome now m) := by
      apply List.map_congr_left
      intro c hc
      apply outcome_congr
      apply lookup_fetch_of_ne
      intro he
      exact hb (he ▸ List.mem_map_of_mem hc)
    simp [fetch_snd, evalBucket_held ha, hrest, hsame, Except.map]

theorem lookup_evalAll_of_not_mem (hk : k ∉ bs.map Bucket.key) :
    (evalAll now m bs).1.lookup k = m.lookup k := by
  induction bs generalizing m with
  | nil => rfl
  | cons b bs ih =>
    simp only [List.map_cons, List.mem_cons, not_or] at hk
    cases he : evalBucket now (fetch now m b).2 b with
    | error msg => simpa [he] using lookup_fetch_of_ne hk.1
    | ok o => simpa [he, lookup_fetch_of_ne hk.1] using ih (m := (fetch now m b).1) hk.2

theorem lookup_evalAll_of_mem (hnd : (bs.map Bucket.key).Nodup) (hreg : Registered bs)
    (hb : b ∈ bs) : (evalAll now m bs).1.lookup b.key = held now m b := by
  induction bs generalizing m with
  | nil => simp at hb
  | cons c bs ih =>
    obtain ⟨hc, hnd⟩ := List.nodup_cons.mp hnd
    obtain ⟨a, ha⟩ := hreg c List.mem_cons_self
    simp only [evalAll_cons, fetch_snd, evalBucket_held ha]
    rcases List.mem_cons.mp hb with rfl | hb
    · rw [lookup_evalAll_of_not_mem hc, lookup_fetch_self]
    · have hne : b.key ≠ c.key := fun he => hc (he ▸ List.mem_map_of_mem hb)
      rw [ih hnd (fun d hd => hreg d (List.mem_cons_of_mem _ hd)) hb]
      simp [held, live, lookup_fetch_of_ne hne]

end Evaluation

section Commit

variable {now : ℕ} {admitting : Bool} {m : Entries} {b : Bucket} {bs : List Bucket} {k : Text}
variable {pairs : List (Bucket × Outcome)}

/-- The verdict of an outcome, depending on whether the decision commits it. -/
def answered (admitting : Bool) (o : Outcome) : Verdict :=
  if admitting && o.allowed then chargedVerdict o else currentVerdict o

theorem answered_allowed (admitting : Bool) (o : Outcome) :
    (answered admitting o).allowed = o.allowed := by
  unfold answered
  split_ifs with h
  · simp only [Bool.and_eq_true] at h
    exact h.2.symm
  · rfl

@[simp] theorem commit_cons (p : Bucket × Outcome) : commit admitting m (p :: pairs) =
    if admitting && p.2.allowed then
      ((commit admitting (m.insert p.1.key p.2.next) pairs).1,
        chargedVerdict p.2 :: (commit admitting (m.insert p.1.key p.2.next) pairs).2)
    else ((commit admitting m pairs).1, currentVerdict p.2 :: (commit admitting m pairs).2) :=
  rfl

theorem commit_snd : (commit admitting m pairs).2 = pairs.map fun p => answered admitting p.2 := by
  induction pairs generalizing m with
  | nil => rfl
  | cons p rest ih =>
    rw [commit_cons, List.map_cons, answered]
    split_ifs <;> simp [ih]

theorem lookup_commit_of_not_mem (hk : k ∉ pairs.map fun p => p.1.key) :
    (commit admitting m pairs).1.lookup k = m.lookup k := by
  induction pairs generalizing m with
  | nil => rfl
  | cons p rest ih =>
    simp only [List.map_cons, List.mem_cons, not_or] at hk
    by_cases h : (admitting && p.2.allowed) = true
    · simp [h, ih hk.2, Finmap.lookup_insert_of_ne _ hk.1]
    · simp [h, ih hk.2]

theorem lookup_commit_of_mem {o : Outcome} (hnd : (pairs.map fun p => p.1.key).Nodup)
    (hp : (b, o) ∈ pairs) :
    (commit admitting m pairs).1.lookup b.key =
      if admitting && o.allowed then some o.next else m.lookup b.key := by
  induction pairs generalizing m with
  | nil => simp at hp
  | cons p rest ih =>
    obtain ⟨hhead, hnd⟩ := List.nodup_cons.mp hnd
    rcases List.mem_cons.mp hp with rfl | hp
    · by_cases h : (admitting && o.allowed) = true
      · simp [h, lookup_commit_of_not_mem hhead]
      · simp [h, lookup_commit_of_not_mem hhead]
    · have hne : b.key ≠ p.1.key := by
        intro he
        exact hhead (List.mem_map.mpr ⟨(b, o), hp, he⟩)
      by_cases h : (admitting && p.2.allowed) = true
      · simp [h, ih hnd hp, Finmap.lookup_insert_of_ne _ hne]
      · simp [h, ih hnd hp]

def admits (now : ℤ) (m : Entries) (bs : List Bucket) : Bool :=
  bs.all fun b => b.shadow || (outcome now m b).allowed

theorem zip_outcomes {β : Type*} (f : Bucket → β) :
    bs.zip (bs.map f) = bs.map fun b => (b, f b) := by
  induction bs with
  | nil => rfl
  | cons b bs ih => simp [ih]

theorem admitted_answered {admitting : Bool} :
    admitted bs (bs.map fun b => answered admitting (outcome now m b)) = admits now m bs := by
  simp [admitted, admits, zip_outcomes, Function.comp_def, answered_allowed]

theorem commit_false {pairs : List (Bucket × Outcome)} : (commit false m pairs).1 = m := by
  induction pairs with
  | nil => rfl
  | cons p rest ih => simpa using ih

theorem storeDecide_eq (hg : guardBuckets bs = .ok ()) (hreg : Registered bs) :
    storeDecide now m bs =
      let done := commit (admits now m bs) (evalAll now m bs).1
        (bs.map fun b => (b, outcome now m b))
      (done.1, .ok done.2) := by
  have hnd := (guardBuckets_ok_iff.mp hg).2
  simp [storeDecide, hg, evalAll_snd hnd hreg, zip_outcomes, admits, List.all_map,
    Function.comp_def]

theorem storeDecide_snd (hg : guardBuckets bs = .ok ()) (hreg : Registered bs) :
    (storeDecide now m bs).2 =
      .ok (bs.map fun b => answered (admits now m bs) (outcome now m b)) := by
  simp [storeDecide_eq hg hreg, commit_snd]

theorem lookup_storeDecide_of_mem (hg : guardBuckets bs = .ok ()) (hreg : Registered bs)
    (hb : b ∈ bs) :
    (storeDecide now m bs).1.lookup b.key =
      if admits now m bs && (outcome now m b).allowed then some (outcome now m b).next
      else held now m b := by
  have hnd := (guardBuckets_ok_iff.mp hg).2
  have hpair : (b, outcome now m b) ∈ bs.map fun b => (b, outcome now m b) :=
    List.mem_map_of_mem (f := fun b => (b, outcome now m b)) hb
  rw [storeDecide_eq hg hreg]
  simp only
  rw [lookup_commit_of_mem (by simpa [Function.comp_def] using hnd) hpair,
    lookup_evalAll_of_mem hnd hreg hb]

theorem lookup_storeDecide_of_not_mem (hk : k ∉ bs.map Bucket.key) :
    (storeDecide now m bs).1.lookup k = m.lookup k := by
  unfold storeDecide
  cases guardBuckets bs with
  | error msg => rfl
  | ok u =>
    cases hout : (evalAll now m bs).2 with
    | error msg => simpa [hout] using lookup_evalAll_of_not_mem hk
    | ok outs =>
      have hsub : k ∉ (bs.zip outs).map fun p => p.1.key := by
        intro hm
        obtain ⟨p, hp, rfl⟩ := List.mem_map.mp hm
        exact hk (List.mem_map_of_mem (List.of_mem_zip hp).1)
      simp [hout, lookup_commit_of_not_mem hsub, lookup_evalAll_of_not_mem hk]

theorem storePeek_snd (hg : guardBuckets bs = .ok ()) (hreg : Registered bs) :
    (storePeek now m bs).2 = .ok (bs.map fun b => currentVerdict (outcome now m b)) := by
  have hnd := (guardBuckets_ok_iff.mp hg).2
  simp [storePeek, hg, evalAll_snd hnd hreg, Except.map, Function.comp_def]

theorem lookup_storeReset {ks : List Text} :
    (storeReset m ks).lookup k = if k ∈ ks then none else m.lookup k := by
  have h := Library.lookup_foldl_erase (k := k) (fun _ => true) ks m
  simpa [storeReset] using h

end Commit

section Effects

variable {now : ℕ} {m : Entries} {b : Bucket} {bs : List Bucket} {k : Text}

structure Charges (now : ℕ) (m : Entries) (bs : List Bucket) (b : Bucket) : Prop where
  guard : guardBuckets bs = .ok ()
  registered : Registered bs
  mem : b ∈ bs
  admitted : admits now m bs = true
  allowed : (outcome now m b).allowed = true

theorem Charges.alone (h : Charges now m bs b) : Charges now m [b] b where
  guard := by
    have hb := (guardBuckets_ok_iff.mp h.guard).1 b h.mem
    exact guardBuckets_ok_iff.mpr ⟨by simpa using hb, by simp⟩
  registered := by
    intro c hc
    rw [List.mem_singleton.mp hc]
    exact h.registered b h.mem
  mem := List.mem_singleton_self b
  admitted := by simp [admits, h.allowed]
  allowed := h.allowed

theorem Charges.lookup_eq (h : Charges now m bs b) :
    (storeDecide now m bs).1.lookup b.key = some (outcome now m b).next := by
  rw [lookup_storeDecide_of_mem h.guard h.registered h.mem, h.admitted, h.allowed]
  rfl

theorem evalAll_snd_of_not_registered (now : ℤ) (h : ¬Registered bs) :
    ∃ msg, (evalAll now m bs).2 = .error msg := by
  induction bs generalizing m with
  | nil => exact absurd (fun b hb => absurd hb List.not_mem_nil) h
  | cons b bs ih =>
    cases hb : evalBucket now (fetch now m b).2 b with
    | error msg => exact ⟨msg, by simp [hb]⟩
    | ok o =>
      have hrest : ¬Registered bs := by
        intro hreg
        apply h
        refine List.forall_mem_cons.mpr ⟨?_, hreg⟩
        cases halg : b.algorithm with
        | gcraID => exact ⟨.gcra, rfl⟩
        | fixedWindowID => exact ⟨.fixedWindow, rfl⟩
        | unregistered code free => simp [evalBucket, halg] at hb
      obtain ⟨msg, hmsg⟩ := ih (m := (fetch now m b).1) hrest
      exact ⟨msg, by simp [hb, hmsg, Except.map]⟩

/-- A decision that answers with verdicts passed the guard and met no unknown algorithm. -/
theorem storeDecide_ok {vs : List Verdict} (h : (storeDecide now m bs).2 = .ok vs) :
    guardBuckets bs = .ok () ∧ Registered bs ∧
      vs = bs.map fun b => answered (admits now m bs) (outcome now m b) := by
  cases hg : guardBuckets bs with
  | error msg => simp [storeDecide, hg] at h
  | ok u =>
    have hreg : Registered bs := by
      by_contra hreg
      obtain ⟨msg, hmsg⟩ := evalAll_snd_of_not_registered (m := m) now hreg
      simp [storeDecide, hg, hmsg] at h
    exact ⟨rfl, hreg, Except.ok.inj (h.symm.trans (storeDecide_snd hg hreg))⟩

theorem storePeek_ok {vs : List Verdict} (h : (storePeek now m bs).2 = .ok vs) :
    guardBuckets bs = .ok () ∧ Registered bs ∧
      vs = bs.map fun b => currentVerdict (outcome now m b) := by
  cases hg : guardBuckets bs with
  | error msg => simp [storePeek, hg] at h
  | ok u =>
    have hreg : Registered bs := by
      by_contra hreg
      obtain ⟨msg, hmsg⟩ := evalAll_snd_of_not_registered (m := m) now hreg
      simp [storePeek, hg, hmsg, Except.map] at h
    exact ⟨rfl, hreg, Except.ok.inj (h.symm.trans (storePeek_snd hg hreg))⟩

theorem held_cases {now : ℤ} : held now m b = m.lookup b.key ∨ held now m b = none := by
  unfold held live
  cases m.lookup b.key with
  | none => exact Or.inl rfl
  | some e =>
    by_cases hkeep : now < e.deadline ∧ e.algorithm = b.algorithm
    · left
      simp [Option.filter, hkeep]
    · right
      by_cases hlive : now < e.deadline
      · have halg : e.algorithm ≠ b.algorithm := fun h => hkeep ⟨hlive, h⟩
        simp [Option.filter, hlive, halg]
      · simp [Option.filter, hlive]

theorem lookup_evalAll_cases {now : ℤ} :
    (evalAll now m bs).1.lookup k = m.lookup k ∨ (evalAll now m bs).1.lookup k = none := by
  induction bs generalizing m with
  | nil => exact Or.inl rfl
  | cons b bs ih =>
    have hfetch : (fetch now m b).1.lookup k = m.lookup k ∨ (fetch now m b).1.lookup k = none := by
      by_cases hk : k = b.key
      · subst hk
        rw [lookup_fetch_self]
        exact held_cases
      · exact Or.inl (lookup_fetch_of_ne hk)
    cases hb : evalBucket now (fetch now m b).2 b with
    | error msg => simpa [hb] using hfetch
    | ok o =>
      simp only [evalAll_cons, hb]
      rcases ih (m := (fetch now m b).1) with h | h
      · rw [h]
        exact hfetch
      · exact Or.inr h

/-- What a decision can do to a key: nothing, drop its entry, or charge it. -/
theorem lookup_storeDecide_cases :
    (storeDecide now m bs).1.lookup k = m.lookup k ∨
      (storeDecide now m bs).1.lookup k = none ∨
      ∃ b, Charges now m bs b ∧ b.key = k ∧
        (storeDecide now m bs).1.lookup k = some (outcome now m b).next := by
  cases hg : guardBuckets bs with
  | error msg => exact Or.inl (by simp [storeDecide, hg])
  | ok u =>
    by_cases hreg : Registered bs
    · by_cases hk : k ∈ bs.map Bucket.key
      · obtain ⟨b, hb, rfl⟩ := List.mem_map.mp hk
        rw [lookup_storeDecide_of_mem hg hreg hb]
        split_ifs with hcommit
        · obtain ⟨hgranted, hallow⟩ := Bool.and_eq_true_iff.mp hcommit
          exact Or.inr (Or.inr ⟨b, ⟨hg, hreg, hb, hgranted, hallow⟩, rfl, rfl⟩)
        · exact held_cases.imp_right Or.inl
      · exact Or.inl (lookup_storeDecide_of_not_mem hk)
    · obtain ⟨msg, hmsg⟩ := evalAll_snd_of_not_registered (m := m) now hreg
      have hstate : (storeDecide now m bs).1 = (evalAll now m bs).1 := by
        simp [storeDecide, hg, hmsg]
      rw [hstate]
      exact lookup_evalAll_cases.imp_right Or.inl

theorem lookup_storePeek_cases :
    (storePeek now m bs).1.lookup k = m.lookup k ∨ (storePeek now m bs).1.lookup k = none := by
  unfold storePeek
  cases guardBuckets bs with
  | error msg => exact Or.inl rfl
  | ok u => exact lookup_evalAll_cases

theorem storeCall_ok {c : Call} {vs : List Verdict} (h : (storeCall m c).2 = .ok vs) :
    guardBuckets c.op.buckets = .ok () ∧ Registered c.op.buckets ∧
      ∃ admitting, vs = c.op.buckets.map fun b => answered admitting (outcome c.now m b) := by
  obtain ⟨now, op⟩ := c
  cases op with
  | decide bs =>
    obtain ⟨hguard, hreg, hvs⟩ := storeDecide_ok h
    exact ⟨hguard, hreg, _, hvs⟩
  | peek bs =>
    obtain ⟨hguard, hreg, hvs⟩ := storePeek_ok h
    exact ⟨hguard, hreg, false, hvs⟩
  | reset ks =>
    obtain rfl := Except.ok.inj h
    exact ⟨rfl, fun b hb => absurd hb List.not_mem_nil, false, rfl⟩

theorem lookup_storeCall_cases {c : Call} :
    (storeCall m c).1.lookup k = m.lookup k ∨
      (storeCall m c).1.lookup k = none ∨
      ∃ bs b, c.op = .decide bs ∧ Charges c.now m bs b ∧ b.key = k ∧
        (storeCall m c).1.lookup k = some (outcome c.now m b).next := by
  obtain ⟨now, op⟩ := c
  cases op with
  | decide bs =>
    rcases lookup_storeDecide_cases (m := m) (k := k) with h | h | ⟨b, hb, hk, h⟩
    · exact Or.inl h
    · exact Or.inr (Or.inl h)
    · exact Or.inr (Or.inr ⟨bs, b, rfl, hb, hk, h⟩)
  | peek bs => exact lookup_storePeek_cases.imp_right Or.inl
  | reset ks =>
    simp only [storeCall, lookup_storeReset]
    split_ifs
    · exact Or.inr (Or.inl rfl)
    · exact Or.inl rfl

/-- What holds of the entry under a key, and of each that a charge may put there, still
holds after a call. -/
theorem entry_storeCall {c : Call} {P : Entry → Prop} (h : ∀ e, m.lookup k = some e → P e)
    (hnext : ∀ bs b, Charges c.now m bs b → b ∈ c.op.buckets → b.key = k →
      P (outcome c.now m b).next) {e : Entry} (he : (storeCall m c).1.lookup k = some e) : P e := by
  rcases lookup_storeCall_cases (c := c) with hk | hk | ⟨bs, b, hop, hb, hkey, hk⟩
  · exact h e (hk.symm.trans he)
  · exact absurd (hk.symm.trans he) (Option.some_ne_none e).symm
  · obtain rfl := Option.some.inj (hk.symm.trans he)
    exact hnext bs b hb (by simpa [hop, Op.buckets] using hb.mem) hkey

end Effects

end Ratelimit.Memory
