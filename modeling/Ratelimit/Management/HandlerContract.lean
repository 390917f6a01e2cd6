import Ratelimit.Management.SweepContract

/-!
# The bulk handler keeps the contract

What surrounds the walk: the record first, then the token, then one acceptance,
and after it one outcome. A retry of a finished command is answered from the
first look at its record.
-/
namespace Ratelimit.Management

open Library Records

variable {std : Stdlib} {a : Admitted} {τ : Seen} {x : Exchange Reply} {w : Walker}

section Fresh

structure Fresh (τ : Seen) : Prop where
  unended : made isCommit τ = 0
  unminted : made isPut τ = 0
  unbatched : batchesIn τ = []
  unscanned : scansIn τ = []

theorem fresh_nil : Fresh [] := ⟨rfl, rfl, rfl, rfl⟩

theorem Fresh.idle (h : Fresh τ) (hx : Silent x) (hscan : scanOf x = none) : Fresh (τ ++ [x]) where
  unended := by simp [h.unended, hx.commit]
  unminted := by simp [h.unminted, hx.put]
  unbatched := by simp [h.unbatched, hx.batch]
  unscanned := by simp [h.unscanned, hscan]

variable {fields : Option (Option Fields)} {holder : Option (Option Text)} {ttl : Option ℤ}

theorem Fresh.looks (h : Fresh τ) : Fresh (looks a τ fields holder ttl) :=
  ((h.idle ⟨rfl, rfl, rfl⟩ rfl).idle ⟨rfl, rfl, rfl⟩ rfl).idle ⟨rfl, rfl, rfl⟩ rfl

theorem made_looks {M : Req → Bool} (hM : ∀ k, M (.fields k) = false ∧ M (.holder k) = false ∧
    M (.pttl k) = false) : made M (looks a τ fields holder ttl) = made M τ := by
  rw [looks, made_snoc, made_snoc, made_snoc]
  simp [hM]

end Fresh

section Looking

variable {fields : Option (Option Fields)} {holder : Option (Option Text)} {ttl : Option ℤ}
  {record : Record}

theorem withLease_eq {r : Record} {h : Option Text} (hr : withLease r h ttl = some record) :
    ∃ held ms, record = { r with leaseHolder := held, leaseTTL := ms } := by
  unfold withLease at hr
  cases h with
  | none =>
    obtain rfl := Option.some.inj hr
    exact ⟨_, _, rfl⟩
  | some held =>
    obtain ⟨ms, -, rfl⟩ := Option.map_eq_some_iff.mp hr
    split_ifs <;> exact ⟨_, _, rfl⟩

theorem looked_found (hlooked : looked fields holder ttl = some record)
    (hfound : record.found = true) :
    ∃ f h, fields = some (some f) ∧ holder = some h ∧
      withLease (recordOf (some f)) h ttl = some record := by
  unfold looked at hlooked
  split at hlooked
  · next f h =>
    cases f with
    | some f => exact ⟨f, h, rfl, rfl, hlooked⟩
    | none =>
      obtain ⟨_, _, rfl⟩ := withLease_eq hlooked
      cases hfound
  · cases hlooked

theorem holder_of_not_alive {f : Fields} {h : Option Text}
    (hlease : withLease (recordOf (some f)) h ttl = some record) (hopen : record.terminal = false)
    (hdead : ¬ record.alive = true) :
    f.fencing.getD [] = [] ∨ h ≠ some (f.fencing.getD []) := by
  rw [or_iff_not_imp_left]
  rintro hne rfl
  apply hdead
  obtain ⟨ms, -, rfl⟩ := Option.map_eq_some_iff.mp hlease
  have hfound : (recordOf (some f)).found = true := rfl
  have hfencing : (recordOf (some f)).fencing = f.fencing.getD [] := rfl
  rw [if_pos hfound] at hopen ⊢
  unfold Record.alive
  simp only [hfencing, hne, ne_eq, not_false_eq_true, decide_true, Bool.and_true, Bool.not_eq_true']
  exact hopen

end Looking

section Outcomes

theorem unset_ne_interrupted : ([] : Text) ≠ Code.interrupted.text := by
  decide +kernel

theorem workLimit_ne_interrupted : Code.workLimit.text ≠ Code.interrupted.text := by
  decide +kernel

/-- The call is refused as being in conflict with another. -/
def Conflicted (r : Response BulkResult) : Prop := ∃ e, r = .refused e ∧ e.conflictType ≠ none

/-- What follows an acceptance answers no conflict. -/
abbrev Plain : Seen → Response BulkResult → Prop := fun _ r => ¬ Conflicted r

theorem not_conflicted_body (b : BulkResult) : ¬ Conflicted (.body b) := by
  rintro ⟨e, he, -⟩
  cases he

theorem not_conflicted_pending (n : ℤ) : ¬ Conflicted (.pending n) := by
  rintro ⟨e, he, -⟩
  cases he

theorem not_conflicted_refused {e : ApiError} (he : e.conflictType = none) :
    ¬ Conflicted (.refused e) := by
  rintro ⟨e', he', hconflict⟩
  obtain rfl := Response.refused.inj he'
  exact hconflict he

theorem not_conflicted_replay (outcome : Outcome) (domain : Text) (c : BulkCommand) :
    ¬ Conflicted (replay outcome domain c) := by
  unfold replay
  by_cases hdone : outcome.failed = false
  · simp [hdone, not_conflicted_body _]
  · rw [if_neg hdone]
    exact not_conflicted_refused rfl

theorem obeys_replayFrom : Obeys (Permits std a) Plain τ (replayFrom a) := by
  refine obeys_bind.mpr (obeys_lookup fun fields holder ttl => ?_)
  split
  · rw [obeys_ite]
    exact ⟨fun _ => not_conflicted_refused rfl, fun _ => not_conflicted_replay _ _ _⟩
  · exact not_conflicted_refused rfl

theorem obeys_commitOutcome {outcome : Outcome} {answer : Response BulkResult}
    (h : Discloses std a τ outcome) (hplain : ¬ Conflicted answer) :
    Obeys (Permits std a) Plain τ (commitOutcome a outcome answer) := by
  refine obeys_ask.mpr ⟨⟨rfl, rfl, h⟩, fun verdict => ?_⟩
  rcases verdict with _ | (_ | _)
  · exact not_conflicted_refused rfl
  · exact hplain
  · exact obeys_replayFrom

theorem obeys_commitFailure {fault : Fault} {progress : Progress}
    (h : ∀ outcome : Outcome, outcome.code = (failureCode fault).text →
      outcome.progress = progress → Discloses std a τ outcome) :
    Obeys (Permits std a) Plain τ (commitFailure a fault progress) :=
  obeys_commitOutcome (h _ rfl rfl) (not_conflicted_refused rfl)

theorem obeys_recordFailure {fault : Fault} (hbound : Bound std a τ)
    (h : Swept a.sweep τ (w, some fault)) :
    Obeys (Permits std a) Plain τ (recordFailure a w fault) := by
  cases fault with
  | deadline =>
    obtain ⟨done, hwalked⟩ := h
    apply obeys_commitFailure
    intro outcome hcode hprogress
    have hother : outcome.code ≠ Code.interrupted.text := by
      rw [hcode]
      exact workLimit_ne_interrupted
    exact Or.inl ⟨hwalked.ran, hprogress ▸ hwalked.agrees, hother⟩
  | failed =>
    refine obeys_bind.mpr (obeys_lookup fun fields holder ttl => ?_)
    split
    · next record hlooked =>
      rw [obeys_ite]
      refine ⟨fun _ => not_conflicted_refused rfl, fun hfound => ?_⟩
      obtain ⟨f, h', rfl, rfl, hlease⟩ := looked_found hlooked (by simpa using hfound)
      obtain ⟨_, _, rfl⟩ := withLease_eq hlease
      apply obeys_commitFailure
      intro outcome hcode hprogress
      exact Or.inr ⟨hcode, τ, f, some h', ttl, rfl, hbound, hprogress⟩
    · exact not_conflicted_refused rfl

theorem obeys_mintToken (hdry : a.command.dryRun = true) (h : Complete a.sweep τ w) :
    Obeys (Permits std a) (fun τ' _ => AllRan τ' ∧ AgreeButScanned w.progress (told τ')) τ
      (mintToken std a) := by
  obtain ⟨hwalked, hscans, hcursor⟩ := h
  refine obeys_bind.mpr (obeys_now fun t => ?_)
  have hclock := hwalked.silent (silent_clock (some t))
  refine obeys_ask.mpr ⟨⟨hdry, hclock.unminted, rfl, ⟨_, rfl⟩, ?_, ?_⟩, fun stored => ?_⟩
  · simpa [scanOf] using hscans
  · simpa [scanOf] using hcursor
  · refine ⟨hclock.ran.silent rfl, ?_⟩
    rw [told_of_silent rfl]
    exact hclock.agrees

theorem Bound.later {τ' : Seen} (h : Bound std a τ) (hle : τ <+: τ') : Bound std a τ' := by
  obtain ⟨verdict, hmem⟩ := h
  exact ⟨verdict, hle.subset hmem⟩

theorem obeys_finishSweep (hbound : Bound std a τ) (h : Complete a.sweep τ w) :
    Obeys (Permits std a) Plain τ (finishSweep std a w) := by
  unfold finishSweep
  rw [obeys_ite]
  constructor
  · intro hdry
    refine obeys_bind.mpr ((obeys_mintToken hdry h).extends.mono ?_)
    rintro τ' minted ⟨hminted, hle⟩
    cases minted with
    | none => exact obeys_recordFailure (hbound.later hle) trivial
    | some expires =>
      apply obeys_commitOutcome _ (not_conflicted_body _)
      exact Or.inl ⟨hminted.1, hminted.2, unset_ne_interrupted⟩
  · intro _
    apply obeys_commitOutcome _ (not_conflicted_body _)
    exact Or.inl ⟨h.1.ran, h.1.agrees, unset_ne_interrupted⟩

theorem Fresh.walked (h : Fresh τ) : Walked a.sweep τ (pagesIn τ) Walker.start where
  unended := h.unended
  unminted := h.unminted
  ran := by
    intro p hp
    rw [h.unbatched] at hp
    cases hp
  agrees := by
    rw [told, h.unbatched]
    rfl
  judged := by simp [Walker.start]
  drops := by
    intro _ _
    rw [dropped, h.unbatched, pagesIn, h.unscanned]
    rfl

theorem obeys_sweep (hbound : Bound std a τ) (h : Fresh τ) :
    Obeys (Permits std a) Plain τ (sweep std a) := by
  refine obeys_bind.mpr (obeys_now fun t => ?_)
  have hclock := h.idle (silent_clock (some t)) rfl
  have hcursor : cursorAfter (scansIn (τ ++ [⟨.clock, some t⟩])) = some [] := by
    rw [hclock.unscanned]
    rfl
  refine obeys_bind.mpr ((obeys_run _ _ hclock.walked hcursor).extends.mono ?_)
  rintro τ' ⟨walker, fault⟩ ⟨hswept, hle⟩
  have hlater := hbound.later ((List.prefix_append _ _).trans hle)
  cases fault with
  | some fault => exact obeys_recordFailure hlater hswept
  | none => exact obeys_finishSweep hlater hswept

end Outcomes

section Handler

variable {fields : Option (Option Fields)} {holder : Option (Option Text)} {ttl : Option ℤ}
  {record : Record}

theorem hash_ne_nil : a.hash std ≠ [] := by
  intro h
  have hlength : (a.hash std).length = 64 := std.digest_length _
  rw [h] at hlength
  cases hlength

theorem found_of_command (hlooked : looked fields holder ttl = some record)
    (hcommand : record.command = a.hash std) : record.found = true := by
  unfold looked at hlooked
  split at hlooked
  · next f h =>
    obtain ⟨_, _, rfl⟩ := withLease_eq hlooked
    cases f with
    | some f => rfl
    | none => exact absurd hcommand.symm hash_ne_nil
  · cases hlooked

theorem abandoned_of_looks {f f' : Fields} {h h' : Option Text} {ttl' : Option ℤ} {current : Record}
    {outcome : Outcome} (hlease : withLease (recordOf (some f)) h ttl = some record)
    (hopen : record.terminal = false) (hdead : ¬ record.alive = true)
    (hlease' : withLease (recordOf (some f')) h' ttl' = some current)
    (hopen' : current.terminal = false) (hprogress : outcome.progress = current.progress) :
    Abandoned a (looks a (looks a τ (some (some f)) (some h) ttl) (some (some f')) (some h') ttl')
      outcome := by
  have hheld := holder_of_not_alive hlease hopen hdead
  obtain ⟨_, _, rfl⟩ := withLease_eq hlease
  obtain ⟨_, _, rfl⟩ := withLease_eq hlease'
  exact ⟨τ, f, f', h, ttl, some h', ttl', rfl, hopen, hheld, hopen', hprogress⟩

theorem obeys_standing (hlooked : looked fields holder ttl = some record) :
    Obeys (Permits std a) (fun τ' r => Conflicted r → τ' = looks a τ fields holder ttl)
      (looks a τ fields holder ttl) (standing std a record) := by
  have hanswer : ∀ (τ' : Seen) (r : Option Record), Obeys (Permits std a)
      (fun τ' r => Conflicted r → τ' = looks a τ fields holder ttl) τ' (afterFinalize a r) := by
    intro τ' r
    unfold afterFinalize
    split
    · exact fun hconflict => absurd hconflict (not_conflicted_refused rfl)
    · rw [obeys_ite, obeys_ite]
      refine ⟨fun _ hconflict => absurd hconflict (not_conflicted_refused rfl), fun _ => ⟨?_, ?_⟩⟩
      · exact fun _ hconflict => absurd hconflict (not_conflicted_pending _)
      · exact fun _ hconflict => absurd hconflict (not_conflicted_replay _ _ _)
  unfold standing
  rw [obeys_ite, obeys_ite, obeys_ite]
  refine ⟨fun _ _ => rfl, fun hcommand => ⟨fun _ _ => rfl, fun hopen => ⟨fun _ _ => rfl, ?_⟩⟩⟩
  intro hdead
  obtain ⟨f, h, rfl, rfl, hlease⟩ :=
    looked_found hlooked (found_of_command hlooked (not_not.mp hcommand))
  refine obeys_bind.mpr (obeys_bind.mpr (obeys_lookup fun fields' holder' ttl' => ?_))
  split
  · exact fun hconflict => absurd hconflict (not_conflicted_refused rfl)
  · next current hlooked' =>
    rw [obeys_ite]
    constructor
    · exact fun _ => hanswer _ (some current)
    · intro hcurrent
      obtain ⟨hfound', hopen'⟩ := not_or.mp hcurrent
      obtain ⟨f', h', rfl, rfl, hlease'⟩ := looked_found hlooked' (by simpa using hfound')
      refine obeys_ask.mpr ⟨⟨rfl, ?_⟩, fun verdict => ?_⟩
      · exact abandoned_of_looks hlease (by simpa using hopen) hdead hlease' (by simpa using hopen') rfl
      · cases verdict with
        | none => exact fun hconflict => absurd hconflict (not_conflicted_refused rfl)
        | some verdict => exact obeys_lookup fun _ _ _ => hanswer _ _

theorem obeys_checkToken (h : Fresh τ) (hunbound : made isAccept τ = 0) :
    Obeys (Permits std a) (fun τ' refusal => Fresh τ' ∧ made isAccept τ' = 0 ∧
      (refusal = none → Confirmed std a τ')) τ (checkToken std a) := by
  refine obeys_ask.mpr ⟨rfl, fun found => ?_⟩
  have hfresh := h.idle (x := ⟨.get (tokenKey a.scope a.command.confirmationToken), found⟩)
    ⟨rfl, rfl, rfl⟩ rfl
  have hunbound' : made isAccept
      (τ ++ [⟨.get (tokenKey a.scope a.command.confirmationToken), found⟩]) = 0 := by
    rw [made_snoc, hunbound]
    rfl
  rcases found with _ | (_ | token)
  · exact ⟨hfresh, hunbound', fun hnone => by cases hnone⟩
  · exact ⟨hfresh, hunbound', fun hnone => by cases hnone⟩
  · exact ⟨hfresh, hunbound', fun hnone =>
      ⟨token, List.mem_append_right _ (List.mem_singleton_self _), hnone⟩⟩

/-- The acceptance was not made, or the store turned it down. -/
def Turned (τ : Seen) : Prop :=
  made isAccept τ = 0 ∨
    ∃ x verdict, ⟨.accept x, some verdict⟩ ∈ τ ∧ ∀ token, verdict ≠ .accepted token

theorem obeys_acceptCommand (h : Fresh τ) (hunbound : made isAccept τ = 0)
    (hconfirmed : a.command.dryRun = false → Confirmed std a τ) :
    Obeys (Permits std a) (fun τ' r => Conflicted r → Turned τ') τ (acceptCommand std a) := by
  refine obeys_bind.mpr (obeys_ask.mpr ⟨⟨rfl, hunbound, hconfirmed⟩, fun verdict => ?_⟩)
  have hfresh : ∀ verdict, Fresh (τ ++ [⟨.accept (a.acceptance std), verdict⟩]) :=
    fun verdict => h.idle ⟨rfl, rfl, rfl⟩ rfl
  have hmem : ∀ verdict : AcceptVerdict, ⟨.accept (a.acceptance std), some verdict⟩ ∈
      τ ++ [⟨.accept (a.acceptance std), some verdict⟩] :=
    fun verdict => List.mem_append_right _ (List.mem_singleton_self _)
  rcases verdict with _ | (_ | ttl | _ | token)
  · exact fun hconflict => absurd hconflict (not_conflicted_refused rfl)
  · refine obeys_bind.mpr (obeys_lookup fun fields holder ttl => ?_)
    have hle : τ ++ [⟨.accept (a.acceptance std), some .existing⟩] <+:
        looks a (τ ++ [⟨.accept (a.acceptance std), some .existing⟩]) fields holder ttl := by
      simp [looks, List.append_assoc]
    cases hlooked : looked fields holder ttl with
    | none => exact fun hconflict => absurd hconflict (not_conflicted_refused rfl)
    | some record =>
      simp only [Option.map_some, obeys_pure]
      rw [obeys_ite]
      constructor
      · intro _
        refine (obeys_sweep ⟨_, hle.subset (hmem _)⟩ (hfresh _).looks).mono ?_
        exact fun _ _ hplain hconflict => absurd hconflict hplain
      · intro _
        refine (obeys_standing hlooked).mono fun τ' r hstart hconflict => ?_
        rw [hstart hconflict]
        exact Or.inr ⟨_, .existing, hle.subset (hmem _), fun _ hv => by cases hv⟩
  · exact fun _ => Or.inr ⟨_, .busy ttl, hmem _, fun _ hv => by cases hv⟩
  · exact fun hconflict => absurd hconflict (not_conflicted_refused rfl)
  · refine (obeys_sweep ⟨_, hmem _⟩ (hfresh _)).mono ?_
    exact fun _ _ hplain hconflict => absurd hconflict hplain

/-- What a bulk call answers. The first look at the record decides where the store
does not answer it, or where the command has ended. -/
def Answers (std : Stdlib) (a : Admitted) (τ : Seen) (r : Response BulkResult) : Prop :=
  (Conflicted r → Turned τ) ∧ ∃ fields holder ttl, looks a [] fields holder ttl <+: τ ∧
    (looked fields holder ttl = none → r = .refused notAccepted) ∧
    ∀ record, looked fields holder ttl = some record → record.found = true →
      record.command = a.hash std → record.terminal = true →
      r = replay record.outcome a.domain a.command

theorem obeys_resolve : Obeys (Permits std a) (Answers std a) [] (resolve std a) := by
  refine obeys_bind.mpr (obeys_lookup fun fields holder ttl => ?_)
  have hfresh : Fresh (looks a [] fields holder ttl) := fresh_nil.looks
  have hunbound : made isAccept (looks a [] fields holder ttl) = 0 :=
    made_looks fun k => ⟨rfl, rfl, rfl⟩
  cases hlooked : looked fields holder ttl with
  | none =>
    refine ⟨fun hconflict => absurd hconflict (not_conflicted_refused rfl), fields, holder, ttl,
      List.prefix_rfl, fun _ => rfl, fun record hrecord => ?_⟩
    rw [hlooked] at hrecord
    cases hrecord
  | some record =>
    -- what is left to do answers something; only a finished command is answered here
    have hlater : ∀ {p : Client (Response BulkResult)},
        (record.found = true → record.command = a.hash std → record.terminal = true → False) →
        Obeys (Permits std a) (fun τ r => Conflicted r → Turned τ) (looks a [] fields holder ttl) p →
        Obeys (Permits std a) (Answers std a) (looks a [] fields holder ttl) p := by
      intro p hnot hp
      refine hp.extends.mono fun τ r hr => ⟨hr.1, fields, holder, ttl, hr.2, fun hnone => ?_, ?_⟩
      · simp [hlooked] at hnone
      · intro record' hrecord hfound hcommand hterminal
        obtain rfl := Option.some.inj (hlooked.symm.trans hrecord)
        exact (hnot hfound hcommand hterminal).elim
    rw [obeys_ite]
    constructor
    · intro hfound
      by_cases hended : record.command = a.hash std ∧ record.terminal = true
      · unfold standing
        rw [if_neg (not_not.mpr hended.1), if_pos hended.2]
        refine ⟨fun hconflict => absurd hconflict (not_conflicted_replay _ _ _), fields, holder, ttl,
          List.prefix_rfl, fun hnone => ?_, fun record' hrecord _ _ _ => ?_⟩
        · simp [hlooked] at hnone
        · rw [Option.some.inj (hlooked.symm.trans hrecord)]
      · apply hlater (fun _ hcommand hterminal => hended ⟨hcommand, hterminal⟩)
        refine (obeys_standing hlooked).mono fun τ' r hstart hconflict => ?_
        rw [hstart hconflict]
        exact Or.inl hunbound
    · intro hmissing
      apply hlater (fun hfound => absurd hfound hmissing)
      rw [obeys_ite]
      constructor
      · intro hdry
        exact obeys_acceptCommand hfresh hunbound fun hexecute => by rw [hdry] at hexecute; cases hexecute
      · intro _
        refine obeys_bind.mpr ((obeys_checkToken hfresh hunbound).mono ?_)
        rintro τ' refusal ⟨hfresh', hunbound', hconfirmed⟩
        cases refusal with
        | some e => exact fun _ => Or.inl hunbound'
        | none => exact obeys_acceptCommand hfresh' hunbound' fun _ => hconfirmed rfl

end Handler

end Ratelimit.Management
