import Ratelimit.Records.Invariant

/-!
# Binding once, ending once, and losing the lease for good

While a record is retained no acceptance binds its key, and a terminal record is
not written again. A command that lost its lease never holds it again, because
its fencing value is accepted once; from then on its batches and commits change
nothing.
-/
namespace Ratelimit.Records

open Library

variable {h h' : List Ev} {ev : Ev} {k F : Text}

theorem Run.change (run : Run (h ++ [ev])) : Change (after h) (mark ev) (after (h ++ [ev])) := by
  rw [after_snoc]
  exact change_apply (run_snoc run).2.2

theorem Run.absent_of_bound (run : Run (h ++ [ev])) {a : Acceptance} (hm : mark ev = .bound a) :
    (after h).records.lookup a.keys.record = none := by
  have hchange := run.change
  rw [hm] at hchange
  cases hchange with
  | bind a hfree hlease hrecords hleases => exact (run_snoc run).1.inv.absent_of_free hfree

theorem Inv.open_of_holder {db : Db} (hinv : Inv h db) {L : Text} {keys : Keys}
    (hheld : db.holder L = some F)
    (hkeys : ∀ a ∈ acceptances h, a.fencing = F →
      a.keys.record = keys.record ∧ a.keys.lease = keys.lease) :
    ∃ b, db.records.lookup keys.record = some b ∧ b.fields.fencing = some F ∧
      b.fields.terminal = false := by
  obtain ⟨a, hclaim, hF, hopen⟩ := hinv.of_holder hheld
  rwa [(hkeys a (mem_of_lastClaim hclaim).1 hF).1] at hopen

section Terminal

variable {b : Binding}

/-- One event keeps the fence of a record and a terminal record, or finds it expired. -/
theorem record_step (run : Run (h ++ [ev])) (hb : (after h).records.lookup k = some b) :
    (after (h ++ [ev])).records.lookup k = none ∨
      ∃ b', (after (h ++ [ev])).records.lookup k = some b' ∧
        b'.fields.fencing = b.fields.fencing ∧ (b.fields.terminal = true → b' = b) := by
  obtain ⟨hrun, hlaw, -⟩ := run_snoc run
  have hinv := hrun.inv
  have hchange := run.change
  -- whoever writes needs the record open or absent
  have hopen : ∀ {k' : Text} {b' : Binding}, (after h).records.lookup k' = some b' →
      b'.fields.terminal = false → k = k' → b.fields.terminal = false := by
    rintro k' b' hb' hopen rfl
    rwa [Option.some.inj (hb.symm.trans hb')]
  have habsent : ∀ {k' : Text}, ((after h).fields k').bind Fields.command = none → k ≠ k' := by
    rintro k' hfree rfl
    rw [hinv.absent_of_free hfree] at hb
    cases hb
  have hfields : (after h).fields k = some b.fields := by
    rw [Db.fields, hb]
    rfl
  generalize mark ev = m at hchange hlaw
  cases hchange with
  | silent hrecords hleases => exact Or.inr ⟨b, hrecords ▸ hb, rfl, fun _ => rfl⟩
  | drop lease hrecords hleases => exact Or.inr ⟨b, hrecords ▸ hb, rfl, fun _ => rfl⟩
  | bind a hfree hlease hrecords hleases =>
    refine Or.inr ⟨b, ?_, rfl, fun _ => rfl⟩
    rw [hrecords, lookup_bindCommand, if_neg (habsent hfree), hb]
  | reset r count hfree hrecords hleases =>
    refine Or.inr ⟨b, ?_, rfl, fun _ => rfl⟩
    rw [hrecords, if_neg (habsent hfree), hb]
  | batch b' hheld hrecords hleases =>
    right
    obtain ⟨b₀, hb₀, -, hopen₀⟩ := hinv.open_of_holder hheld hlaw
    rw [hrecords, lookup_hset]
    split_ifs with hk
    · rw [← hk, hb]
      exact ⟨_, rfl, rfl, by simp [hopen hb₀ hopen₀ hk]⟩
    · exact ⟨b, hb, rfl, fun _ => rfl⟩
  | commit c hheld hrecords hleases =>
    right
    obtain ⟨b₀, hb₀, -, hopen₀⟩ := hinv.open_of_holder hheld hlaw
    rw [hrecords, lookup_writeOutcome]
    split_ifs with hk
    · rw [← hk, hfields]
      exact ⟨_, rfl, rfl, by simp [hopen hb₀ hopen₀ hk]⟩
    · exact ⟨b, hb, rfl, fun _ => rfl⟩
  | finalize f fields hfound hfree hlease hrecords hleases =>
    right
    obtain ⟨b₀, hb₀, rfl⟩ := Option.map_eq_some_iff.mp hfound
    rw [hrecords, lookup_writeOutcome]
    split_ifs with hk
    · rw [← hk, hfields]
      exact ⟨_, rfl, rfl, by simp [hopen hb₀ hfree hk]⟩
    · exact ⟨b, hb, rfl, fun _ => rfl⟩
  | expire now hrecords hleases =>
    rw [hrecords, hb]
    split_ifs
    · exact Or.inl rfl
    · exact Or.inr ⟨b, rfl, rfl, fun _ => rfl⟩

/-- The record was there after every event of the stretch `h'`. -/
def RetainedThrough (k : Text) (h h' : List Ev) : Prop :=
  ∀ q, q <+: h' → ((after (h ++ q)).records.lookup k).isSome = true

theorem RetainedThrough.of_append {mid : List Ev} (hkept : RetainedThrough k h (h' ++ mid)) :
    RetainedThrough k h h' := fun q hq => hkept q (hq.trans (List.prefix_append _ _))

theorem Run.record_kept (run : Run (h ++ h')) (hb : (after h).records.lookup k = some b)
    (hkept : RetainedThrough k h h') : ∃ b', (after (h ++ h')).records.lookup k = some b' ∧
      b'.fields.fencing = b.fields.fencing ∧ (b.fields.terminal = true → b' = b) := by
  induction h' using List.reverseRecOn with
  | nil =>
    rw [List.append_nil]
    exact ⟨b, hb, rfl, fun _ => rfl⟩
  | append_singleton h' ev ih =>
    have hlast := hkept _ List.prefix_rfl
    rw [← List.append_assoc] at run hlast ⊢
    obtain ⟨b', hb', hF, hsame⟩ := ih (run_snoc run).1 hkept.of_append
    rcases record_step run hb' with hgone | ⟨b'', hb'', hF', hsame'⟩
    · rw [hgone] at hlast
      cases hlast
    · refine ⟨b'', hb'', hF'.trans hF, fun hterminal => ?_⟩
      rw [hsame' (hsame hterminal ▸ hterminal), hsame hterminal]

theorem Run.fields_kept (run : Run (h ++ h')) {f : Fields} (hf : (after h).fields k = some f)
    (hterminal : f.terminal = true) (hkept : RetainedThrough k h h') :
    (after (h ++ h')).fields k = some f := by
  obtain ⟨b, hb, rfl⟩ := Option.map_eq_some_iff.mp hf
  obtain ⟨b', hb', -, hsame⟩ := run.record_kept hb hkept
  rw [Db.fields, hb', hsame hterminal]
  rfl

end Terminal

section Leases

/-- The command was accepted and holds no lease. -/
def Dead (F : Text) (h : List Ev) : Prop :=
  (∃ a ∈ acceptances h, a.fencing = F) ∧ ∀ L, (after h).holder L ≠ some F

theorem holder_step (run : Run (h ++ [ev])) {L : Text}
    (hheld : (after (h ++ [ev])).holder L = some F) :
    (after h).holder L = some F ∨ ∃ a, mark ev = .bound a ∧ a.fencing = F ∧ a.keys.lease = L := by
  have hchange := run.change
  generalize hm : mark ev = m at hchange
  unfold Db.holder at hheld ⊢
  cases hchange with
  | silent hrecords hleases => exact Or.inl (hleases ▸ hheld)
  | bind a hfree hlease hrecords hleases =>
    by_cases hL : L = a.keys.lease
    · subst hL
      rw [hleases, Finmap.lookup_insert] at hheld
      exact Or.inr ⟨a, rfl, Option.some.inj hheld, rfl⟩
    · rw [hleases, Finmap.lookup_insert_of_ne _ hL] at hheld
      exact Or.inl hheld
  | batch b hheld' hrecords hleases => exact Or.inl (hleases ▸ hheld)
  | commit c hheld' hrecords hleases =>
    by_cases hL : L = c.keys.lease
    · rw [hleases, hL, Finmap.lookup_erase] at hheld
      cases hheld
    · rw [hleases, Finmap.lookup_erase_ne hL] at hheld
      exact Or.inl hheld
  | finalize f fields hfields hopen hlease hrecords hleases => exact Or.inl (hleases ▸ hheld)
  | reset r count hfree hrecords hleases => exact Or.inl (hleases ▸ hheld)
  | expire now hrecords hleases =>
    rw [hleases] at hheld
    split_ifs at hheld
    · cases hheld
    · exact Or.inl hheld
  | drop lease hrecords hleases =>
    by_cases hL : L = lease
    · rw [hleases, hL, Finmap.lookup_erase] at hheld
      cases hheld
    · rw [hleases, Finmap.lookup_erase_ne hL] at hheld
      exact Or.inl hheld

theorem dead_step (run : Run (h ++ [ev])) (hdead : Dead F h) : Dead F (h ++ [ev]) := by
  obtain ⟨⟨a, ha, hF⟩, hfree⟩ := hdead
  refine ⟨⟨a, ?_, hF⟩, fun L hheld => ?_⟩
  · rw [acceptances_snoc]
    exact List.mem_append_left _ ha
  · rcases holder_step run hheld with hheld | ⟨a', hm, hF', -⟩
    · exact hfree L hheld
    · have hlaw := (run_snoc run).2.1
      rw [hm] at hlaw
      exact hlaw.2.2 a ha (hF.trans hF'.symm)

theorem Run.dead_append (run : Run (h ++ h')) (hdead : Dead F h) : Dead F (h ++ h') := by
  induction h' using List.reverseRecOn with
  | nil => rwa [List.append_nil]
  | append_singleton h' ev ih =>
    rw [← List.append_assoc] at run ⊢
    exact dead_step run (ih (run_snoc run).1)

theorem batchScript_of_dead (hdead : Dead F h) {b : Batch} (hb : b.fencing = F) :
    batchScript (after h) b = (after h, .lost) :=
  if_pos (hb ▸ hdead.2 b.keys.lease)

theorem commitScript_of_dead (hdead : Dead F h) {c : Commit} (hc : c.fencing = F) :
    commitScript (after h) c = (after h, .lost) :=
  if_pos (hc ▸ hdead.2 c.keys.lease)

theorem Run.dead_of_terminal (run : Run h) {b : Binding} (hb : (after h).records.lookup k = some b)
    (hF : b.fields.fencing = some F) (hterminal : b.fields.terminal = true) : Dead F h := by
  obtain ⟨-, -, -, -, a, ha, haF, hak, -⟩ := run.inv.stems k b F hb hF
  refine ⟨⟨a, ha, haF⟩, fun L hheld => ?_⟩
  obtain ⟨a', hclaim, haF', b', hb', -, hopen⟩ := run.inv.of_holder hheld
  obtain rfl := run.inv.acceptance_unique ha (mem_of_lastClaim hclaim).1 (haF.trans haF'.symm)
  rw [hak, hb] at hb'
  obtain rfl := Option.some.inj hb'
  rw [hterminal] at hopen
  cases hopen

theorem Run.dead_of_lost (run : Run h) {a : Acceptance} (ha : a ∈ acceptances h)
    (hlost : (after h).holder a.keys.lease ≠ some a.fencing) : Dead a.fencing h := by
  refine ⟨⟨a, ha, rfl⟩, fun L hheld => ?_⟩
  obtain ⟨a', hclaim, hF, -⟩ := run.inv.of_holder hheld
  obtain ⟨ha', hL⟩ := mem_of_lastClaim hclaim
  obtain rfl := run.inv.acceptance_unique ha ha' hF.symm
  exact hlost (hL ▸ hheld)

/-- The command has an outcome, or was accepted and has lost its lease. -/
def Ended (F : Text) (h : List Ev) : Prop :=
  Dead F h ∨ ∃ k f, (after h).fields k = some f ∧ f.fencing = some F ∧ f.terminal = true

theorem Run.dead_of_ended (run : Run h) (hended : Ended F h) : Dead F h := by
  rcases hended with hdead | ⟨k, f, hfields, hF, hterminal⟩
  · exact hdead
  · obtain ⟨b, hb, rfl⟩ := Option.map_eq_some_iff.mp hfields
    exact run.dead_of_terminal hb hF hterminal

theorem Run.claim_of_advanced (run : Run (h ++ [ev])) {b : Batch} (hm : mark ev = .advanced b) :
    (after h).holder b.keys.lease = some b.fencing ∧
      ∃ a, lastClaim b.keys.lease h = some a ∧ a.fencing = b.fencing := by
  have hchange := run.change
  rw [hm] at hchange
  cases hchange with
  | batch b hheld hrecords hleases =>
    obtain ⟨a, hclaim, hF, -⟩ := (run_snoc run).1.inv.of_holder hheld
    exact ⟨hheld, a, hclaim, hF⟩

end Leases

section Progress

variable {f : Fields}

end Progress

end Ratelimit.Records
