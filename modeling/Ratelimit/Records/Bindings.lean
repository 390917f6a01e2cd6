import Ratelimit.Records.Fencing

/-!
# What an addressed reset leaves in its record

The reset script alone writes a count and an answer, and only into a record that
no command is bound to. So the count and the answer of a record are those of one
executed reset, and stay for as long as the record is retained.
-/
namespace Ratelimit.Records

open Library Store Memory

/-- The event executed the reset `r`, which counted `n` keys. -/
def Executes (r : Addressed) (n : ℕ) (ev : Ev) : Prop :=
  ∃ i late o, ev = .ran ⟨i, late, o, .reset r, .done n⟩

section Steps

variable {db : Db} {k j : Text} {old new : Option Fields}

/-- Nothing a reset wrote is changed, a bound command stays bound. -/
def Keeps (old new : Option Fields) : Prop :=
  ∀ f, new = some f → f.count = (old.getD .empty).count ∧ f.answer = (old.getD .empty).answer ∧
    ∀ command, (old.getD .empty).command = some command → f.command = some command

theorem keeps_refl (old : Option Fields) : Keeps old old := by
  rintro f rfl
  exact ⟨rfl, rfl, fun _ h => h⟩

theorem keeps_gone (old : Option Fields) : Keeps old none := fun _ h => by cases h

theorem keeps_some {f : Fields} (hcount : f.count = (old.getD .empty).count)
    (hanswer : f.answer = (old.getD .empty).answer)
    (hcommand : ∀ command, (old.getD .empty).command = some command → f.command = some command) :
    Keeps old (some f) := by
  intro f' h
  obtain rfl := Option.some.inj h
  exact ⟨hcount, hanswer, hcommand⟩

theorem fields_hset (write : Fields → Fields) :
    (db.hset k write).fields j =
      if j = k then some (write ((db.fields k).getD .empty)) else db.fields j := by
  unfold Db.fields
  rw [lookup_hset]
  split_ifs
  · cases db.records.lookup k <;> rfl
  · rfl

theorem fields_writeOutcome (outcome : Outcome) :
    (writeOutcome db k outcome).fields j =
      if j = k then some { (db.fields k).getD .empty with outcome := some outcome, terminal := true }
      else db.fields j := by
  unfold Db.fields
  rw [lookup_writeOutcome]
  split_ifs <;> rfl

theorem keeps_writeOutcome (outcome : Outcome) :
    Keeps (db.fields j) ((writeOutcome db k outcome).fields j) := by
  rw [fields_writeOutcome]
  split_ifs with h
  · rw [h]
    exact keeps_some rfl rfl fun _ h => h
  · exact keeps_refl _

theorem keeps_accept (a : Acceptance) : Keeps (db.fields j) ((acceptScript db a).1.fields j) := by
  unfold acceptScript
  split
  · exact keeps_refl _
  · next hfree =>
    -- the record was free, so no command of it is lost
    have hbind : ∀ db' : Db, db'.fields = db.fields →
        Keeps (db.fields j) ((bindCommand db' a).fields j) := by
      intro db' hdb'
      have hlookup : (bindCommand db' a).fields j = if j = a.keys.record then
          some { (db'.fields a.keys.record).getD .empty with
            command := some a.command, fencing := some a.fencing } else db'.fields j := by
        unfold Db.fields
        rw [lookup_bindCommand]
        split_ifs <;> rfl
      rw [hlookup, hdb']
      split_ifs with hj
      · subst hj
        refine keeps_some rfl rfl fun command hcommand => ?_
        cases hfields : db.fields a.keys.record with
        | none =>
          rw [hfields] at hcommand
          cases hcommand
        | some f =>
          rw [hfields] at hfree hcommand
          cases hfree.symm.trans hcommand
      · exact keeps_refl _
    split
    · exact keeps_refl _
    · split
      · exact hbind db rfl
      · split
        · exact keeps_refl _
        · exact hbind _ rfl

theorem keeps_batch (b : Batch) : Keeps (db.fields j) ((batchScript db b).1.fields j) := by
  unfold batchScript
  split_ifs
  · exact keeps_refl _
  · rw [fields_hset]
    split_ifs with hj
    · rw [hj]
      exact keeps_some rfl rfl fun _ h => h
    · exact keeps_refl _

theorem keeps_commit (c : Commit) : Keeps (db.fields j) ((commitScript db c).1.fields j) := by
  unfold commitScript
  split_ifs
  · exact keeps_refl _
  · exact keeps_writeOutcome c.outcome

theorem keeps_finalize (f : Finalize) : Keeps (db.fields j) ((finalizeScript db f).1.fields j) := by
  unfold finalizeScript
  split
  · exact keeps_refl _
  · split_ifs
    · exact keeps_refl _
    · exact keeps_refl _
    · exact keeps_writeOutcome f.outcome

theorem keeps_elapse (d : ℕ) : Keeps (db.fields j) ((elapse db d).fields j) := by
  unfold Db.fields
  rw [lookup_elapse_records]
  split_ifs
  · exact keeps_gone _
  · exact keeps_refl _

theorem resetScript_cases (db : Db) (r : Addressed) :
    (∃ f command, db.fields r.record = some f ∧ f.command = some command ∧
      resetScript db r = (db, .replayed command f.count f.answer)) ∨
    ∃ n, (db.fields r.record).bind Fields.command = none ∧ (resetScript db r).2 = .done n ∧
      ∀ j, (resetScript db r).1.fields j =
        if j = r.record then some (bindReset r n ((db.fields r.record).getD .empty)) else db.fields j := by
  unfold resetScript
  split
  · next command fencing progress outcome terminal count answer hfields =>
    exact Or.inl ⟨_, command, hfields, rfl, rfl⟩
  · next hfree =>
    refine Or.inr ⟨_, command_of_free hfree, rfl, fun j => ?_⟩
    unfold Db.fields
    rw [lookup_hset_pexpire]
    split_ifs <;> rfl

theorem keeps_apply {ev : Ev} (hreply : Replied db ev) (k : Text) :
    Keeps (db.fields k) ((redis.apply db ev).fields k) ∨
      ∃ r n, Executes r n ev ∧ r.record = k ∧ (db.fields k).bind Fields.command = none ∧
        (redis.apply db ev).fields k = some (bindReset r n ((db.fields k).getD .empty)) := by
  cases ev with
  | env e =>
    left
    cases e with
    | elapse d => exact keeps_elapse d
    | leaseLost lease => exact keeps_refl _
    | traffic op => exact keeps_refl _
  | ran e =>
    obtain ⟨i, late, o, r, v⟩ := e
    have hv : v = (exec db r o).2 := hreply
    subst hv
    cases r with
    | accept a => exact Or.inl (keeps_accept a)
    | batch b => exact Or.inl (keeps_batch b)
    | commit c => exact Or.inl (keeps_commit c)
    | finalize f => exact Or.inl (keeps_finalize f)
    | reset r =>
      have happly : redis.apply db (.ran ⟨i, late, o, .reset r, (exec db (.reset r) o).2⟩) =
          (resetScript db r).1 := rfl
      rw [happly]
      rcases resetScript_cases db r with ⟨f, command, -, -, hsame⟩ | ⟨n, hfree, hdone, hfields⟩
      · rw [hsame]
        exact Or.inl (keeps_refl _)
      · by_cases hk : k = r.record
        · subst hk
          refine Or.inr ⟨r, n, ⟨i, late, o, ?_⟩, rfl, hfree, ?_⟩
          · rw [← hdone]
            rfl
          · rw [hfields, if_pos rfl]
        · left
          rw [hfields, if_neg hk]
          exact keeps_refl _
    | fields | holder | pttl | put | get | scan | peek | clock => exact Or.inl (keeps_refl _)

end Steps

section Histories

variable {h mid : List Ev} {k : Text}

/-- A record bound by a reset stays as the reset wrote it while it is retained. -/
theorem Genuine.bound_kept {f : Fields} {command : Text} (hgenuine : Genuine (h ++ mid))
    (hf : (after h).fields k = some f) (hcommand : f.command = some command)
    (hkept : RetainedThrough k h mid) : ∃ f', (after (h ++ mid)).fields k = some f' ∧
      f'.command = some command ∧ f'.count = f.count ∧ f'.answer = f.answer := by
  induction mid using List.reverseRecOn with
  | nil =>
    rw [List.append_nil]
    exact ⟨f, hf, hcommand, rfl, rfl⟩
  | append_singleton mid ev ih =>
    have hlast := hkept _ List.prefix_rfl
    rw [← List.append_assoc] at hgenuine hlast ⊢
    obtain ⟨f', hf', hcommand', hcount, hanswer⟩ := ih hgenuine.of_append hkept.of_append
    obtain ⟨b, hb⟩ := Option.isSome_iff_exists.mp hlast
    have hfields : (after (h ++ mid ++ [ev])).fields k = some b.fields := by
      rw [Db.fields, hb]
      rfl
    have hstep := keeps_apply hgenuine.last k
    rw [← after_snoc, hf'] at hstep
    rcases hstep with hkeeps | ⟨r, n, -, -, hfree, -⟩
    · obtain ⟨hcount', hanswer', hbound⟩ := hkeeps _ hfields
      exact ⟨b.fields, hfields, hbound _ hcommand', hcount'.trans hcount, hanswer'.trans hanswer⟩
    · cases hfree.symm.trans hcommand'

/-- The count and the answer of a record are those of one reset that ran. -/
theorem Genuine.origin {f : Fields} (hgenuine : Genuine h) (hf : (after h).fields k = some f)
    (hreset : f.count ≠ none ∨ f.answer ≠ none) :
    ∃ pre ev mid r n, h = pre ++ ev :: mid ∧ Executes r n ev ∧ r.record = k ∧
      f.command = some r.command ∧ f.count = some n ∧ f.answer = some r.answer := by
  induction h using List.reverseRecOn generalizing f with
  | nil => cases hf
  | append_singleton h ev ih =>
    have hstep := keeps_apply hgenuine.last k
    rw [← after_snoc, hf] at hstep
    rcases hstep with hkeeps | ⟨r, n, hexecutes, hrecord, -, hbound⟩
    · obtain ⟨hcount, hanswer, hcommand⟩ := hkeeps f rfl
      rw [hcount, hanswer] at hreset ⊢
      cases hold : (after h).fields k with
      | none =>
        rw [hold] at hreset
        rcases hreset with hreset | hreset <;> exact absurd rfl hreset
      | some old =>
        rw [hold] at hreset hcommand
        obtain ⟨pre, ev', mid, r, n, rfl, hexecutes, hrecord, hc, hn, ha⟩ :=
          ih hgenuine.of_append hold hreset
        exact ⟨pre, ev', mid ++ [ev], r, n, by simp, hexecutes, hrecord, hcommand _ hc, hn, ha⟩
    · obtain rfl := Option.some.inj hbound
      exact ⟨h, ev, [], r, n, rfl, hexecutes, hrecord, rfl, rfl, rfl⟩

theorem Genuine.fields_of_executes {ev : Ev} {r : Addressed} {n : ℕ} (hgenuine : Genuine (h ++ [ev]))
    (hexecutes : Executes r n ev) : ((after h).fields r.record).bind Fields.command = none ∧
      ∃ f, (after (h ++ [ev])).fields r.record = some f ∧ f.command = some r.command := by
  obtain ⟨i, late, o, rfl⟩ := hexecutes
  have hreply : .done n = (resetScript (after h) r).2 := hgenuine.last
  rcases resetScript_cases (after h) r with ⟨f, command, -, -, hsame⟩ | ⟨m, hfree, -, hfields⟩
  · rw [hsame] at hreply
    cases hreply
  · refine ⟨hfree, bindReset r m (((after h).fields r.record).getD .empty), ?_, rfl⟩
    have happly : after (h ++ [.ran ⟨i, late, o, .reset r, .done n⟩]) = (resetScript (after h) r).1 :=
      after_snoc _ _
    rw [happly, hfields, if_pos rfl]

end Histories

end Ratelimit.Records
