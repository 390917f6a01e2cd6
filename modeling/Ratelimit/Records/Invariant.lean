import Ratelimit.Records.Protocol

/-!
# What every run of the record store keeps

Every hash under a record key has a command. A hash with a fence stems from the
acceptance of that fence and holds the progress of its last batch. Behind a held
lease stands the command that claimed it last, with an open record that expires
no sooner than the lease.
-/
namespace Ratelimit.Records

open Library Store Memory

/-- The command behind a lease: the last to claim it, with an open record that
outlives the lease. -/
def Leased (h : List Ev) (db : Db) (L : Text) (l : Lease) : Prop :=
  ∃ a, lastClaim L h = some a ∧ a.fencing = l.holder ∧
    ∃ b x, db.records.lookup a.keys.record = some b ∧ b.fields.fencing = some a.fencing ∧
      b.fields.terminal = false ∧ b.expires = some x ∧ l.expires ≤ x

def Stems (h : List Ev) (k F : Text) (f : Fields) : Prop :=
  f.progress = lastProgress F h ∧ f.count = none ∧ f.answer = none ∧
    f.outcome.isSome = f.terminal ∧
    ∃ a ∈ acceptances h, a.fencing = F ∧ a.keys.record = k ∧ f.command = some a.command

structure Inv (h : List Ev) (db : Db) : Prop where
  distinct : ((acceptances h).map Acceptance.fencing).Nodup
  fencing_ne : ∀ a ∈ acceptances h, a.fencing ≠ []
  accepted : ∀ F, batches F h ≠ [] → ∃ a ∈ acceptances h, a.fencing = F
  commanded : ∀ k b, db.records.lookup k = some b → b.fields.command.isSome = true
  stems : ∀ k b F, db.records.lookup k = some b → b.fields.fencing = some F → Stems h k F b.fields
  leased : ∀ L l, db.leases.lookup L = some l → Leased h db L l

section Preservation

variable {h : List Ev} {ev : Ev} {db db' : Db}

/-- An event that neither binds nor advances a command adds nothing to the history. -/
theorem Inv.of_unmarked (hbound : (mark ev).acceptance = none) (hidle : (mark ev).batch = none)
    (hinv : Inv h db) : Inv (h ++ [ev]) db := by
  have hacc : acceptances (h ++ [ev]) = acceptances h := by
    rw [acceptances_snoc, hbound]
    exact List.append_nil _
  have hbat : ∀ F, batches F (h ++ [ev]) = batches F h := by
    intro F
    rw [batches_snoc, hidle]
    exact List.append_nil _
  have hclaim : ∀ L, lastClaim L (h ++ [ev]) = lastClaim L h := fun L => by
    unfold lastClaim
    rw [hacc]
  have hlast : ∀ F, lastProgress F (h ++ [ev]) = lastProgress F h := fun F => by
    unfold lastProgress
    rw [hbat]
  constructor
  · rw [hacc]
    exact hinv.distinct
  · rw [hacc]
    exact hinv.fencing_ne
  · intro F
    rw [hacc, hbat]
    exact hinv.accepted F
  · exact hinv.commanded
  · intro k b F hk hF
    unfold Stems
    rw [hacc, hlast]
    exact hinv.stems k b F hk hF
  · intro L l hl
    unfold Leased
    rw [hclaim]
    exact hinv.leased L l hl

theorem lookup_written {k j : Text} {b : Binding} (hb : db.records.lookup k = some b)
    (outcome : Outcome) :
    (writeOutcome db k outcome).records.lookup j =
      if j = k then
        some ⟨{ b.fields with outcome := some outcome, terminal := true }, some (db.after retention)⟩
      else db.records.lookup j := by
  rw [lookup_writeOutcome, Db.fields, hb]
  rfl

variable (hinv : Inv h db)
include hinv

theorem Inv.acceptance_unique {a a' : Acceptance} (ha : a ∈ acceptances h)
    (ha' : a' ∈ acceptances h) (hF : a.fencing = a'.fencing) : a = a' :=
  List.inj_on_of_nodup_map hinv.distinct ha ha' hF

theorem Inv.of_holder {L F : Text} (hheld : db.holder L = some F) :
    ∃ a, lastClaim L h = some a ∧ a.fencing = F ∧
      ∃ b, db.records.lookup a.keys.record = some b ∧ b.fields.fencing = some F ∧
        b.fields.terminal = false := by
  obtain ⟨l, hl, rfl⟩ := Option.map_eq_some_iff.mp hheld
  obtain ⟨a, hclaim, hF, b, x, hb, hfencing, hopen, -⟩ := hinv.leased L l hl
  exact ⟨a, hclaim, hF, b, hb, hF ▸ hfencing, hopen⟩

theorem Inv.absent_of_free {k : Text} (hfree : (db.fields k).bind Fields.command = none) :
    db.records.lookup k = none := by
  cases hk : db.records.lookup k with
  | none => rfl
  | some b =>
    have hcommand := hinv.commanded k b hk
    simp only [Db.fields, hk, Option.map_some, Option.bind_some] at hfree
    simp [hfree] at hcommand

/-- Leases survive where the records behind them stay open as long. -/
theorem Inv.leased_of_kept {L : Text} {l : Lease} (hl : db.leases.lookup L = some l)
    (hkept : ∀ k b x, db.records.lookup k = some b → b.fields.fencing = some l.holder →
      b.fields.terminal = false → b.expires = some x → l.expires ≤ x →
      ∃ b', db'.records.lookup k = some b' ∧ b'.fields.fencing = some l.holder ∧
        b'.fields.terminal = false ∧ b'.expires = some x) : Leased h db' L l := by
  obtain ⟨a, hclaim, hF, b, x, hb, hfencing, hopen, hx, hle⟩ := hinv.leased L l hl
  obtain ⟨b', hb', hfencing', hopen', hx'⟩ := hkept _ b x hb (hF ▸ hfencing) hopen hx hle
  exact ⟨a, hclaim, hF, b', x, hb', hF ▸ hfencing', hopen', hx', hle⟩

theorem inv_drop {lease : Text} (hrecords : db'.records = db.records)
    (hleases : db'.leases = db.leases.erase lease) : Inv h db' := by
  constructor
  · exact hinv.distinct
  · exact hinv.fencing_ne
  · exact hinv.accepted
  · rw [hrecords]
    exact hinv.commanded
  · rw [hrecords]
    exact hinv.stems
  · intro L l hl
    have hold : db.leases.lookup L = some l := by
      by_cases hL : L = lease
      · rw [hleases, hL, Finmap.lookup_erase] at hl
        cases hl
      · rwa [hleases, Finmap.lookup_erase_ne hL] at hl
    refine hinv.leased_of_kept hold fun k b x hb hF hopen hx _ => ⟨b, ?_, hF, hopen, hx⟩
    rw [hrecords, hb]

theorem inv_expire {now : ℕ} (hrecords : ∀ k, db'.records.lookup k =
      if expired now ((db.records.lookup k).bind Binding.expires) then none
      else db.records.lookup k)
    (hleases : ∀ k, db'.leases.lookup k =
      if expired now ((db.leases.lookup k).map Lease.expires) then none
      else db.leases.lookup k) : Inv h db' := by
  have hold : ∀ k b, db'.records.lookup k = some b → db.records.lookup k = some b := by
    intro k b hb
    rw [hrecords] at hb
    split_ifs at hb
    exact hb
  constructor
  · exact hinv.distinct
  · exact hinv.fencing_ne
  · exact hinv.accepted
  · exact fun k b hb => hinv.commanded k b (hold k b hb)
  · exact fun k b F hb => hinv.stems k b F (hold k b hb)
  · intro L l hl
    rw [hleases] at hl
    split_ifs at hl with halive
    refine hinv.leased_of_kept hl fun k b x hb hF hopen hx hle => ⟨b, ?_, hF, hopen, hx⟩
    -- the record does not expire before the lease on it
    have hlive : ¬ expired now (some x) = true := by
      simp only [hl, Option.map_some, expired, decide_eq_true_eq, not_le] at halive ⊢
      omega
    rw [hrecords, hb, Option.bind_some, hx, if_neg hlive]

theorem inv_reset {r : Addressed} {count : ℕ}
    (hfree : (db.fields r.record).bind Fields.command = none)
    (hrecords : ∀ k, db'.records.lookup k = if k = r.record then
      some ⟨bindReset r count ((db.fields r.record).getD .empty), some (db.after retention)⟩
      else db.records.lookup k)
    (hleases : db'.leases = db.leases) : Inv h db' := by
  have habsent := hinv.absent_of_free hfree
  have hfields : db.fields r.record = none := by rw [Db.fields, habsent]; rfl
  constructor
  · exact hinv.distinct
  · exact hinv.fencing_ne
  · exact hinv.accepted
  · intro k b hb
    rw [hrecords] at hb
    split_ifs at hb with hk
    · obtain rfl := Option.some.inj hb
      rfl
    · exact hinv.commanded k b hb
  · intro k b F hb hF
    rw [hrecords] at hb
    split_ifs at hb with hk
    · obtain rfl := Option.some.inj hb
      rw [hfields] at hF
      cases hF
    · exact hinv.stems k b F hb hF
  · intro L l hl
    rw [hleases] at hl
    refine hinv.leased_of_kept hl fun k b x hb hF hopen hx _ => ⟨b, ?_, hF, hopen, hx⟩
    have hk : k ≠ r.record := by
      rintro rfl
      rw [habsent] at hb
      cases hb
    rw [hrecords, if_neg hk, hb]

theorem Inv.written {k₀ : Text} {b₀ : Binding} {outcome : Outcome}
    (hb₀ : db.records.lookup k₀ = some b₀)
    (hrecords : db'.records = (writeOutcome db k₀ outcome).records) :
    (∀ k b, db'.records.lookup k = some b → b.fields.command.isSome = true) ∧
      ∀ k b F, db'.records.lookup k = some b → b.fields.fencing = some F →
        Stems h k F b.fields := by
  constructor
  · intro k b hb
    rw [hrecords, lookup_written hb₀] at hb
    split_ifs at hb with hk
    · obtain rfl := Option.some.inj hb
      exact hinv.commanded _ b₀ hb₀
    · exact hinv.commanded k b hb
  · intro k b F hb hbF
    rw [hrecords, lookup_written hb₀] at hb
    split_ifs at hb with hk
    · obtain rfl := Option.some.inj hb
      obtain ⟨hprogress, hcount, hanswer, -, hstem⟩ := hinv.stems _ b₀ F hb₀ hbF
      exact ⟨hprogress, hcount, hanswer, rfl, hk ▸ hstem⟩
    · exact hinv.stems k b F hb hbF

theorem inv_commit {c : Commit} (hlaw : Lawful h (.committed c))
    (hheld : db.holder c.keys.lease = some c.fencing)
    (hrecords : db'.records = (writeOutcome db c.keys.record c.outcome).records)
    (hleases : db'.leases = db.leases.erase c.keys.lease) : Inv h db' := by
  obtain ⟨a, hclaim, hF, b₀, hb₀, hfencing₀, -⟩ := hinv.of_holder hheld
  obtain ⟨ha, hlease⟩ := mem_of_lastClaim hclaim
  rw [(hlaw a ha hF).1] at hb₀
  obtain ⟨hcommanded, hstems⟩ := hinv.written hb₀ hrecords
  refine ⟨hinv.distinct, hinv.fencing_ne, hinv.accepted, hcommanded, hstems, ?_⟩
  intro L l hl
  have hL : L ≠ c.keys.lease := by
    rintro rfl
    rw [hleases, Finmap.lookup_erase] at hl
    cases hl
  rw [hleases, Finmap.lookup_erase_ne hL] at hl
  refine hinv.leased_of_kept hl fun k b x hb hbF hopen hx _ => ⟨b, ?_, hbF, hopen, hx⟩
  -- a second lease on this record would be held by the same command
  have hk : k ≠ c.keys.record := by
    rintro rfl
    obtain rfl := Option.some.inj (hb₀.symm.trans hb)
    have hholder : l.holder = c.fencing := Option.some.inj (hbF.symm.trans hfencing₀)
    obtain ⟨a', hclaim', hF', -⟩ := hinv.leased L l hl
    obtain ⟨ha', hlease'⟩ := mem_of_lastClaim hclaim'
    have hsame := hinv.acceptance_unique ha' ha (hF'.trans (hholder.trans hF.symm))
    exact hL (hlease'.symm.trans ((congrArg (fun a => a.keys.lease) hsame).trans hlease))
  rw [hrecords, lookup_written hb₀, if_neg hk, hb]

theorem inv_finalize {f : Finalize} {fields : Fields} (hlaw : Lawful h (.finalized f))
    (hfields : db.fields f.keys.record = some fields)
    (hlease : db.leases.lookup f.keys.lease = none)
    (hrecords : db'.records = (writeOutcome db f.keys.record f.outcome).records)
    (hleases : db'.leases = db.leases) : Inv h db' := by
  obtain ⟨b₀, hb₀, -⟩ := Option.map_eq_some_iff.mp hfields
  obtain ⟨hcommanded, hstems⟩ := hinv.written hb₀ hrecords
  refine ⟨hinv.distinct, hinv.fencing_ne, hinv.accepted, hcommanded, hstems, ?_⟩
  intro L l hl
  rw [hleases] at hl
  obtain ⟨a, hclaim, hF, b, x, hb, hbF, hopen, hx, hle⟩ := hinv.leased L l hl
  obtain ⟨ha, hL⟩ := mem_of_lastClaim hclaim
  -- the record of a live command has its lease held, and this one's is free
  have hk : a.keys.record ≠ f.keys.record := by
    intro hk
    rw [← hlaw a ha hk, hL, hl] at hlease
    cases hlease
  have hkept : db'.records.lookup a.keys.record = some b := by
    rw [hrecords, lookup_written hb₀, if_neg hk, hb]
  exact ⟨a, hclaim, hF, b, x, hkept, hbF, hopen, hx, hle⟩

theorem inv_batch {b : Batch} (hm : mark ev = .advanced b)
    (hlaw : Lawful h (.advanced b)) (hheld : db.holder b.keys.lease = some b.fencing)
    (hrecords : db'.records =
      (db.hset b.keys.record fun f => { f with progress := some b.progress }).records)
    (hleases : db'.leases = db.leases) : Inv (h ++ [ev]) db' := by
  obtain ⟨a, hclaim, hF, b₀, hb₀, hfencing₀, hopen₀⟩ := hinv.of_holder hheld
  obtain ⟨ha, -⟩ := mem_of_lastClaim hclaim
  have hkeys := hlaw a ha hF
  rw [hkeys.1] at hb₀
  have hlookup : ∀ k, db'.records.lookup k =
      if k = b.keys.record then
        some { b₀ with fields := { b₀.fields with progress := some b.progress } }
      else db.records.lookup k := by
    intro k
    rw [hrecords, lookup_hset, hb₀]
    rfl
  have hacc : acceptances (h ++ [ev]) = acceptances h := by
    rw [acceptances_snoc, hm]
    exact List.append_nil _
  constructor
  · rw [hacc]
    exact hinv.distinct
  · rw [hacc]
    exact hinv.fencing_ne
  · intro F hne
    rw [hacc]
    rw [batches_snoc, hm] at hne
    by_cases hFb : b.fencing = F
    · exact ⟨a, ha, hF.trans hFb⟩
    · refine hinv.accepted F fun hnil => hne ?_
      simp [hnil, Mark.batch, hFb]
  · intro k b' hb'
    rw [hlookup] at hb'
    split_ifs at hb' with hk
    · obtain rfl := Option.some.inj hb'
      exact hinv.commanded _ b₀ hb₀
    · exact hinv.commanded k b' hb'
  · intro k b' F hb' hbF
    unfold Stems
    rw [hacc, lastProgress_of_advanced hm]
    rw [hlookup] at hb'
    split_ifs at hb' with hk
    · obtain rfl := Option.some.inj hb'
      obtain ⟨-, hcount, hanswer, houtcome, hstem⟩ := hinv.stems _ b₀ F hb₀ hbF
      rw [if_pos (Option.some.inj (hfencing₀.symm.trans hbF))]
      exact ⟨rfl, hcount, hanswer, houtcome, hk ▸ hstem⟩
    · obtain ⟨hprogress, hcount, hanswer, houtcome, a', ha', hF', hk', hcommand⟩ :=
        hinv.stems k b' F hb' hbF
      -- one fencing value stands for one record
      have hFb : b.fencing ≠ F := by
        rintro rfl
        obtain rfl := hinv.acceptance_unique ha' ha (hF'.trans hF.symm)
        exact hk (hk'.symm.trans hkeys.1)
      rw [if_neg hFb]
      exact ⟨hprogress, hcount, hanswer, houtcome, a', ha', hF', hk', hcommand⟩
  · intro L l hl
    rw [hleases] at hl
    unfold Leased
    rw [lastClaim_of_unbound (by rw [hm]; rfl)]
    refine hinv.leased_of_kept hl fun k b' x hb' hbF hopen hx _ => ?_
    rw [hlookup]
    split_ifs with hk
    · subst hk
      obtain rfl := Option.some.inj (hb₀.symm.trans hb')
      exact ⟨_, rfl, hbF, hopen, hx⟩
    · exact ⟨b', hb', hbF, hopen, hx⟩

theorem inv_bind {a : Acceptance} (hm : mark ev = .bound a) (hlaw : Lawful h (.bound a))
    (hfree : (db.fields a.keys.record).bind Fields.command = none)
    (hrecords : ∀ k, db'.records.lookup k = (bindCommand db a).records.lookup k)
    (hleases : db'.leases = db.leases.insert a.keys.lease ⟨a.fencing, db.after a.leaseTTL⟩) :
    Inv (h ++ [ev]) db' := by
  obtain ⟨hne, httl, hfresh⟩ := hlaw
  have habsent := hinv.absent_of_free hfree
  have hacc : acceptances (h ++ [ev]) = acceptances h ++ [a] := by
    rw [acceptances_snoc, hm]
    rfl
  have hidle : (mark ev).batch = none := by rw [hm]; rfl
  have hlookup : ∀ k, db'.records.lookup k =
      if k = a.keys.record then
        some ⟨{ Fields.empty with command := some a.command, fencing := some a.fencing },
          some (db.after retention)⟩
      else db.records.lookup k := by
    intro k
    rw [hrecords, lookup_bindCommand, Db.fields, habsent]
    rfl
  constructor
  · rw [hacc, List.map_append, List.nodup_append]
    refine ⟨hinv.distinct, List.nodup_singleton _, ?_⟩
    intro F hF F' hF' heq
    obtain ⟨a', ha', rfl⟩ := List.mem_map.mp hF
    exact hfresh a' ha' (heq.trans (List.mem_singleton.mp hF'))
  · intro a' ha'
    rw [hacc] at ha'
    rcases List.mem_append.mp ha' with hold | hnew
    · exact hinv.fencing_ne a' hold
    · exact List.mem_singleton.mp hnew ▸ hne
  · intro F hF
    rw [batches_snoc, hidle] at hF
    obtain ⟨a', ha', hF'⟩ := hinv.accepted F (by simpa using hF)
    exact ⟨a', hacc ▸ List.mem_append_left _ ha', hF'⟩
  · intro k b hb
    rw [hlookup] at hb
    split_ifs at hb with hk
    · obtain rfl := Option.some.inj hb
      rfl
    · exact hinv.commanded k b hb
  · intro k b F hb hF
    unfold Stems
    rw [hacc, lastProgress_of_idle hidle]
    rw [hlookup] at hb
    split_ifs at hb with hk
    · obtain rfl := Option.some.inj hb
      obtain rfl := Option.some.inj hF
      -- a batch of this command would have been accepted before
      have hnone : batches a.fencing h = [] := by
        by_contra hsome
        obtain ⟨a', ha', hF'⟩ := hinv.accepted a.fencing hsome
        exact hfresh a' ha' hF'
      refine ⟨?_, rfl, rfl, rfl, a, List.mem_append_right _ (List.mem_singleton_self a), rfl,
        hk.symm, rfl⟩
      rw [lastProgress, hnone]
      rfl
    · obtain ⟨hprogress, hcount, hanswer, houtcome, a', ha', hstem⟩ := hinv.stems k b F hb hF
      exact ⟨hprogress, hcount, hanswer, houtcome, a', List.mem_append_left _ ha', hstem⟩
  · intro L l hl
    unfold Leased
    rw [lastClaim_of_bound hm]
    rw [hleases] at hl
    by_cases hL : L = a.keys.lease
    · rw [hL, Finmap.lookup_insert] at hl
      obtain rfl := Option.some.inj hl
      have hnew := hlookup a.keys.record
      rw [if_pos rfl] at hnew
      exact ⟨a, if_pos hL.symm, rfl, _, db.after retention, hnew, rfl, rfl, rfl,
        Nat.add_le_add_left (Nat.mul_le_mul_right 1000 httl) _⟩
    · rw [Finmap.lookup_insert_of_ne _ hL] at hl
      rw [if_neg (Ne.symm hL)]
      refine hinv.leased_of_kept hl fun k b x hb hbF hopen hx _ => ⟨b, ?_, hbF, hopen, hx⟩
      have hk : k ≠ a.keys.record := by
        rintro rfl
        rw [habsent] at hb
        cases hb
      rw [hlookup, if_neg hk, hb]

theorem inv_step (hlaw : Lawful h (mark ev)) (hreply : Replied db ev) :
    Inv (h ++ [ev]) (redis.apply db ev) := by
  have hchange := change_apply hreply
  generalize hm : mark ev = m at hchange hlaw
  have hquiet : m = .none → Inv h (redis.apply db ev) → Inv (h ++ [ev]) (redis.apply db ev) :=
    fun hnone => Inv.of_unmarked (by rw [hm, hnone]; rfl) (by rw [hm, hnone]; rfl)
  cases hchange with
  | silent hrecords hleases =>
    refine hquiet rfl ?_
    constructor
    · exact hinv.distinct
    · exact hinv.fencing_ne
    · exact hinv.accepted
    · rw [hrecords]
      exact hinv.commanded
    · rw [hrecords]
      exact hinv.stems
    · unfold Leased
      rw [hrecords, hleases]
      exact hinv.leased
  | bind a hfree hlease hrecords hleases => exact inv_bind hinv hm hlaw hfree hrecords hleases
  | batch b hheld hrecords hleases => exact inv_batch hinv hm hlaw hheld hrecords hleases
  | commit c hheld hrecords hleases =>
    exact (inv_commit hinv hlaw hheld hrecords hleases).of_unmarked (by rw [hm]; rfl) (by rw [hm]; rfl)
  | finalize f fields hfields hopen hlease hrecords hleases =>
    exact (inv_finalize hinv hlaw hfields hlease hrecords hleases).of_unmarked (by rw [hm]; rfl)
      (by rw [hm]; rfl)
  | reset r count hfree hrecords hleases => exact hquiet rfl (inv_reset hinv hfree hrecords hleases)
  | expire now hrecords hleases => exact hquiet rfl (inv_expire hinv hrecords hleases)
  | drop lease hrecords hleases => exact hquiet rfl (inv_drop hinv hrecords hleases)

end Preservation

theorem Run.inv {h : List Ev} (run : Run h) : Inv h (after h) := by
  induction run with
  | start =>
    constructor
    · exact List.nodup_nil
    · exact fun a ha => absurd ha List.not_mem_nil
    · exact fun F hF => absurd rfl hF
    · exact fun k b hb => absurd hb (by simp [after, Server.replay, Db.empty])
    · exact fun k b F hb => absurd hb (by simp [after, Server.replay, Db.empty])
    · exact fun L l hl => absurd hl (by simp [after, Server.replay, Db.empty])
  | step run lawful reply ih =>
    rw [after_snoc]
    exact inv_step ih lawful reply

end Ratelimit.Records
