import Ratelimit.Management.Service

/-!
# What a recorded outcome discloses

A terminal outcome is written by the walker of the command or by a retry that finds it
abandoned. It discloses what the last executed batch told, as long as the record is retained.
A walker whose batch failed reads the record back and then commits what it read, so a batch
that runs late, between the two, goes undisclosed.
-/
namespace Ratelimit.Management

open Library Records

section Batches

variable {std : Stdlib} {cs : Schedule} {pre post : List Ev} {i : ℕ} {t : Replica} {c : BulkCall}
  {a : Admitted} {τ : Seen}

def okBatch : ((r : Req) × Reply r) → Option Batch
  | ⟨.batch b, .ok⟩ => some b
  | _ => none

def okBatches (l : List ((r : Req) × Reply r)) : List Batch := l.filterMap okBatch

theorem batches_eq_served (hunique : (fencings cs).Nodup) (h : (serve std cs).history = pre ++ post)
    (ht : (serve std cs).threads[i]? = some t) (hcall : t.call = .bulk c)
    (hlate : ∀ o b, .ran ⟨i, true, o, .batch b, .ok⟩ ∉ pre) :
    batches c.fencing pre = okBatches (served i pre) := by
  unfold batches okBatches served
  rw [List.filter_filterMap, List.filterMap_filterMap]
  refine List.filterMap_congr fun ev hev => ?_
  cases ev with
  | env e => rfl
  | ran e =>
    obtain ⟨j, late, o, r, v⟩ := e
    have hquiet : ∀ {m : Option Batch}, m = none → okBatch ⟨r, v⟩ = none →
        m.filter (fun b => decide (b.fencing = c.fencing)) =
          (if j = i ∧ late = false then some (⟨r, v⟩ : (r : Req) × Reply r) else none).bind okBatch := by
      rintro m rfl hnone
      split_ifs
      · exact hnone.symm
      · rfl
    cases r with
    | batch b =>
      cases v with
      | lost => exact hquiet rfl rfl
      | ok =>
        obtain ⟨pre', mid, rfl⟩ := List.append_of_mem hev
        rw [List.append_assoc, List.cons_append] at h
        obtain ⟨t', a', τ', hsent⟩ := bulk_ran h rfl
        obtain ⟨-, hfencing, -⟩ := hsent.permitted
        have hiff : b.fencing = c.fencing ↔ j = i ∧ late = false := by
          constructor
          · intro hF
            obtain rfl : j = i :=
              owner_unique hunique hsent.thread ht hsent.call hcall (hfencing.symm.trans hF)
            cases late with
            | false => exact ⟨rfl, rfl⟩
            | true => exact absurd hev (hlate o b)
          · rintro ⟨rfl, -⟩
            obtain rfl := Option.some.inj (hsent.thread.symm.trans ht)
            rw [hfencing, Call.bulk.inj (hsent.call.symm.trans hcall)]
        by_cases hF : b.fencing = c.fencing
        · simp [mark, Mark.batch, okBatch, hF, hiff.mp hF]
        · dsimp only
          rw [if_neg (mt hiff.mpr hF)]
          simp [mark, Mark.batch, hF]
    | accept x => cases v <;> exact hquiet rfl rfl
    | commit x => cases v <;> exact hquiet rfl rfl
    | finalize x => cases v <;> exact hquiet rfl rfl
    | reset | fields | holder | pttl | put | get | scan | peek | clock => exact hquiet rfl rfl

theorem batch_before_commit (ht : (serve std cs).threads[i]? = some t) {x : Commit} {b : Batch}
    {v : Option WriteVerdict} {v' : Option WriteVerdict} {τ₁ : Seen}
    (hcommit : τ ++ [⟨.commit x, v'⟩] <+: t.transcript)
    (hbatch : τ₁ ++ [⟨.batch b, v⟩] <+: t.transcript) : τ₁ ++ [⟨.batch b, v⟩] <+: τ := by
  rcases List.prefix_or_prefix_of_prefix hbatch hcommit with hle | hle
  · rcases prefix_snoc hle with ⟨-, heq⟩ | hle
    · cases heq
    · exact hle
  · rcases prefix_snoc hle with ⟨-, heq⟩ | hle
    · cases heq
    · have hallowed := (serve_traced std cs).sent i t ht τ₁ _ hbatch
      have hmade : 0 < made isCommit τ₁ :=
        List.countP_pos_iff.mpr
          ⟨_, hle.subset (List.mem_append_right _ (List.mem_singleton_self _)), rfl⟩
      cases hcall : t.call with
      | bulk c =>
        rw [hcall] at hallowed
        obtain ⟨a, -, -, -, hnone, -⟩ := hallowed
        omega
      | reset c =>
        rw [hcall] at hallowed
        obtain ⟨a, -, hpermits⟩ := hallowed
        exact hpermits.elim

theorem okBatches_append (l l' : List ((r : Req) × Reply r)) :
    okBatches (l ++ l') = okBatches l ++ okBatches l' := List.filterMap_append

theorem okBatches_transcript (ht : (serve std cs).threads[i]? = some t) {x : Commit}
    {v : Option WriteVerdict} (hcommit : τ ++ [⟨.commit x, v⟩] <+: t.transcript) :
    okBatches (answeredCalls t.transcript) = okBatches (answeredCalls τ) := by
  obtain ⟨rest, hrest⟩ := (List.prefix_append τ [⟨.commit x, v⟩]).trans hcommit
  have hnone : okBatches (answeredCalls rest) = [] := by
    refine List.filterMap_eq_nil_iff.mpr fun p hp => ?_
    obtain ⟨⟨r, _ | v'⟩, hmem, hp⟩ := List.mem_filterMap.mp hp
    · cases hp
    obtain rfl := Option.some.inj hp
    cases r with
    | batch b =>
      obtain ⟨r₁, r₂, rfl⟩ := List.append_of_mem hmem
      have hbatch : (τ ++ r₁) ++ [⟨.batch b, some v'⟩] <+: t.transcript :=
        ⟨r₂, by rw [← hrest]; simp⟩
      have hlength := (batch_before_commit ht hcommit hbatch).length_le
      simp only [List.length_append, List.length_singleton] at hlength
      omega
    | _ => rfl
  rw [← hrest, answeredCalls_append, okBatches_append, hnone, List.append_nil]

theorem okBatches_of_allRan (h : AllRan τ) :
    okBatches (answeredCalls τ) = (batchesIn τ).map Prod.fst := by
  induction τ using List.reverseRecOn with
  | nil => rfl
  | append_singleton τ x ih =>
    have hτ : AllRan τ := fun p hp => h p (by rw [batchesIn_snoc]; exact List.mem_append_left _ hp)
    rw [answeredCalls_append, okBatches_append, ih hτ, batchesIn_snoc, List.map_append]
    congr 1
    obtain ⟨r, v⟩ := x
    cases r with
    | batch b =>
      have hv : v = some .ok := h (b, v) (by rw [batchesIn_snoc]; simp [batchOf])
      rw [hv]
      rfl
    | _ => cases v <;> rfl

theorem okBatches_served (h : (serve std cs).history = pre ++ post)
    (ht : (serve std cs).threads[i]? = some t) {x : Commit} {v : Option WriteVerdict}
    (hcommit : τ ++ [⟨.commit x, v⟩] <+: t.transcript) (hτ : answeredCalls τ <+: served i pre) :
    okBatches (served i pre) = okBatches (answeredCalls τ) := by
  have hle : served i pre <+: answeredCalls t.transcript := by
    rw [(serve_traced std cs).served_eq i t ht, h, served_append]
    exact List.prefix_append _ _
  have hbelow := hle.filterMap okBatch
  rw [show (answeredCalls t.transcript).filterMap okBatch = okBatches (answeredCalls τ) from
    okBatches_transcript ht hcommit] at hbelow
  exact hbelow.eq_of_length_le (hτ.filterMap okBatch).length_le

end Batches

section Outcomes

variable {std : Stdlib} {cs : Schedule} {pre : List Ev} {c : BulkCall} {x : Commit}

theorem batches_walked (hunique : (fencings cs).Nodup) {i : ℕ} {late : Bool} {o : Oracle}
    {post : List Ev} {t : Replica} {a : Admitted} {τ : Seen} {v : WriteVerdict}
    (hsplit : (serve std cs).history = pre ++ .ran ⟨i, late, o, .commit x, v⟩ :: post)
    (hsent : SentFor std (serve std cs) pre ⟨i, late, o, .commit x, v⟩ t a τ) (hran : AllRan τ) :
    batches a.call.fencing pre = (batchesIn τ).map Prod.fst := by
  have hlate : ∀ o b, .ran ⟨i, true, o, .batch b, .ok⟩ ∉ pre := by
    intro o' b hmem
    obtain ⟨p, q, rfl⟩ := List.append_of_mem hmem
    rw [List.append_assoc, List.cons_append] at hsplit
    obtain ⟨-, t', ht', -, τ₁, hτ₁, -⟩ := (serve_traced std cs).ran _ _ _ hsplit
    obtain rfl := Option.some.inj (hsent.thread.symm.trans ht')
    have hle := batch_before_commit hsent.thread hsent.sent hτ₁
    have hfailed : (b, none) ∈ batchesIn τ :=
      List.mem_filterMap.mpr
        ⟨_, hle.subset (List.mem_append_right _ (List.mem_singleton_self _)), rfl⟩
    cases hran _ hfailed
  rw [batches_eq_served hunique hsplit hsent.thread hsent.call hlate,
    okBatches_served hsplit hsent.thread hsent.sent hsent.answered, okBatches_of_allRan hran]

end Outcomes

end Ratelimit.Management
