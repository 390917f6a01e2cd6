import Ratelimit.Library.Interleaving

/-!
# What every schedule keeps

What callers may have sent is bounded by the contracts of their programs, and the
server is what its history made of it. `Traced` ties the two together, step by
step and so for every schedule.
-/
namespace Ratelimit.Library

variable {S Req C O E A : Type} {Reply : Req → Type}

section Lists

variable {α : Type}

theorem split_snoc {xs pre post : List α} {x y : α} (h : xs ++ [x] = pre ++ y :: post) :
    (xs = pre ∧ x = y) ∨ ∃ post', xs = pre ++ y :: post' := by
  rcases List.eq_nil_or_concat post with rfl | ⟨post', z, rfl⟩
  · exact Or.inl (List.append_inj' h rfl |>.imp_right fun hxy => (List.cons.inj hxy).1)
  · right
    rw [List.concat_eq_append, ← List.cons_append, ← List.append_assoc] at h
    exact ⟨post', (List.append_inj' h rfl).1⟩

theorem prefix_snoc {xs ys : List α} {x y : α} (h : xs ++ [x] <+: ys ++ [y]) :
    (xs = ys ∧ x = y) ∨ xs ++ [x] <+: ys := by
  rcases List.prefix_concat_iff.mp h with heq | hpre
  · exact Or.inl (List.append_inj' heq rfl |>.imp_right fun hxy => (List.cons.inj hxy).1)
  · exact Or.inr hpre

theorem prefix_of_lt {pre post pre' post' : List α} {x : α} (h : pre ++ x :: post = pre' ++ post')
    (hlt : pre.length < pre'.length) :
    pre ++ [x] <+: pre' := by
  have hle : pre ++ [x] <+: pre' ++ post' := ⟨post, by rw [← h]; simp⟩
  exact List.prefix_of_prefix_length_le hle (List.prefix_append _ _) (by simpa using hlt)

/-- What holds at the end came about at some event, and no later one put an end to it. -/
theorem exists_since {P : List α → Prop} {Starts Ends : α → Prop} (hnil : ¬ P [])
    (hstep : ∀ xs x, P (xs ++ [x]) → Starts x ∨ P xs ∧ ¬ Ends x) {xs : List α} (h : P xs) :
    ∃ p x q, xs = p ++ x :: q ∧ Starts x ∧ ∀ y ∈ q, ¬ Ends y := by
  induction xs using List.reverseRecOn with
  | nil => exact absurd h hnil
  | append_singleton xs x ih =>
    rcases hstep xs x h with hstarts | ⟨hholds, hends⟩
    · exact ⟨xs, x, [], rfl, hstarts, fun _ hy => absurd hy List.not_mem_nil⟩
    · obtain ⟨p, x', q, rfl, hstarts, hq⟩ := ih hholds
      refine ⟨p, x', q ++ [x], by simp, hstarts, List.forall_mem_append.mpr ⟨hq, ?_⟩⟩
      exact List.forall_mem_singleton.mpr hends

theorem mem_between {pre mid post pre' post' : List α} {x y : α}
    (h : pre ++ x :: (mid ++ post) = pre' ++ y :: post') (hlt : pre.length < pre'.length)
    (hle : pre'.length ≤ pre.length + mid.length) : y ∈ mid := by
  have hy : (pre ++ x :: (mid ++ post))[pre'.length]? = some y := by
    rw [h, List.getElem?_append_right le_rfl, Nat.sub_self]
    rfl
  obtain ⟨n, hn⟩ := Nat.exists_eq_add_of_lt hlt
  rw [List.getElem?_append_right hlt.le, hn, Nat.add_assoc, Nat.add_sub_cancel_left,
    List.getElem?_cons_succ, List.getElem?_append_left (by omega)] at hy
  exact List.mem_of_getElem? hy

theorem position_unique {β : Type} {f : α → Option β} {xs : List α} (h : (xs.filterMap f).Nodup)
    {i j : ℕ} {x y : α} {z : β} (hi : xs[i]? = some x) (hj : xs[j]? = some y) (hx : f x = some z)
    (hy : f y = some z) : i = j := by
  obtain ⟨hilt, rfl⟩ := List.getElem?_eq_some_iff.mp hi
  obtain ⟨hjlt, rfl⟩ := List.getElem?_eq_some_iff.mp hj
  have hpairs := List.pairwise_iff_getElem.mp (List.pairwise_filterMap.mp h)
  rcases lt_trichotomy i j with hlt | heq | hlt
  · exact absurd rfl (hpairs i j hilt hjlt hlt z hx z hy)
  · exact heq
  · exact absurd rfl (hpairs j i hjlt hilt hlt z hy z hx)

end Lists

section Traces

variable {srv : Server S Req Reply O E} {s₀ : S} {program : C → Prog Req Reply A}
  {P : C → Transcript Reply → Req → Prop} {Q : C → Transcript Reply → A → Prop}
  {w : World S C Reply O E A} {threads threads' : List (Thread C Reply A)}
  {h h' : List (Event Reply O E)} {i : ℕ} {t : Thread C Reply A} {r : Req}

/-- The request was made by a caller with what it had seen by then, all of which
the server had executed. -/
def SentBy (threads : List (Thread C Reply A)) (h : List (Event Reply O E)) (i : ℕ) (r : Req)
    (v : Option (Reply r)) : Prop :=
  ∃ t : Thread C Reply A, threads[i]? = some t ∧ t.since ≤ h.length ∧
    ∃ τ, τ ++ [⟨r, v⟩] <+: t.transcript ∧ answeredCalls τ <+: served i h

/-- Later threads: some have seen more, some are new. -/
def Extends (threads threads' : List (Thread C Reply A)) : Prop :=
  ∀ (i : ℕ) (t : Thread C Reply A), threads[i]? = some t →
    ∃ t' : Thread C Reply A, threads'[i]? = some t' ∧ t'.call = t.call ∧
    t'.since = t.since ∧ t.transcript <+: t'.transcript

structure Traced (srv : Server S Req Reply O E) (s₀ : S) (P : C → Transcript Reply → Req → Prop)
    (Q : C → Transcript Reply → A → Prop) (w : World S C Reply O E A) : Prop where
  server_eq : w.server = srv.replay s₀ w.history
  obeys : ∀ (i : ℕ) (t : Thread C Reply A), w.threads[i]? = some t →
    Obeys (P t.call) (Q t.call) t.transcript t.rest
  sent : ∀ (i : ℕ) (t : Thread C Reply A), w.threads[i]? = some t →
    ∀ τ x, τ ++ [x] <+: t.transcript → P t.call τ x.1
  served_eq : ∀ (i : ℕ) (t : Thread C Reply A), w.threads[i]? = some t →
    answeredCalls t.transcript = served i w.history
  since_le : ∀ (i : ℕ) (t : Thread C Reply A), w.threads[i]? = some t → t.since ≤ w.history.length
  late : ∀ x ∈ w.late, SentBy w.threads w.history x.1 x.2 none
  ran : ∀ pre e post, w.history = pre ++ .ran e :: post →
    e.reply = (srv.exec (srv.replay s₀ pre) e.request e.oracle).2 ∧
      SentBy w.threads pre e.owner e.request (if e.late then none else some e.reply)
  counts : ∀ (M : Req → Bool) (i : ℕ) (t : Thread C Reply A), w.threads[i]? = some t →
    executed M i w.history + outstanding M i w.late ≤ t.transcript.countP fun x => M x.1

theorem SentBy.extends {v : Option (Reply r)} (hsent : SentBy threads h i r v)
    (hext : Extends threads threads') : SentBy threads' h i r v := by
  obtain ⟨t, ht, hsince, τ, hτ, hanswered⟩ := hsent
  obtain ⟨t', ht', -, hsince', htranscript⟩ := hext i t ht
  exact ⟨t', ht', hsince' ▸ hsince, τ, hτ.trans htranscript, hanswered⟩

theorem served_append (i : ℕ) (h h' : List (Event Reply O E)) :
    served i (h ++ h') = served i h ++ served i h' := List.filterMap_append

theorem SentBy.later {v : Option (Reply r)} (hsent : SentBy threads h i r v) (hle : h <+: h') :
    SentBy threads h' i r v := by
  obtain ⟨t, ht, hsince, τ, hτ, hanswered⟩ := hsent
  refine ⟨t, ht, hsince.trans hle.length_le, τ, hτ, hanswered.trans ?_⟩
  obtain ⟨more, rfl⟩ := hle
  rw [served_append]
  exact List.prefix_append _ _

theorem extends_spawn (new : Thread C Reply A) : Extends threads (threads ++ [new]) := by
  intro i t ht
  refine ⟨t, ?_, rfl, rfl, List.prefix_rfl⟩
  rw [List.getElem?_append_left]
  · exact ht
  · exact (List.getElem?_eq_some_iff.mp ht).1

theorem extends_saw {x : Exchange Reply} {rest : Prog Req Reply A} (ht : threads[i]? = some t) :
    Extends threads (threads.set i (t.saw x rest)) := by
  intro j u hu
  rw [List.getElem?_set]
  split_ifs with hij hlen
  · subst hij
    obtain rfl := Option.some.inj (ht.symm.trans hu)
    exact ⟨_, rfl, rfl, rfl, List.prefix_append _ _⟩
  · exact absurd (List.getElem?_eq_some_iff.mp ht).1 hlen
  · exact ⟨u, hu, rfl, rfl, List.prefix_rfl⟩

theorem getElem?_saw {x : Exchange Reply} {rest : Prog Req Reply A} {j : ℕ} {u : Thread C Reply A}
    (hu : (threads.set i (t.saw x rest))[j]? = some u) :
    (j ≠ i ∧ threads[j]? = some u) ∨ (j = i ∧ u = t.saw x rest) := by
  rw [List.getElem?_set] at hu
  split_ifs at hu with hij
  · exact Or.inr ⟨hij.symm, (Option.some.inj hu).symm⟩
  · exact Or.inl ⟨fun hji => hij hji.symm, hu⟩

theorem answeredCalls_append (τ τ' : Transcript Reply) :
    answeredCalls (τ ++ τ') = answeredCalls τ ++ answeredCalls τ' :=
  List.filterMap_append

theorem executed_append (M : Req → Bool) (i : ℕ) (h h' : List (Event Reply O E)) :
    executed M i (h ++ h') = executed M i h + executed M i h' := List.countP_append

theorem Traced.owner_lt (hw : Traced srv s₀ P Q w) {e : Entry Reply O} (he : .ran e ∈ w.history) :
    e.owner < w.threads.length := by
  obtain ⟨pre, post, hsplit⟩ := List.append_of_mem he
  obtain ⟨-, t, ht, -⟩ := hw.ran pre e post hsplit
  exact (List.getElem?_eq_some_iff.mp ht).1

theorem Traced.served_new (hw : Traced srv s₀ P Q w) : served w.threads.length w.history = [] := by
  refine List.filterMap_eq_nil_iff.mpr fun ev hev => ?_
  cases ev with
  | env e => rfl
  | ran e => exact if_neg fun howner => (hw.owner_lt hev).ne howner.1

theorem Traced.executed_absent (hw : Traced srv s₀ P Q w) (M : Req → Bool)
    (hi : w.threads.length ≤ i) : executed M i w.history = 0 := by
  refine List.countP_eq_zero.mpr fun ev hev => ?_
  cases ev with
  | env e => simp
  | ran e =>
    have hlt := hw.owner_lt hev
    have hne : e.owner ≠ i := by omega
    simp [hne]

theorem Traced.outstanding_new (hw : Traced srv s₀ P Q w) (M : Req → Bool) :
    outstanding M w.threads.length w.late = 0 := by
  refine List.countP_eq_zero.mpr fun x hx => ?_
  obtain ⟨t, ht, -⟩ := hw.late x hx
  have hlt := (List.getElem?_eq_some_iff.mp ht).1
  simp [hlt.ne]

theorem traced_init (srv : Server S Req Reply O E) (s : S) :
    Traced srv s P Q (World.init s : World S C Reply O E A) where
  server_eq := rfl
  obeys := by simp [World.init]
  sent := by simp [World.init]
  served_eq := by simp [World.init]
  since_le := by simp [World.init]
  late := by simp [World.init]
  ran := by simp [World.init]
  counts := by simp [World.init]

theorem traced_spawn (hprogram : ∀ c, Obeys (P c) (Q c) [] (program c)) (hw : Traced srv s₀ P Q w)
    (c : C) :
    Traced srv s₀ P Q (step srv program w (.spawn c)) := by
  have hext : Extends w.threads (w.threads ++ [⟨c, w.history.length, [], program c⟩]) :=
    extends_spawn _
  have hcases : ∀ (i : ℕ) (t : Thread C Reply A),
      (w.threads ++ [⟨c, w.history.length, [], program c⟩])[i]? = some t →
        w.threads[i]? = some t ∨
          (i = w.threads.length ∧ t = ⟨c, w.history.length, [], program c⟩) := by
    intro i t ht
    rw [List.getElem?_append] at ht
    split_ifs at ht with hlt
    · exact Or.inl ht
    · right
      obtain ⟨hlt', hget⟩ := List.getElem?_eq_some_iff.mp ht
      rw [List.length_singleton] at hlt'
      refine ⟨by omega, ?_⟩
      rw [← hget, List.getElem_singleton]
  constructor
  · exact hw.server_eq
  · intro i t ht
    rcases hcases i t ht with hold | ⟨rfl, rfl⟩
    · exact hw.obeys i t hold
    · exact hprogram c
  · intro i t ht τ x hx
    rcases hcases i t ht with hold | ⟨rfl, rfl⟩
    · exact hw.sent i t hold τ x hx
    · exact absurd (List.prefix_nil.mp hx) (by simp)
  · intro i t ht
    rcases hcases i t ht with hold | ⟨rfl, rfl⟩
    · exact hw.served_eq i t hold
    · exact hw.served_new.symm
  · intro i t ht
    rcases hcases i t ht with hold | ⟨rfl, rfl⟩
    · exact hw.since_le i t hold
    · exact le_rfl
  · exact fun x hx => (hw.late x hx).extends hext
  · intro pre e post hsplit
    obtain ⟨hreply, hsent⟩ := hw.ran pre e post hsplit
    exact ⟨hreply, hsent.extends hext⟩
  · intro M i t ht
    rcases hcases i t ht with hold | ⟨rfl, rfl⟩
    · exact hw.counts M i t hold
    · exact (Nat.add_eq_zero_iff.mpr ⟨hw.executed_absent M le_rfl, hw.outstanding_new M⟩).le

theorem traced_env (hw : Traced srv s₀ P Q w) (e : E) :
    Traced srv s₀ P Q (step srv program w (.env e)) := by
  have hserved : ∀ i, served i (w.history ++ [.env e]) = served i w.history := by
    intro i
    rw [served_append]
    exact List.append_nil _
  constructor
  · change srv.env w.server e = srv.replay s₀ (w.history ++ [.env e])
    rw [replay_append, ← hw.server_eq]
    rfl
  · exact hw.obeys
  · exact hw.sent
  · intro i t ht
    exact (hw.served_eq i t ht).trans (hserved i).symm
  · intro i t ht
    exact (hw.since_le i t ht).trans (List.prefix_append _ _).length_le
  · exact fun x hx => (hw.late x hx).later (List.prefix_append _ _)
  · intro pre e' post hsplit
    rcases split_snoc hsplit with ⟨-, hne⟩ | ⟨post', hold⟩
    · cases hne
    · exact hw.ran pre e' post' hold
  · intro M i t ht
    change executed M i (w.history ++ [.env e]) + _ ≤ _
    rw [executed_append]
    exact hw.counts M i t ht

theorem Traced.sentBy_now (hw : Traced srv s₀ P Q w) {next : Option (Reply r) → Prog Req Reply A}
    (ht : w.threads[i]? = some t) (v : Option (Reply r)) :
    SentBy (w.threads.set i (t.saw ⟨r, v⟩ (next v))) w.history i r v := by
  have hlt := (List.getElem?_eq_some_iff.mp ht).1
  refine ⟨t.saw ⟨r, v⟩ (next v), List.getElem?_set_self hlt, hw.since_le i t ht, t.transcript,
    List.prefix_rfl, ?_⟩
  rw [hw.served_eq i t ht]

theorem Traced.obeys_saw (hw : Traced srv s₀ P Q w) {next : Option (Reply r) → Prog Req Reply A}
    (ht : w.threads[i]? = some t) (hrest : t.rest = .call r next) (v : Option (Reply r)) {j : ℕ}
    {u : Thread C Reply A} (hu : (w.threads.set i (t.saw ⟨r, v⟩ (next v)))[j]? = some u) :
    Obeys (P u.call) (Q u.call) u.transcript u.rest ∧
      ∀ τ x, τ ++ [x] <+: u.transcript → P u.call τ x.1 := by
  rcases getElem?_saw hu with ⟨-, hold⟩ | ⟨-, rfl⟩
  · exact ⟨hw.obeys j u hold, hw.sent j u hold⟩
  · have hobeys := hw.obeys i t ht
    rw [hrest] at hobeys
    refine ⟨hobeys.2 v, fun τ x hx => ?_⟩
    rcases prefix_snoc hx with ⟨rfl, rfl⟩ | hpre
    · exact hobeys.1
    · exact hw.sent i t ht τ x hpre

theorem traced_serve (hw : Traced srv s₀ P Q w) {next : Option (Reply r) → Prog Req Reply A}
    (ht : w.threads[i]? = some t) (hrest : t.rest = .call r next) (o : O) :
    Traced srv s₀ P Q (w.serve srv i t r next o) := by
  have hext : Extends w.threads (w.serve srv i t r next o).threads := extends_saw ht
  have hgrows : w.history <+: (w.serve srv i t r next o).history := List.prefix_append _ _
  constructor
  · change _ = srv.replay s₀ (w.history ++ [_])
    rw [replay_append, ← hw.server_eq]
    rfl
  · exact fun j u hu => (hw.obeys_saw ht hrest _ hu).1
  · exact fun j u hu => (hw.obeys_saw ht hrest _ hu).2
  · intro j u hu
    change _ = served j (w.history ++ [_])
    rw [served_append]
    rcases getElem?_saw hu with ⟨hne, hold⟩ | ⟨rfl, rfl⟩
    · rw [hw.served_eq j u hold]
      simp [served, hne.symm]
    · change answeredCalls (t.transcript ++ [_]) = _
      rw [answeredCalls_append, hw.served_eq j t ht]
      simp [served, answeredCalls]
  · intro j u hu
    refine le_trans ?_ hgrows.length_le
    rcases getElem?_saw hu with ⟨-, hold⟩ | ⟨-, rfl⟩
    · exact hw.since_le j u hold
    · exact hw.since_le i t ht
  · exact fun x hx => ((hw.late x hx).extends hext).later hgrows
  · intro pre e post hsplit
    rcases split_snoc hsplit with ⟨rfl, hnew⟩ | ⟨post', hold⟩
    · obtain rfl := Event.ran.inj hnew
      rw [← hw.server_eq]
      exact ⟨rfl, hw.sentBy_now ht _⟩
    · obtain ⟨hreply, hsent⟩ := hw.ran pre e post' hold
      exact ⟨hreply, hsent.extends hext⟩
  · intro M j u hu
    change executed M j (w.history ++ [_]) + outstanding M j w.late ≤ _
    rw [executed_append]
    rcases getElem?_saw hu with ⟨hne, hold⟩ | ⟨rfl, rfl⟩
    · have hcount := hw.counts M j u hold
      simpa [executed, hne.symm] using hcount
    · have hcount := hw.counts M j t ht
      simp only [executed, Thread.saw, List.countP_append, List.countP_singleton, decide_true,
        Bool.true_and] at hcount ⊢
      omega

theorem traced_fail (hw : Traced srv s₀ P Q w) {next : Option (Reply r) → Prog Req Reply A}
    (ht : w.threads[i]? = some t) (hrest : t.rest = .call r next) :
    Traced srv s₀ P Q (w.fail i t r next) := by
  have hext : Extends w.threads (w.fail i t r next).threads := extends_saw ht
  constructor
  · exact hw.server_eq
  · exact fun j u hu => (hw.obeys_saw ht hrest _ hu).1
  · exact fun j u hu => (hw.obeys_saw ht hrest _ hu).2
  · intro j u hu
    rcases getElem?_saw hu with ⟨-, hold⟩ | ⟨rfl, rfl⟩
    · exact hw.served_eq j u hold
    · change answeredCalls (t.transcript ++ [_]) = _
      rw [answeredCalls_append, hw.served_eq j t ht]
      exact List.append_nil _
  · intro j u hu
    rcases getElem?_saw hu with ⟨-, hold⟩ | ⟨-, rfl⟩
    · exact hw.since_le j u hold
    · exact hw.since_le i t ht
  · intro x hx
    rcases List.mem_append.mp hx with hold | hnew
    · exact (hw.late x hold).extends hext
    · obtain rfl := List.mem_singleton.mp hnew
      exact hw.sentBy_now ht none
  · intro pre e post hsplit
    obtain ⟨hreply, hsent⟩ := hw.ran pre e post hsplit
    exact ⟨hreply, hsent.extends hext⟩
  · intro M j u hu
    change executed M j w.history + outstanding M j (w.late ++ [(i, r)]) ≤ _
    rcases getElem?_saw hu with ⟨hne, hold⟩ | ⟨rfl, rfl⟩
    · have hcount := hw.counts M j u hold
      simpa [outstanding, hne.symm] using hcount
    · have hcount := hw.counts M j t ht
      simp only [outstanding, Thread.saw, List.countP_append, List.countP_singleton, decide_true,
        Bool.true_and] at hcount ⊢
      omega

theorem outstanding_eraseIdx (M : Req → Bool) (k : ℕ) {late : List (ℕ × Req)} {j : ℕ}
    (hj : late[j]? = some (i, r)) :
    outstanding M k (late.eraseIdx j) + (if decide (i = k) && M r then 1 else 0) =
      outstanding M k late := by
  obtain ⟨hlt, hget⟩ := List.getElem?_eq_some_iff.mp hj
  have hperm := List.getElem_cons_eraseIdx_perm hlt
  rw [hget] at hperm
  unfold outstanding
  rw [← hperm.countP_eq, List.countP_cons]

theorem traced_deliver (hw : Traced srv s₀ P Q w) {j : ℕ} (hj : w.late[j]? = some (i, r)) (o : O) :
    Traced srv s₀ P Q (w.deliver srv j i r o) := by
  have hgrows : w.history <+: (w.deliver srv j i r o).history := List.prefix_append _ _
  constructor
  · change _ = srv.replay s₀ (w.history ++ [_])
    rw [replay_append, ← hw.server_eq]
    rfl
  · exact hw.obeys
  · exact hw.sent
  · intro k u hu
    change _ = served k (w.history ++ [_])
    rw [served_append, hw.served_eq k u hu]
    simp [served]
  · exact fun k u hu => (hw.since_le k u hu).trans hgrows.length_le
  · exact fun x hx => (hw.late x (List.mem_of_mem_eraseIdx hx)).later hgrows
  · intro pre e post hsplit
    rcases split_snoc hsplit with ⟨rfl, hnew⟩ | ⟨post', hold⟩
    · obtain rfl := Event.ran.inj hnew
      rw [← hw.server_eq]
      exact ⟨rfl, hw.late _ (List.mem_of_getElem? hj)⟩
    · exact hw.ran pre e post' hold
  · intro M k u hu
    change executed M k (w.history ++ [_]) + outstanding M k (w.late.eraseIdx j) ≤ _
    have hcount := hw.counts M k u hu
    have herase := outstanding_eraseIdx M k hj
    have hran : executed M k
        ([.ran ⟨i, true, o, r, (srv.exec w.server r o).2⟩] : List (Event Reply O E)) =
        if decide (i = k) && M r then 1 else 0 := List.countP_singleton
    rw [executed_append, hran]
    omega

theorem traced_step (hprogram : ∀ c, Obeys (P c) (Q c) [] (program c)) (hw : Traced srv s₀ P Q w)
    (choice : Choice C O E) :
    Traced srv s₀ P Q (step srv program w choice) := by
  cases choice with
  | spawn c => exact traced_spawn hprogram hw c
  | serve i o =>
    simp only [step]
    split
    · split
      · exact traced_serve hw ‹_› ‹_› o
      · exact hw
    · exact hw
  | fail i =>
    simp only [step]
    split
    · split
      · exact traced_fail hw ‹_› ‹_›
      · exact hw
    · exact hw
  | deliver j o =>
    simp only [step]
    split
    · exact traced_deliver hw ‹_› o
    · exact hw
  | env e => exact traced_env hw e

theorem traced_steps (hprogram : ∀ c, Obeys (P c) (Q c) [] (program c)) (s : S)
    (cs : List (Choice C O E)) :
    Traced srv s P Q (steps srv program (World.init s) cs) := by
  induction cs using List.reverseRecOn with
  | nil => exact traced_init srv s
  | append_singleton cs c ih =>
    rw [steps, List.foldl_append]
    exact traced_step hprogram ih c

end Traces

end Ratelimit.Library
