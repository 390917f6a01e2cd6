import Ratelimit.Library.Traces

/-!
# Who ran what, and how often

The calls of a schedule are those of its threads. A request that a program makes
at most once is executed at most once, at one place of the history, and what a
caller saw first was executed first.
-/
namespace Ratelimit.Library

variable {S Req C O E A : Type} {Reply : Req → Type}

section Executions

variable {srv : Server S Req Reply O E} {s₀ : S} {program : C → Prog Req Reply A}
  {P : C → Transcript Reply → Req → Prop} {Q : C → Transcript Reply → A → Prop}
  {w : World S C Reply O E A} {threads threads' : List (Thread C Reply A)}
  {h h' : List (Event Reply O E)} {i : ℕ} {t : Thread C Reply A} {r : Req}

theorem map_call_saw {x : Exchange Reply} {rest : Prog Req Reply A} (ht : threads[i]? = some t) :
    (threads.set i (t.saw x rest)).map Thread.call = threads.map Thread.call := by
  obtain ⟨hlt, rfl⟩ := List.getElem?_eq_some_iff.mp ht
  rw [List.map_set]
  refine List.ext_getElem (by simp) fun j h₁ h₂ => ?_
  rw [List.getElem_set]
  split_ifs with hij
  · subst hij
    simp [Thread.saw]
  · rfl

theorem calls_step (choice : Choice C O E) :
    (step srv program w choice).threads.map Thread.call =
      w.threads.map Thread.call ++ spawned [choice] := by
  cases choice with
  | spawn c => simp [step, spawned]
  | env e => simp [step, spawned]
  | serve i o =>
    simp only [step, spawned, List.filterMap_cons, List.filterMap_nil, List.append_nil]
    split
    · next t ht =>
      split
      · exact map_call_saw ht
      · rfl
    · rfl
  | fail i =>
    simp only [step, spawned, List.filterMap_cons, List.filterMap_nil, List.append_nil]
    split
    · next t ht =>
      split
      · exact map_call_saw ht
      · rfl
    · rfl
  | deliver j o =>
    simp only [step, spawned, List.filterMap_cons, List.filterMap_nil, List.append_nil]
    split <;> rfl

theorem calls_steps (s : S) (cs : List (Choice C O E)) :
    (steps srv program (World.init s) cs).threads.map Thread.call = spawned cs := by
  induction cs using List.reverseRecOn with
  | nil => rfl
  | append_singleton cs c ih =>
    rw [steps, List.foldl_append, List.foldl_cons, List.foldl_nil, calls_step]
    rw [← steps, ih]
    exact List.filterMap_append.symm

theorem countP_le_one {M : Req → Bool} {l : Transcript Reply}
    (h : ∀ τ x, τ ++ [x] <+: l → M x.1 → (τ.countP fun y => M y.1) = 0) :
    (l.countP fun y => M y.1) ≤ 1 := by
  induction l using List.reverseRecOn with
  | nil => simp
  | append_singleton l x ih =>
    have hl := ih fun τ y hpre => h τ y (hpre.trans (List.prefix_append _ _))
    rw [List.countP_append, List.countP_singleton]
    by_cases hx : M x.1
    · rw [h l x List.prefix_rfl hx]
      simp [hx]
    · simpa [hx] using hl

/-- Where the contract permits a marked request only to a caller that made none,
the server executes at most one for each caller. -/
theorem Traced.executed_le_one (hw : Traced srv s₀ P Q w) {M : Req → Bool}
    (hP : ∀ c τ r, P c τ r → M r → (τ.countP fun y => M y.1) = 0) (i : ℕ) :
    executed M i w.history ≤ 1 := by
  by_cases hi : i < w.threads.length
  · have ht : w.threads[i]? = some w.threads[i] := List.getElem?_eq_getElem hi
    have hcount := hw.counts M i _ ht
    have hle := countP_le_one fun τ x hx => hP _ τ x.1 (hw.sent i _ ht τ x hx)
    omega
  · rw [hw.executed_absent M (not_lt.mp hi)]
    exact Nat.zero_le 1

/-- Where the server gave a reply that a caller saw. -/
theorem Traced.position (hw : Traced srv s₀ P Q w) (ht : w.threads[i]? = some t)
    {τ : Transcript Reply} {v : Reply r} (hτ : τ ++ [⟨r, some v⟩] <+: t.transcript) :
    ∃ pre o post, w.history = pre ++ .ran ⟨i, false, o, r, v⟩ :: post ∧ served i pre = answeredCalls τ ∧
      t.since ≤ pre.length ∧ v = (srv.exec (srv.replay s₀ pre) r o).2 := by
  obtain ⟨rest, hrest⟩ := hτ
  have hserved : served i w.history = answeredCalls τ ++ ⟨r, v⟩ :: answeredCalls rest := by
    rw [← hw.served_eq i t ht, ← hrest, List.append_assoc, answeredCalls_append]
    rfl
  obtain ⟨h₁, h₂, hhistory, hpre, hpost⟩ := List.filterMap_eq_append_iff.mp hserved
  obtain ⟨idle, ev, post, rfl, hidle, hev, -⟩ := List.filterMap_eq_cons_iff.mp hpost
  rw [← List.append_assoc] at hhistory
  cases ev with
  | env e => cases hev
  | ran e =>
    obtain ⟨j, late, o, r', v'⟩ := e
    dsimp only at hev
    split_ifs at hev with howner
    obtain ⟨rfl, rfl⟩ := howner
    cases hev
    obtain ⟨hreply, t', ht', hsince, -⟩ := hw.ran _ _ post hhistory
    obtain rfl := Option.some.inj (ht.symm.trans ht')
    refine ⟨h₁ ++ idle, o, post, hhistory, ?_, hsince, hreply⟩
    have hnone : served j idle = [] := List.filterMap_eq_nil_iff.mpr hidle
    rw [served_append, hnone, List.append_nil]
    exact hpre

/-- A reply that a caller saw is one the server gave after the call had started. -/
theorem Traced.executed_of_mem (hw : Traced srv s₀ P Q w) (ht : w.threads[i]? = some t)
    {v : Reply r} (hv : ⟨r, some v⟩ ∈ t.transcript) : ∃ pre o post,
      w.history = pre ++ .ran ⟨i, false, o, r, v⟩ :: post ∧ t.since ≤ pre.length ∧
        v = (srv.exec (srv.replay s₀ pre) r o).2 := by
  obtain ⟨τ, rest, hsplit⟩ := List.append_of_mem hv
  have hτ : τ ++ [⟨r, some v⟩] <+: t.transcript := ⟨rest, by rw [hsplit]; simp⟩
  obtain ⟨pre, o, post, hhistory, -, hsince, hreply⟩ := hw.position ht hτ
  exact ⟨pre, o, post, hhistory, hsince, hreply⟩

theorem Traced.ran_once (hw : Traced srv s₀ P Q w) {M : Req → Bool}
    (hP : ∀ c τ r, P c τ r → M r → (τ.countP fun y => M y.1) = 0)
    {pre post : List (Event Reply O E)} {e e' : Entry Reply O} (h : w.history = pre ++ .ran e :: post)
    (he : M e.request = true) (he' : .ran e' ∈ pre) (howner : e'.owner = e.owner) :
    M e'.request = false := by
  by_contra hmarked
  have hpre : 0 < executed M e.owner pre :=
    List.countP_pos_iff.mpr ⟨_, he', by simpa [howner] using hmarked⟩
  have hrest : 0 < executed M e.owner (.ran e :: post) :=
    List.countP_pos_iff.mpr ⟨_, List.mem_cons_self, by simpa using he⟩
  have hone := hw.executed_le_one hP e.owner
  rw [h, executed_append] at hone
  omega

theorem Traced.ran_unique (hw : Traced srv s₀ P Q w) {M : Req → Bool}
    (hP : ∀ c τ r, P c τ r → M r → (τ.countP fun y => M y.1) = 0)
    {pre post pre' post' : List (Event Reply O E)} {e e' : Entry Reply O}
    (h : w.history = pre ++ .ran e :: post) (h' : w.history = pre' ++ .ran e' :: post')
    (he : M e.request = true) (he' : M e'.request = true) (howner : e.owner = e'.owner) :
    pre = pre' ∧ e = e' := by
  have hsame := h.symm.trans h'
  rcases lt_trichotomy pre.length pre'.length with hlt | heq | hlt
  · have hmem := (prefix_of_lt hsame hlt).subset (List.mem_append_right _ (List.mem_singleton_self _))
    rw [hw.ran_once hP h' he' hmem howner] at he
    cases he
  · obtain ⟨rfl, hcons⟩ := List.append_inj hsame heq
    exact ⟨rfl, Event.ran.inj (List.cons.inj hcons).1⟩
  · have hmem :=
      (prefix_of_lt hsame.symm hlt).subset (List.mem_append_right _ (List.mem_singleton_self _))
    rw [hw.ran_once hP h he hmem howner.symm] at he'
    cases he'

/-- What a caller saw before the server came to `pre` was executed within `pre`. -/
theorem Traced.position_before (hw : Traced srv s₀ P Q w) (ht : w.threads[i]? = some t)
    {pre post : List (Event Reply O E)} {τ τ' : Transcript Reply} {v : Reply r}
    (hsplit : w.history = pre ++ post) (hτ' : τ' <+: t.transcript)
    (hanswered : answeredCalls τ' <+: served i pre) (hle : τ ++ [⟨r, some v⟩] <+: τ') :
    ∃ q o mid, pre = q ++ .ran ⟨i, false, o, r, v⟩ :: mid ∧ served i q = answeredCalls τ ∧
      v = (srv.exec (srv.replay s₀ q) r o).2 := by
  obtain ⟨q, o, rest, hq, hserved, -, hreply⟩ := hw.position ht (hle.trans hτ')
  have hlt : q.length < pre.length := by
    by_contra hlt
    obtain ⟨mid, rfl⟩ :=
      List.prefix_of_prefix_length_le ⟨_, hsplit.symm⟩ ⟨_, hq.symm⟩ (not_lt.mp hlt)
    obtain ⟨more, rfl⟩ := hle
    have hlength := hanswered.length_le
    rw [answeredCalls_append, answeredCalls_append] at hlength
    rw [served_append] at hserved
    have hshort := congrArg List.length hserved
    simp only [List.length_append] at hlength hshort
    have hone : (answeredCalls [(⟨r, some v⟩ : Exchange Reply)]).length = 1 := rfl
    omega
  obtain ⟨mid, rfl⟩ := prefix_of_lt (hq.symm.trans hsplit) hlt
  exact ⟨q, o, mid, by simp, hserved, hreply⟩

end Executions

end Ratelimit.Library
