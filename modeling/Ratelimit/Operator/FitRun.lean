import Ratelimit.Operator.Compilation
import Ratelimit.Operator.Fit

/-!
# What the fit does, step by step

The fit sets back candidates one after the other and stops at the first number of
them for which the rest is within the limit, or when there are no more. What a
domain is set back to depends on the input alone.
-/
namespace Ratelimit.Operator

open Api Library

section Steps

variable (c : Codec) (input : Input) (limit : ℕ)

def Result.size (r : Result) : ℕ := (render c r.state input.operatorVersion).size

def setBackDomain (r : Result) (domain : Text) : Result :=
  match claimant input domain with
  | none => r
  | some object => setBack input limit (r.size c input) r object

def setBackFirst (r : Result) (n : ℕ) : Result :=
  ((candidates c input r.state).take n).foldl (setBackDomain c input limit) r

def Input.setBackTo (o : Object) : Compile.Snapshot × Bundle :=
  (compileDomainFitting input.namespaceName o (input.state.get o.spec.domain) (input.skew o.key)
    (some ⟨"", []⟩)).2

end Steps

variable {c : Codec} {input : Input} {limit : ℕ} {r : Result} {o : Object} {domain : Text}
  {ds : List Text}

/-- The loop runs over the shortest prefix of the candidates that brings the result
within the limit, or over all of them. -/
theorem fitLoop_run : ∀ {r : Result}, limit < r.size c input → ∃ n ≤ ds.length,
    fitLoop c input limit ds (r.size c input) r =
      (ds.take n).foldl (setBackDomain c input limit) r ∧
    (∀ m < n, limit < ((ds.take m).foldl (setBackDomain c input limit) r).size c input) ∧
    (((ds.take n).foldl (setBackDomain c input limit) r).size c input ≤ limit ∨ n = ds.length) := by
  induction ds with
  | nil =>
    intro r hover
    exact ⟨0, le_rfl, rfl, fun m hm => absurd hm (Nat.not_lt_zero m), Or.inr rfl⟩
  | cons domain ds ih =>
    intro r hover
    have hgoes : ∀ {n : ℕ} {r' : Result}, setBackDomain c input limit r domain = r' →
        (∀ m < n, limit < ((ds.take m).foldl (setBackDomain c input limit) r').size c input) →
        ∀ m < n + 1, limit <
          (((domain :: ds).take m).foldl (setBackDomain c input limit) r).size c input := by
      rintro n r' rfl hrest (_ | m) hm
      · exact hover
      · exact hrest m (Nat.lt_of_succ_lt_succ hm)
    cases hclaimant : claimant input domain with
    | none =>
      have hsame : setBackDomain c input limit r domain = r := by
        simp only [setBackDomain, hclaimant]
      obtain ⟨n, hn, heq, hbefore, hend⟩ := ih hover
      refine ⟨n + 1, Nat.succ_le_succ hn, ?_, hgoes hsame hbefore, ?_⟩
      · simp only [fitLoop, hclaimant, List.take_succ_cons, List.foldl_cons, hsame]
        exact heq
      · rw [List.take_succ_cons, List.foldl_cons, hsame]
        exact hend.imp_right (congrArg Nat.succ)
    | some object =>
      have hback : setBackDomain c input limit r domain =
          setBack input limit (r.size c input) r object := by
        simp only [setBackDomain, hclaimant]
      by_cases hfits : (setBack input limit (r.size c input) r object).size c input ≤ limit
      · refine ⟨1, Nat.succ_le_succ (Nat.zero_le _), ?_,
          hgoes hback fun m hm => absurd hm (Nat.not_lt_zero m), ?_⟩
        · simp only [fitLoop, hclaimant, List.take_succ_cons, List.take_zero, List.foldl_cons,
            List.foldl_nil, hback]
          exact if_pos hfits
        · simp only [List.take_succ_cons, List.take_zero, List.foldl_cons, List.foldl_nil, hback]
          exact Or.inl hfits
      · obtain ⟨n, hn, heq, hbefore, hend⟩ := ih (not_le.mp hfits)
        refine ⟨n + 1, Nat.succ_le_succ hn, ?_, hgoes hback hbefore, ?_⟩
        · simp only [fitLoop, hclaimant, List.take_succ_cons, List.foldl_cons, hback]
          rw [← heq]
          exact if_neg hfits
        · rw [List.take_succ_cons, List.foldl_cons, hback]
          exact hend.imp_right (congrArg Nat.succ)

/-- The fit sets back the fewest of the first candidates that bring the result within
the limit, or all of them. -/
structure FitStops (c : Codec) (input : Input) (limit : ℕ) (r : Result) (n : ℕ) : Prop where
  le : n ≤ (candidates c input r.state).length
  before : ∀ m < n, limit < (setBackFirst c input limit r m).size c input
  ends : (setBackFirst c input limit r n).size c input ≤ limit ∨
    n = (candidates c input r.state).length

theorem fit_run (c : Codec) (input : Input) (limit : ℕ) (r : Result) :
    ∃ n, fit c input r limit = setBackFirst c input limit r n ∧ FitStops c input limit r n := by
  by_cases hfits : r.size c input ≤ limit
  · exact ⟨0, if_pos hfits, Nat.zero_le _, fun m hm => absurd hm (Nat.not_lt_zero m), Or.inl hfits⟩
  · obtain ⟨n, hn, heq, hbefore, hend⟩ :=
      @fitLoop_run c input limit (candidates c input r.state) r (not_le.mp hfits)
    exact ⟨n, (if_neg hfits).trans heq, hn, hbefore, hend⟩

theorem FitStops.unique {n m : ℕ} (hn : FitStops c input limit r n)
    (hm : FitStops c input limit r m) : n = m := by
  have hle : ∀ {n m : ℕ}, FitStops c input limit r n → FitStops c input limit r m → n ≤ m := by
    intro n m hn hm
    by_contra hlt
    rcases hm.ends with hfits | hlast
    · exact absurd hfits (not_le.mpr (hn.before m (not_le.mp hlt)))
    · exact hlt (hlast ▸ hn.le)
  exact le_antisymm (hle hn hm) (hle hm hn)

section Domains

theorem claimant_mem (h : claimant input domain = some o) :
    o ∈ input.policies ∧ o.spec.domain = domain := by
  obtain ⟨hmem, hdomain⟩ := List.mem_filter.mp (List.mem_of_getLast? h)
  exact ⟨hmem, of_decide_eq_true hdomain⟩

theorem exists_claimant (ho : o ∈ input.policies) : ∃ o', claimant input o.spec.domain = some o' := by
  have hmem : o ∈ input.policies.filter fun o' => o'.spec.domain = o.spec.domain :=
    List.mem_filter.mpr ⟨ho, decide_eq_true rfl⟩
  exact ⟨_, List.getLast?_eq_some_getLast (List.ne_nil_of_mem hmem)⟩

theorem setBackTo_eq (reason : Message) :
    (compileDomainFitting input.namespaceName o (input.state.get o.spec.domain) (input.skew o.key)
      (some reason)).2 = input.setBackTo o := by
  have hfallBack : ∀ {outcome outcome' : Outcome} {snapshot : Compile.Snapshot},
      (fallBack input.namespaceName o (input.state.get o.spec.domain) (input.skew o.key) outcome
        snapshot).2 =
      (fallBack input.namespaceName o (input.state.get o.spec.domain) (input.skew o.key) outcome'
        snapshot).2 := by
    intro outcome outcome' snapshot
    unfold fallBack
    split
    · rfl
    · split_ifs
      · rfl
      · dsimp only
        split <;> rfl
  unfold Input.setBackTo
  by_cases hgood : o.Good input.namespaceName (input.skew o.key)
  · rw [compileDomainFitting_over hgood, compileDomainFitting_over hgood]
    exact hfallBack
  · rw [compileDomainFitting_bad hgood, compileDomainFitting_bad hgood]

theorem setBackTo_kept (input : Input) (o : Object) :
    Kept input.namespaceName o (input.state.get o.spec.domain)
      (compileDomainFitting input.namespaceName o (input.state.get o.spec.domain)
        (input.skew o.key) (some ⟨"", []⟩)) := by
  by_cases hgood : o.Good input.namespaceName (input.skew o.key)
  · exact (compileDomainFitting_tooLarge hgood _).1
  · exact (compileDomainFitting_invalid hgood).1

theorem setBackTo_cases (input : Input) (o : Object) :
    (input.setBackTo o).2 = .zero ∨
      ((input.setBackTo o).2 = input.state.get o.spec.domain ∧
        (input.state.get o.spec.domain).uid ≠ []) := by
  unfold Input.setBackTo
  rcases setBackTo_kept input o with hlast | ⟨hzero, -⟩
  · exact Or.inr ⟨hlast.bundle, hlast.uid_ne⟩
  · exact Or.inl hzero

theorem setBackDomain_state (r : Result) (d domain : Text) :
    (setBackDomain c input limit r d).state.lookup domain =
        (if d = domain then (claimant input d).map fun o => (input.setBackTo o).2 else none).or
          (r.state.lookup domain) ∧
      (setBackDomain c input limit r d).snapshots.lookup domain =
        (if d = domain then (claimant input d).map fun o => (input.setBackTo o).1 else none).or
          (r.snapshots.lookup domain) := by
  unfold setBackDomain
  cases hclaimant : claimant input d with
  | none => simp
  | some o =>
    obtain ⟨-, rfl⟩ := claimant_mem hclaimant
    have hto := @setBackTo_eq input o (overLimit (r.size c input) limit)
    by_cases hdomain : o.spec.domain = domain
    · subst hdomain
      simp only [setBack, Result.settle, if_true, Option.map_some, Option.some_or,
        Finmap.lookup_insert, hto, and_self]
    · have hne : domain ≠ o.spec.domain := fun heq => hdomain heq.symm
      simp [setBack, Result.settle, hdomain, Finmap.lookup_insert_of_ne _ hne]

theorem foldl_setBack_other (h : domain ∉ ds) : ∀ {r : Result},
    (ds.foldl (setBackDomain c input limit) r).state.lookup domain = r.state.lookup domain ∧
      (ds.foldl (setBackDomain c input limit) r).snapshots.lookup domain =
        r.snapshots.lookup domain := by
  induction ds with
  | nil => exact ⟨rfl, rfl⟩
  | cons d ds ih =>
    intro r
    obtain ⟨hne, hrest⟩ := not_or.mp fun hmem => h (List.mem_cons.mpr hmem)
    obtain ⟨hstate, hsnapshots⟩ := @ih hrest (setBackDomain c input limit r d)
    obtain ⟨hstate', hsnapshots'⟩ := @setBackDomain_state c input limit r d domain
    rw [List.foldl_cons, hstate, hsnapshots, hstate', hsnapshots', if_neg (Ne.symm hne),
      if_neg (Ne.symm hne)]
    exact ⟨rfl, rfl⟩

theorem foldl_setBack_mem (h : domain ∈ ds) (ho : claimant input domain = some o) :
    ∀ {r : Result},
    (ds.foldl (setBackDomain c input limit) r).state.lookup domain = some (input.setBackTo o).2 ∧
      (ds.foldl (setBackDomain c input limit) r).snapshots.lookup domain =
        some (input.setBackTo o).1 := by
  induction ds with
  | nil => cases h
  | cons d ds ih =>
    intro r
    by_cases hrest : domain ∈ ds
    · exact ih hrest
    · obtain rfl : domain = d := (List.mem_cons.mp h).resolve_right hrest
      obtain ⟨hstate, hsnapshots⟩ := @foldl_setBack_other c input limit domain ds hrest
        (setBackDomain c input limit r domain)
      obtain ⟨hstate', hsnapshots'⟩ := @setBackDomain_state c input limit r domain domain
      rw [List.foldl_cons, hstate, hsnapshots, hstate', hsnapshots', if_pos rfl, if_pos rfl, ho]
      exact ⟨rfl, rfl⟩

theorem foldl_setBack_key {key : ObjectKey}
    (h : ∀ d ∈ ds, ∀ o, claimant input d = some o → o.key ≠ key) : ∀ {r : Result},
    (ds.foldl (setBackDomain c input limit) r).policies.lookup key = r.policies.lookup key := by
  induction ds with
  | nil => exact rfl
  | cons d ds ih =>
    intro r
    rw [List.foldl_cons, ih fun d' hd' => h d' (List.mem_cons_of_mem _ hd')]
    unfold setBackDomain
    split
    · rfl
    · next o ho =>
      exact Finmap.lookup_insert_of_ne _ (h d List.mem_cons_self o ho).symm

end Domains

theorem mem_candidates {state : State} : domain ∈ candidates c input state ↔
    ∃ b, state.lookup domain = some b ∧ moved input domain b = true := by
  unfold candidates
  rw [mem_sortedBy, Finset.mem_filter, Finmap.mem_keys]
  constructor
  · rintro ⟨hmem, hmoved⟩
    obtain ⟨b, hb⟩ := Option.isSome_iff_exists.mp (Finmap.lookup_isSome.mpr hmem)
    refine ⟨b, hb, ?_⟩
    simpa [State.get, hb] using hmoved
  · rintro ⟨b, hb, hmoved⟩
    refine ⟨Finmap.mem_of_lookup_eq_some hb, ?_⟩
    simpa [State.get, hb] using hmoved

end Ratelimit.Operator
