import Ratelimit.Library.Sorting
import Ratelimit.Operator.Generations

/-!
# What a compilation holds for each object

The compilation goes over the objects one by one. An object named after its domain
settles that domain, any other only its own outcome, so that every entry of the
result comes from an object, and where names are distinct from that object alone.
-/
namespace Ratelimit.Operator

open Api Library

def Object.WellNamed (o : Object) : Prop := o.name = o.spec.domain

instance (o : Object) : Decidable o.WellNamed := inferInstanceAs (Decidable (_ = _))

def Input.settled (input : Input) (o : Object) : Outcome × Compile.Snapshot × Bundle :=
  compileDomain input.namespaceName o (input.state.get o.spec.domain) (input.skew o.key)

/-- The names of the policies are distinct, as those of one namespace are. -/
def Input.Distinct (input : Input) : Prop := (input.policies.map Object.name).Nodup

variable {input : Input} {r : Result} {o : Object} {l : List Object} {domain : Text}

theorem Object.le_iff {a b : Object} : a.le b ↔
    a.namespaceName < b.namespaceName ∨ a.namespaceName = b.namespaceName ∧ a.name ≤ b.name := by
  unfold Object.le
  split_ifs with h
  · simp [h, lt_iff_le_and_ne]
  · simp [not_not.mp h]

instance : Std.Total Object.le where
  total a b := by
    rw [Object.le_iff, Object.le_iff]
    rcases lt_trichotomy a.namespaceName b.namespaceName with hlt | heq | hlt
    · exact Or.inl (Or.inl hlt)
    · exact (le_total a.name b.name).imp (fun h => Or.inr ⟨heq, h⟩) fun h => Or.inr ⟨heq.symm, h⟩
    · exact Or.inr (Or.inl hlt)

instance : IsTrans Object Object.le where
  trans a b d hab hbd := by
    rw [Object.le_iff] at hab hbd ⊢
    rcases hab with hab | ⟨hab, hab'⟩ <;> rcases hbd with hbd | ⟨hbd, hbd'⟩
    · exact Or.inl (hab.trans hbd)
    · exact Or.inl (hbd ▸ hab)
    · exact Or.inl (hab ▸ hbd)
    · exact Or.inr ⟨hab.trans hbd, hab'.trans hbd'⟩

theorem mem_sortedPolicies : o ∈ sortedPolicies l ↔ o ∈ l :=
  (List.perm_insertionSort Object.le l).mem_iff

theorem compileObject_wellNamed (h : o.WellNamed) :
    compileObject input r o = r.settle o (input.settled o) :=
  if_neg (not_not.mpr h)

theorem compileObject_misnamed (h : ¬o.WellNamed) :
    compileObject input r o = { r with policies := r.policies.insert o.key (mismatch o) } :=
  if_pos h

theorem foldl_compileObject_domain (hother : ∀ o ∈ l, o.WellNamed → o.name ≠ domain) :
    ∀ {r : Result}, (l.foldl (compileObject input) r).state.lookup domain = r.state.lookup domain ∧
      (l.foldl (compileObject input) r).snapshots.lookup domain = r.snapshots.lookup domain := by
  induction l with
  | nil => exact ⟨rfl, rfl⟩
  | cons o l ih =>
    intro r
    obtain ⟨hstate, hsnapshots⟩ := @ih (fun o ho => hother o (List.mem_cons_of_mem _ ho))
      (compileObject input r o)
    rw [List.foldl_cons, hstate, hsnapshots]
    by_cases hnamed : o.WellNamed
    · have hne : domain ≠ o.spec.domain := by
        rw [← hnamed]
        exact (hother o List.mem_cons_self hnamed).symm
      rw [compileObject_wellNamed hnamed]
      exact ⟨Finmap.lookup_insert_of_ne _ hne, Finmap.lookup_insert_of_ne _ hne⟩
    · rw [compileObject_misnamed hnamed]
      exact ⟨rfl, rfl⟩

theorem foldl_compileObject_key {key : ObjectKey} (hother : ∀ o ∈ l, o.key ≠ key) :
    ∀ {r : Result}, (l.foldl (compileObject input) r).policies.lookup key = r.policies.lookup key := by
  induction l with
  | nil => exact rfl
  | cons o l ih =>
    intro r
    rw [List.foldl_cons, ih fun o ho => hother o (List.mem_cons_of_mem _ ho)]
    have hne : key ≠ o.key := (hother o List.mem_cons_self).symm
    by_cases hnamed : o.WellNamed
    · rw [compileObject_wellNamed hnamed]
      exact Finmap.lookup_insert_of_ne _ hne
    · rw [compileObject_misnamed hnamed]
      exact Finmap.lookup_insert_of_ne _ hne

/-- The result holds what was settled for the object. -/
structure Result.Holds (r : Result) (o : Object)
    (settled : Outcome × Compile.Snapshot × Bundle) : Prop where
  state : r.state.lookup o.spec.domain = some settled.2.2
  snapshots : r.snapshots.lookup o.spec.domain = some settled.2.1
  policies : r.policies.lookup o.key = some settled.1

theorem Result.settle_holds (settled : Outcome × Compile.Snapshot × Bundle) :
    (r.settle o settled).Holds o settled :=
  ⟨Finmap.lookup_insert _, Finmap.lookup_insert _, Finmap.lookup_insert _⟩

theorem foldl_compileObject_mem (hdistinct : (l.map Object.name).Nodup) (ho : o ∈ l)
    (hnamed : o.WellNamed) : ∀ {r : Result},
      (l.foldl (compileObject input) r).Holds o (input.settled o) := by
  induction l with
  | nil => cases ho
  | cons o' l ih =>
    intro r
    obtain ⟨hnew, hdistinct⟩ := List.nodup_cons.mp hdistinct
    rcases List.mem_cons.mp ho with rfl | ho
    · have hother : ∀ o' ∈ l, o'.name ≠ o.name := fun o' ho' heq =>
        hnew (List.mem_map.mpr ⟨o', ho', heq⟩)
      rw [List.foldl_cons, compileObject_wellNamed hnamed]
      obtain ⟨hstate, hsnapshots⟩ := @foldl_compileObject_domain input l o.spec.domain
        (fun o' ho' _ => hnamed ▸ hother o' ho') (r.settle o (input.settled o))
      have hpolicies := @foldl_compileObject_key input l o.key
        (fun o' ho' heq => hother o' ho' (congrArg ObjectKey.name heq)) (r.settle o (input.settled o))
      have hsettled := @Result.settle_holds r o (input.settled o)
      exact ⟨hstate.trans hsettled.state, hsnapshots.trans hsettled.snapshots,
        hpolicies.trans hsettled.policies⟩
    · exact ih hdistinct ho

theorem compile_mem (hdistinct : input.Distinct) (ho : o ∈ input.policies) (hnamed : o.WellNamed) :
    (compile input).Holds o (input.settled o) := by
  have hperm := List.perm_insertionSort Object.le input.policies
  refine foldl_compileObject_mem ?_ (mem_sortedPolicies.mpr ho) hnamed
  exact (hperm.map Object.name).nodup_iff.mpr hdistinct

def Input.outcomeOf (input : Input) (o : Object) : Outcome :=
  if o.WellNamed then (input.settled o).1 else mismatch o

theorem compile_outcome (hdistinct : input.Distinct) (ho : o ∈ input.policies) :
    (compile input).policies.lookup o.key = some (input.outcomeOf o) := by
  have hperm := List.perm_insertionSort Object.le input.policies
  have hfold : ∀ l : List Object, (l.map Object.name).Nodup → o ∈ l → ∀ r : Result,
      (l.foldl (compileObject input) r).policies.lookup o.key = some (input.outcomeOf o) := by
    intro l
    induction l with
    | nil => exact fun _ ho => by cases ho
    | cons o' l ih =>
      intro hnodup ho r
      obtain ⟨hnew, hnodup⟩ := List.nodup_cons.mp hnodup
      rcases List.mem_cons.mp ho with rfl | ho
      · have hother : ∀ o' ∈ l, o'.key ≠ o.key := fun o' ho' heq =>
          hnew (List.mem_map.mpr ⟨o', ho', congrArg ObjectKey.name heq⟩)
        rw [List.foldl_cons, foldl_compileObject_key hother]
        by_cases hnamed : o.WellNamed
        · rw [compileObject_wellNamed hnamed, Input.outcomeOf, if_pos hnamed]
          exact Finmap.lookup_insert _
        · rw [compileObject_misnamed hnamed, Input.outcomeOf, if_neg hnamed]
          exact Finmap.lookup_insert _
      · exact ih hnodup ho _
  exact hfold _ ((hperm.map Object.name).nodup_iff.mpr hdistinct) (mem_sortedPolicies.mpr ho) _

theorem foldl_compileObject_state {b : Bundle} : ∀ {r : Result},
    (l.foldl (compileObject input) r).state.lookup domain = some b →
      (∃ o ∈ l, o.WellNamed ∧ o.spec.domain = domain ∧ b = (input.settled o).2.2) ∨
        r.state.lookup domain = some b := by
  induction l with
  | nil => exact Or.inr
  | cons o l ih =>
    intro r h
    rcases ih h with ⟨o', ho', hfound⟩ | hbefore
    · exact Or.inl ⟨o', List.mem_cons_of_mem _ ho', hfound⟩
    · by_cases hnamed : o.WellNamed
      · rw [compileObject_wellNamed hnamed] at hbefore
        by_cases hdomain : domain = o.spec.domain
        · subst hdomain
          rw [Result.settle, Finmap.lookup_insert] at hbefore
          exact Or.inl ⟨o, List.mem_cons_self, hnamed, rfl, (Option.some.inj hbefore).symm⟩
        · rw [Result.settle, Finmap.lookup_insert_of_ne _ hdomain] at hbefore
          exact Or.inr hbefore
      · rw [compileObject_misnamed hnamed] at hbefore
        exact Or.inr hbefore

theorem compile_state {b : Bundle} (h : (compile input).state.lookup domain = some b) :
    ∃ o ∈ input.policies, o.WellNamed ∧ o.spec.domain = domain ∧ b = (input.settled o).2.2 := by
  rcases foldl_compileObject_state h with ⟨o, ho, hfound⟩ | hempty
  · exact ⟨o, mem_sortedPolicies.mp ho, hfound⟩
  · cases hempty

theorem settled_tooLarge (input : Input) (o : Object) : (input.settled o).1.tooLarge = false := by
  by_cases hgood : o.Good input.namespaceName (input.skew o.key)
  · exact (compileDomainFitting_latest hgood).fits
  · exact (compileDomainFitting_invalid hgood).2.2

theorem compile_tooLarge {key : ObjectKey} {outcome : Outcome}
    (h : (compile input).policies.lookup key = some outcome) : outcome.tooLarge = false := by
  have hfold : ∀ l : List Object, ∀ r : Result,
      (∀ key outcome, r.policies.lookup key = some outcome → outcome.tooLarge = false) →
      ∀ key outcome, (l.foldl (compileObject input) r).policies.lookup key = some outcome →
        outcome.tooLarge = false := by
    intro l
    induction l with
    | nil => exact fun r hr => hr
    | cons o l ih =>
      intro r hr
      refine ih _ fun key outcome hkey => ?_
      -- whichever way the object is settled, one outcome is put in
      have hput : ∀ {new : Outcome}, new.tooLarge = false →
          (r.policies.insert o.key new).lookup key = some outcome → outcome.tooLarge = false := by
        intro new hnew hlookup
        by_cases heq : key = o.key
        · rw [heq, Finmap.lookup_insert] at hlookup
          rw [← Option.some.inj hlookup]
          exact hnew
        · rw [Finmap.lookup_insert_of_ne _ heq] at hlookup
          exact hr key outcome hlookup
      by_cases hnamed : o.WellNamed
      · rw [compileObject_wellNamed hnamed] at hkey
        exact hput (settled_tooLarge input o) hkey
      · rw [compileObject_misnamed hnamed] at hkey
        exact hput rfl hkey
  refine hfold _ _ (fun key outcome hempty => ?_) _ _ h
  cases hempty

end Ratelimit.Operator
