import Ratelimit.Library.Checks
import Ratelimit.Management.Applicability

/-!
# What a query says about a client

A parsed scope holds what the query supplied and nothing else. Narrowed to a path, it
follows the route where the route decides a capture, and the identity where a key of the
domain has the name of a capture that the route does not produce.
-/
namespace Ratelimit.Management

open Library Compile Match Ruleview

section Scopes

/-- What a query supplies under a name: the values of an axis parameter, and no value
for a key that it declares absent. -/
inductive Query.Supplies (q : Query) : Text → List Text → Prop
  | axis {name : Text} {raw : List Text} : name ≠ [] →
      q.lookup (axisPrefix ++ name) = some raw → Supplies q name raw
  | absent {name : Text} : name ∈ q.absent → Supplies q name []

variable {snap : Snapshot} {q : Query} {sc : Scope} {name : Text}

theorem cutAxisParameter_some {parameter : Text} (h : cutAxisParameter parameter = some name) :
    name ≠ [] ∧ parameter = axisPrefix ++ name := by
  unfold cutAxisParameter at h
  split_ifs at h with hcut
  obtain rfl := Option.some.inj h
  obtain ⟨hlength, hstart⟩ := not_or.mp hcut
  rw [Bool.not_eq_false, Strings.hasPrefix_iff] at hstart
  obtain ⟨rest, rfl⟩ := hstart
  simp only [List.length_append, not_le] at hlength
  rw [List.drop_left]
  exact ⟨by rintro rfl; simp at hlength, rfl⟩

/-- A scope says of a key what the query supplied, without repeats. -/
structure Scope.From (sc : Scope) (snap : Snapshot) (q : Query) : Prop where
  effective_eq : sc.effective = snap.effectiveKeys
  supplied : ∀ name values, sc.values.lookup name = some values →
    values.Nodup ∧ ∃ raw, q.Supplies name raw ∧ values.toFinset = raw.toFinset

theorem Scope.From.supply (h : sc.From snap q) {values raw : List Text} (hnodup : values.Nodup)
    (hraw : q.Supplies name raw) (heq : values.toFinset = raw.toFinset) :
    (sc.supply name values).From snap q := by
  refine ⟨h.effective_eq, fun other values' hvalues => ?_⟩
  by_cases hother : other = name
  · subst hother
    rw [Scope.supply, Finmap.lookup_insert] at hvalues
    obtain rfl := Option.some.inj hvalues
    exact ⟨hnodup, raw, hraw, heq⟩
  · rw [Scope.supply, Finmap.lookup_insert_of_ne _ hother] at hvalues
    exact h.supplied other values' hvalues

theorem supplyAxis_from {entry : Text × List Text} {out : Scope} (hentry : entry ∈ entries q)
    (h : sc.From snap q) (hout : supplyAxis snap sc entry = .ok out) : out.From snap q := by
  unfold supplyAxis at hout
  cases hname : cutAxisParameter entry.1 with
  | none =>
    rw [hname] at hout
    exact Except.ok.inj hout ▸ h
  | some name =>
    simp only [hname] at hout
    split_ifs at hout
    obtain rfl := Except.ok.inj hout
    obtain ⟨hne, hparameter⟩ := cutAxisParameter_some hname
    have hlookup : q.lookup (axisPrefix ++ name) = some entry.2 :=
      hparameter ▸ mem_entries.mp hentry
    refine h.supply ?_ (Query.Supplies.axis hne hlookup) ?_
    · exact Finset.sort_nodup _ _
    · exact Finset.sort_toFinset _ _

theorem supplyAbsent_from {out : Scope} (hname : name ∈ q.absent) (h : sc.From snap q)
    (hout : supplyAbsent snap sc name = .ok out) : out.From snap q := by
  unfold supplyAbsent at hout
  split_ifs at hout
  obtain rfl := Except.ok.inj hout
  exact h.supply List.nodup_nil (Query.Supplies.absent hname) rfl

theorem parseScope_from (h : parseScope snap q = .ok sc) : sc.From snap q := by
  obtain ⟨axes, haxes, habsent⟩ := passed_iff.mp h
  have hbegin : (⟨∅, false, snap.effectiveKeys⟩ : Scope).From snap q :=
    ⟨rfl, fun name values hvalues => by simp at hvalues⟩
  have hmiddle : axes.From snap q :=
    foldlM_ok_induction (P := fun s => s.From snap q) haxes hbegin
      fun entry hentry s s' hs hout => supplyAxis_from hentry hs hout
  exact foldlM_ok_induction (P := fun s => s.From snap q) habsent hmiddle
    fun name hname s s' hs hout => supplyAbsent_from hname hs hout

end Scopes

section Narrowing

variable {s out fin : Scope} {target : Target} {name : Text}

/-- What the narrowed scope says of a capture of the block. -/
def Scope.narrowed (s : Scope) (target : Target) (name : Text) : Option (List Text) :=
  if name ∈ target.undecided then
    if name ∈ s.effective then none else s.values.lookup name
  else
    match target.captures.lookup name with
    | some value => some [value]
    | none => if name ∈ s.effective then s.values.lookup name else some []

theorem narrow_other {other : Text} (hother : other ≠ name)
    (h : s.narrow target out name = .ok fin) :
    fin.values.lookup other = out.values.lookup other := by
  unfold Scope.narrow at h
  dsimp only at h
  split_ifs at h
  · obtain rfl := Except.ok.inj h
    exact Finmap.lookup_erase_ne hother
  · obtain rfl := Except.ok.inj h
    rfl
  · obtain rfl := Except.ok.inj h
    rfl
  · obtain rfl := Except.ok.inj h
    exact Finmap.lookup_insert_of_ne _ hother
  · cases hsupplied : s.values.lookup name with
    | none =>
      simp only [hsupplied] at h
      obtain rfl := Except.ok.inj h
      exact Finmap.lookup_insert_of_ne _ hother
    | some supplied =>
      simp only [hsupplied] at h
      split_ifs at h
      all_goals
        obtain rfl := Except.ok.inj h
        rfl

theorem narrow_lookup (h : s.narrow target out name = .ok fin)
    (hout : out.values.lookup name = s.values.lookup name ∨
      out.values.lookup name = s.narrowed target name) :
    fin.values.lookup name = s.narrowed target name := by
  unfold Scope.narrow at h
  unfold Scope.narrowed at hout ⊢
  dsimp only at h
  by_cases hundecided : name ∈ target.undecided
  · rw [if_pos hundecided] at h hout ⊢
    obtain rfl := Except.ok.inj h
    by_cases heffective : name ∈ s.effective
    · simp [heffective]
    · simpa [heffective] using hout
  · rw [if_neg hundecided] at h hout ⊢
    by_cases heffective : name ∈ s.effective
    · rw [if_pos heffective] at h
      obtain rfl := Except.ok.inj h
      cases hproduced : target.captures.lookup name with
      | none => simpa [hproduced, heffective] using hout
      | some value => simp
    · rw [if_neg heffective] at h
      have hdecided : (match target.captures.lookup name with
          | some value => some [value]
          | none => if name ∈ s.effective then s.values.lookup name else some []) =
          some (target.captures.lookup name).toList := by
        cases target.captures.lookup name <;> simp [heffective]
      rw [hdecided] at hout ⊢
      cases hsupplied : s.values.lookup name with
      | none =>
        simp only [hsupplied] at h
        obtain rfl := Except.ok.inj h
        exact Finmap.lookup_insert _
      | some supplied =>
        simp only [hsupplied] at h
        split_ifs at h with hequal
        all_goals
          obtain rfl := Except.ok.inj h
          simpa [hsupplied, hequal] using hout

theorem foldlM_narrow {names : List Text}
    (h : names.foldlM (s.narrow target) out = .ok fin)
    (hout : ∀ name, out.values.lookup name = s.values.lookup name ∨
      out.values.lookup name = s.narrowed target name) :
    fin.values.lookup name =
      if name ∈ names then s.narrowed target name else out.values.lookup name := by
  induction names generalizing out with
  | nil =>
    obtain rfl := Except.ok.inj h
    simp
  | cons n names ih =>
    obtain ⟨next, hn, hrest⟩ := foldlM_ok_cons.mp h
    have hlookup := narrow_lookup hn (hout n)
    have hnext : ∀ name, next.values.lookup name = s.values.lookup name ∨
        next.values.lookup name = s.narrowed target name := by
      intro name
      by_cases hname : name = n
      · exact Or.inr (hname ▸ hlookup)
      · rw [narrow_other hname hn]
        exact hout name
    rw [ih hrest hnext]
    by_cases hname : name = n
    · subst hname
      simp [hlookup]
    · simp [hname, narrow_other hname hn]

theorem forTarget_lookup (h : s.forTarget target = .ok fin) :
    fin.values.lookup name =
      if name ∈ target.block.captures then s.narrowed target name else s.values.lookup name :=
  foldlM_narrow h fun _ => Or.inl rfl

end Narrowing

end Ratelimit.Management
