import Ratelimit.Match.Matcher

/-!
# The target phase under any method

Under one method the target phase answers as it does for a request. Under any method several
routes can decide, each for the methods that no earlier route took; a capture is settled where
all of them agree on it.
-/
namespace Ratelimit.Match

open Compile

/-- One selected block. A capture of the block that is not among the values is
absent, unless the method decides it. -/
structure Target where
  block : Block
  captures : Captures
  undecided : List Text

def Candidates.targets (c : Candidates) : List Target :=
  c.hits.map fun h => ⟨h.block, h.captures, []⟩

/-- What the loop of `targetByPath` has seen. A count that a map lacks is zero. -/
structure PathScan where
  deciders : ℕ
  claimed : Finset Text
  values : Captures
  produced : Text → ℕ
  conflict : Finset Text

def PathScan.empty : PathScan := ⟨0, ∅, ∅, fun _ => 0, ∅⟩

def PathScan.decide (s : PathScan) (captures : Captures) : PathScan :=
  { s with
    deciders := s.deciders + 1
    values := captures ∪ s.values
    produced := fun name => if name ∈ captures then s.produced name + 1 else s.produced name
    conflict := s.conflict ∪ captures.keys.filter fun name =>
      s.values.lookup name ≠ none ∧ s.values.lookup name ≠ captures.lookup name }

/-- The loop over the routes; one that restricts no method leaves none to the
routes after it. -/
def scanRoutes (path : Text) : List Route → PathScan → PathScan
  | [], s => s
  | route :: rest, s =>
    match matchPath route path with
    | none => scanRoutes path rest s
    | some captures =>
      if route.methods = ∅ then s.decide captures
      else if route.methods ⊆ s.claimed then scanRoutes path rest s
      else scanRoutes path rest ({ s with claimed := s.claimed ∪ route.methods }.decide captures)

/-- Every deciding route produces the capture, with one value. -/
def PathScan.settles (s : PathScan) (name : Text) : Bool :=
  s.produced name = s.deciders && name ∉ s.conflict

/-- One capture of the block in the second loop. -/
def PathScan.settle (s : PathScan) (t : Target) (name : Text) : Target :=
  if s.settles name then
    { t with captures := t.captures.insert name ((s.values.lookup name).getD []) }
  else if s.produced name = 0 then t
  else { t with undecided := t.undecided ++ [name] }

def targetByPath (path : Text) (block : Block) : Option Target :=
  if block.routes = [] then some ⟨block, ∅, []⟩
  else
    let s := scanRoutes path block.routes .empty
    if s.deciders = 0 then none
    else some (block.captures.foldl s.settle ⟨block, ∅, []⟩)

def targetsByPath (snap : Snapshot) (path : Text) : List Target :=
  snap.blocks.filterMap (targetByPath (Strings.cut path (byte '?')).1)

section Deciders

/-- The captures of the routes that decide for the path under a method not yet claimed. -/
def deciders (path : Text) : Finset Text → List Route → List Captures
  | _, [] => []
  | claimed, route :: rest =>
    match matchPath route path with
    | none => deciders path claimed rest
    | some captures =>
      if route.methods = ∅ then [captures]
      else if route.methods ⊆ claimed then deciders path claimed rest
      else captures :: deciders path (claimed ∪ route.methods) rest

variable {path method : Text} {claimed : Finset Text} {route : Route} {rest : List Route}
  {captures : Captures}

theorem matchRoutes_refused (h : matchPath route path = none) :
    matchRoutes path method (route :: rest) = matchRoutes path method rest := by
  simp [matchRoutes, h]

theorem matchRoutes_passed (h : route.methods ≠ ∅ ∧ method ∉ route.methods) :
    matchRoutes path method (route :: rest) = matchRoutes path method rest := by
  rw [matchRoutes, if_pos h]

theorem matchRoutes_taken (h : ¬(route.methods ≠ ∅ ∧ method ∉ route.methods))
    (hpath : matchPath route path = some captures) :
    ∃ axis, matchRoutes path method (route :: rest) = some (route, axis, captures) := by
  rw [matchRoutes, if_neg h, hpath]
  dsimp only
  split_ifs
  · exact ⟨_, rfl⟩
  · exact ⟨_, rfl⟩

/-- The deciding routes are those that a method picks. -/
theorem mem_deciders_iff {routes : List Route} : captures ∈ deciders path claimed routes ↔
    ∃ method m, method ∉ claimed ∧ matchRoutes path method routes = some m ∧ m.2.2 = captures := by
  induction routes generalizing claimed with
  | nil => simp [deciders, matchRoutes]
  | cons route rest ih =>
    rw [deciders]
    cases hpath : matchPath route path with
    | none =>
      simp only [matchRoutes_refused hpath]
      exact ih
    | some first =>
      dsimp only
      split_ifs with hany hclaimed
      · have htaken : ∀ method, ∃ axis,
            matchRoutes path method (route :: rest) = some (route, axis, first) :=
          fun method => matchRoutes_taken (by simp [hany]) hpath
        rw [List.mem_singleton]
        constructor
        · rintro rfl
          obtain ⟨method, hfree⟩ := Infinite.exists_notMem_finset claimed
          obtain ⟨axis, hm⟩ := htaken method
          exact ⟨method, _, hfree, hm, rfl⟩
        · rintro ⟨method, m, -, hm, rfl⟩
          obtain ⟨axis, hm'⟩ := htaken method
          obtain rfl := Option.some.inj (hm.symm.trans hm')
          rfl
      · -- the methods of the route are taken, so a request passes it by
        rw [ih]
        refine exists_congr fun method => exists_congr fun m => and_congr_right fun hfree => ?_
        rw [matchRoutes_passed ⟨hany, fun hmem => hfree (hclaimed hmem)⟩]
      · have htaken : ∀ method ∈ route.methods, ∃ axis,
            matchRoutes path method (route :: rest) = some (route, axis, first) :=
          fun method hmem => matchRoutes_taken (fun h => h.2 hmem) hpath
        rw [List.mem_cons, ih]
        constructor
        · rintro (rfl | ⟨method, m, hfree, hm, rfl⟩)
          · obtain ⟨method, hmem, hfree⟩ := Finset.not_subset.mp hclaimed
            obtain ⟨axis, hm⟩ := htaken method hmem
            exact ⟨method, _, hfree, hm, rfl⟩
          · rw [Finset.mem_union, not_or] at hfree
            exact ⟨method, m, hfree.1, by rw [matchRoutes_passed ⟨hany, hfree.2⟩, hm], rfl⟩
        · rintro ⟨method, m, hfree, hm, rfl⟩
          by_cases hmem : method ∈ route.methods
          · obtain ⟨axis, hm'⟩ := htaken method hmem
            obtain rfl := Option.some.inj (hm.symm.trans hm')
            exact Or.inl rfl
          · rw [matchRoutes_passed ⟨hany, hmem⟩] at hm
            exact Or.inr ⟨method, m, by simp [hfree, hmem], hm, rfl⟩

end Deciders

section Scan

/-- The scan after the routes with the given captures decided. -/
structure PathScan.Sums (s : PathScan) (decided : List Captures) : Prop where
  deciders_eq : s.deciders = decided.length
  produced_eq : ∀ name, s.produced name = decided.countP fun c => name ∈ c
  agreed : ∀ name, name ∉ s.conflict → ∀ c ∈ decided, ∀ v, c.lookup name = some v →
    s.values.lookup name = some v
  valued : ∀ name v, s.values.lookup name = some v → ∃ c ∈ decided, c.lookup name = some v
  conflicting : ∀ name ∈ s.conflict, ∃ c ∈ decided, ∃ c' ∈ decided, name ∈ c ∧ name ∈ c' ∧
    c.lookup name ≠ c'.lookup name

theorem PathScan.empty_sums : PathScan.empty.Sums [] :=
  ⟨rfl, fun _ => rfl, by simp, by simp [PathScan.empty], by simp [PathScan.empty]⟩

variable {s : PathScan} {decided : List Captures}

theorem PathScan.Sums.decide (h : s.Sums decided) (captures : Captures) :
    (s.decide captures).Sums (decided ++ [captures]) := by
  have hlast : captures ∈ decided ++ [captures] :=
    List.mem_append_right _ (List.mem_singleton_self _)
  refine ⟨by simp [PathScan.decide, h.deciders_eq], fun name => ?_, ?_, fun name v hv => ?_,
    fun name hname => ?_⟩
  · rw [List.countP_append, ← h.produced_eq name]
    by_cases hmem : name ∈ captures <;> simp [PathScan.decide, hmem]
  · intro name hname c hc v hv
    simp only [PathScan.decide, Finset.mem_union, Finset.mem_filter, Finmap.mem_keys, not_or,
      not_and, not_not, ne_eq] at hname
    obtain ⟨hbefore, hagree⟩ := hname
    rcases List.mem_append.mp hc with hc | hc
    · -- an earlier route produced the value, so a value here is the same one
      have hold := h.agreed name hbefore c hc v hv
      by_cases hmem : name ∈ captures
      · rw [PathScan.decide, Finmap.lookup_union_left hmem, ← hagree hmem (by simp [hold]), hold]
      · rw [PathScan.decide, Finmap.lookup_union_right hmem, hold]
    · obtain rfl := List.mem_singleton.mp hc
      rw [PathScan.decide, Finmap.lookup_union_left (Finmap.mem_of_lookup_eq_some hv), hv]
  · by_cases hmem : name ∈ captures
    · rw [PathScan.decide, Finmap.lookup_union_left hmem] at hv
      exact ⟨captures, hlast, hv⟩
    · rw [PathScan.decide, Finmap.lookup_union_right hmem] at hv
      obtain ⟨c, hc, hcv⟩ := h.valued name v hv
      exact ⟨c, List.mem_append_left _ hc, hcv⟩
  · rcases Finset.mem_union.mp hname with hold | hnew
    · obtain ⟨c, hc, c', hc', hdiffer⟩ := h.conflicting name hold
      exact ⟨c, List.mem_append_left _ hc, c', List.mem_append_left _ hc', hdiffer⟩
    · obtain ⟨hmem, hseen, hdiffer⟩ := Finset.mem_filter.mp hnew
      obtain ⟨v, hv⟩ := Option.ne_none_iff_exists'.mp hseen
      obtain ⟨c, hc, hcv⟩ := h.valued name v hv
      refine ⟨c, List.mem_append_left _ hc, captures, hlast, Finmap.mem_of_lookup_eq_some hcv,
        Finmap.mem_keys.mp hmem, ?_⟩
      rw [hcv, ← hv]
      exact hdiffer

theorem scanRoutes_sums (path : Text) (h : s.Sums decided) (routes : List Route) :
    (scanRoutes path routes s).Sums (decided ++ deciders path s.claimed routes) := by
  induction routes generalizing s decided with
  | nil => simpa [scanRoutes, deciders] using h
  | cons route rest ih =>
    rw [scanRoutes, deciders]
    cases hpath : matchPath route path with
    | none => exact ih h
    | some captures =>
      dsimp only
      split_ifs with hany hclaimed
      · exact h.decide captures
      · exact ih h
      · have hnext : ({ s with claimed := s.claimed ∪ route.methods } : PathScan).Sums decided :=
          ⟨h.deciders_eq, h.produced_eq, h.agreed, h.valued, h.conflicting⟩
        have hrest := ih (hnext.decide captures)
        rw [List.append_assoc] at hrest
        exact hrest

theorem PathScan.Sums.settles_iff (h : s.Sums decided) (name : Text) :
    s.settles name = true ↔ ∃ v, ∀ c ∈ decided, c.lookup name = some v := by
  simp only [PathScan.settles, Bool.and_eq_true, decide_eq_true_eq]
  rw [h.produced_eq, h.deciders_eq, List.countP_eq_length]
  constructor
  · rintro ⟨hall, hconflict⟩
    refine ⟨(s.values.lookup name).getD [], fun c hc => ?_⟩
    obtain ⟨v, hv⟩ := Finmap.mem_iff.mp (of_decide_eq_true (hall c hc))
    rw [h.agreed name hconflict c hc v hv, hv]
    rfl
  · rintro ⟨v, hall⟩
    refine ⟨fun c hc => decide_eq_true (Finmap.mem_of_lookup_eq_some (hall c hc)), fun hmem => ?_⟩
    obtain ⟨c, hc, c', hc', -, -, hdiffer⟩ := h.conflicting name hmem
    exact hdiffer ((hall c hc).trans (hall c' hc').symm)

theorem PathScan.Sums.lookup_values (h : s.Sums decided) {name v : Text} (hne : decided ≠ [])
    (hall : ∀ c ∈ decided, c.lookup name = some v) : s.values.lookup name = some v := by
  obtain ⟨c, rest, rfl⟩ := List.exists_cons_of_ne_nil hne
  have hsettles := (h.settles_iff name).mpr ⟨v, hall⟩
  simp only [PathScan.settles, Bool.and_eq_true, decide_eq_true_eq] at hsettles
  exact h.agreed name hsettles.2 c List.mem_cons_self v (hall c List.mem_cons_self)

theorem PathScan.Sums.produced_eq_zero_iff (h : s.Sums decided) (name : Text) :
    s.produced name = 0 ↔ ∀ c ∈ decided, name ∉ c := by
  rw [h.produced_eq, List.countP_eq_zero]
  simp

end Scan

section Settled

theorem foldl_settle (s : PathScan) (t : Target) (name : Text) (names : List Text) :
    (names.foldl s.settle t).block = t.block ∧
    (name ∈ (names.foldl s.settle t).undecided ↔
      name ∈ t.undecided ∨ name ∈ names ∧ s.settles name = false ∧ s.produced name ≠ 0) ∧
    (names.foldl s.settle t).captures.lookup name =
      if name ∈ names ∧ s.settles name = true then some ((s.values.lookup name).getD [])
      else t.captures.lookup name := by
  induction names generalizing t with
  | nil => simp
  | cons n names ih =>
    rw [List.foldl_cons]
    obtain ⟨hblock, hundecided, hcaptures⟩ := ih (s.settle t n)
    rw [hblock, hundecided, hcaptures]
    by_cases hn : name = n
    · subst hn
      by_cases hsettles : s.settles name = true
      · simp [PathScan.settle, hsettles]
      · by_cases hnone : s.produced name = 0
        · simp [PathScan.settle, hsettles, hnone]
        · simp [PathScan.settle, hsettles, hnone]
    · by_cases hsettles : s.settles n = true
      · simp [PathScan.settle, hsettles, hn, Finmap.lookup_insert_of_ne _ hn]
      · by_cases hnone : s.produced n = 0
        · simp [PathScan.settle, hsettles, hnone, hn]
        · simp [PathScan.settle, hsettles, hnone, hn]

end Settled

section Targets

def decidedBy (path : Text) (block : Block) : List Captures :=
  if block.routes = [] then [∅] else deciders path ∅ block.routes

variable {path : Text} {block : Block} {target : Target}

theorem mem_decidedBy_iff {captures : Captures} : captures ∈ decidedBy path block ↔
    ∃ method m, matchTarget block path method = some m ∧ m.2.2 = captures := by
  unfold decidedBy matchTarget
  by_cases hroutes : block.routes = []
  · simp [hroutes, eq_comm]
  · simp only [if_neg hroutes, mem_deciders_iff, Finset.notMem_empty, not_false_eq_true, true_and,
      Option.map_eq_some_iff]
    constructor
    · rintro ⟨method, m, hm, rfl⟩
      exact ⟨method, _, ⟨m, hm, rfl⟩, rfl⟩
    · rintro ⟨method, -, ⟨m, hm, rfl⟩, rfl⟩
      exact ⟨method, m, hm, rfl⟩

theorem targetByPath_isSome_iff : (targetByPath path block).isSome = true ↔
    decidedBy path block ≠ [] := by
  have hnone : (scanRoutes path block.routes .empty).deciders = 0 ↔
      deciders path ∅ block.routes = [] := by
    rw [(scanRoutes_sums path PathScan.empty_sums block.routes).deciders_eq,
      List.length_eq_zero_iff]
    rfl
  unfold targetByPath decidedBy
  by_cases hroutes : block.routes = []
  · simp [hroutes]
  · simp [hroutes, hnone]

theorem targetByPath_spec (htarget : targetByPath path block = some target) :
    target.block = block ∧
    (∀ name v, target.captures.lookup name = some v ↔
      name ∈ block.captures ∧ ∀ c ∈ decidedBy path block, c.lookup name = some v) ∧
    ∀ name, name ∈ target.undecided ↔ name ∈ block.captures ∧
      ∃ c ∈ decidedBy path block, name ∈ c ∧
        ∃ c' ∈ decidedBy path block, c'.lookup name ≠ c.lookup name := by
  have hsome := targetByPath_isSome_iff.mp (Option.isSome_of_eq_some htarget)
  unfold targetByPath at htarget
  unfold decidedBy at hsome ⊢
  by_cases hroutes : block.routes = []
  · rw [if_pos hroutes] at htarget
    obtain rfl := Option.some.inj htarget
    simp [hroutes]
  rw [if_neg hroutes] at htarget hsome ⊢
  dsimp only at htarget
  split_ifs at htarget
  obtain rfl := Option.some.inj htarget
  have hsums := scanRoutes_sums path PathScan.empty_sums block.routes
  rw [List.nil_append, show PathScan.empty.claimed = ∅ from rfl] at hsums
  refine ⟨(foldl_settle _ _ [] _).1, fun name v => ?_, fun name => ?_⟩
  · rw [(foldl_settle _ _ name _).2.2]
    split_ifs with hsettled
    · obtain ⟨v', hall⟩ := (hsums.settles_iff name).mp hsettled.2
      obtain ⟨c, hc⟩ := List.exists_mem_of_ne_nil _ hsome
      rw [hsums.lookup_values hsome hall, Option.getD_some, Option.some.injEq]
      constructor
      · rintro rfl
        exact ⟨hsettled.1, hall⟩
      · rintro ⟨-, hall'⟩
        exact Option.some.inj ((hall c hc).symm.trans (hall' c hc))
    · constructor
      · intro hempty
        cases hempty
      · rintro ⟨hname, hall⟩
        exact absurd ⟨hname, (hsums.settles_iff name).mpr ⟨v, hall⟩⟩ hsettled
  · rw [(foldl_settle _ _ name _).2.1]
    simp only [List.not_mem_nil, false_or, ne_eq, hsums.produced_eq_zero_iff]
    refine and_congr_right fun _ => ?_
    rw [Bool.eq_false_iff, ne_eq, hsums.settles_iff]
    push Not
    constructor
    · rintro ⟨hopen, c, hc, hmem⟩
      obtain ⟨v, hv⟩ := Finmap.mem_iff.mp hmem
      obtain ⟨c', hc', hdiffer⟩ := hopen v
      exact ⟨c, hc, hmem, c', hc', by rwa [hv]⟩
    · rintro ⟨c, hc, hmem, c', hc', hdiffer⟩
      refine ⟨fun v => ?_, c, hc, hmem⟩
      by_cases hcv : c.lookup name = some v
      · exact ⟨c', hc', hcv ▸ hdiffer⟩
      · exact ⟨c, hc, hcv⟩

/-- A target selected under any method agrees with the request that reaches the
block under one, on every capture that the target settles. -/
theorem targetByPath_sound {method : Text} (htarget : targetByPath path block = some target)
    {m : Option Route × Text × Captures} (hm : matchTarget block path method = some m) :
    target.block = block ∧ ∀ name ∈ block.captures, name ∉ target.undecided →
      m.2.2.lookup name = target.captures.lookup name := by
  obtain ⟨hblock, hcaptures, hundecided⟩ := targetByPath_spec htarget
  have hmem : m.2.2 ∈ decidedBy path block := mem_decidedBy_iff.mpr ⟨method, m, hm, rfl⟩
  refine ⟨hblock, fun name hname hopen => ?_⟩
  cases hv : m.2.2.lookup name with
  | some v =>
    refine ((hcaptures name v).mpr ⟨hname, fun c hc => ?_⟩).symm
    by_contra hdiffer
    exact hopen ((hundecided name).mpr ⟨hname, m.2.2, hmem, Finmap.mem_of_lookup_eq_some hv, c, hc,
      hv ▸ hdiffer⟩)
  | none =>
    refine (Option.eq_none_iff_forall_ne_some.mpr fun v hv' => ?_).symm
    have hsettled := ((hcaptures name v).mp hv').2 _ hmem
    rw [hv] at hsettled
    cases hsettled

end Targets

end Ratelimit.Match
