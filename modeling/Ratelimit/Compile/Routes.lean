import Ratelimit.Compile.Environment

/-!
# Compilation of a block's routes

A route is an exact path, a prefix or a template, with the methods it admits
and the query parameter its cost is read from. A template is split into
segments, and its placeholders become keys of the block.
-/
namespace Ratelimit.Compile

open Library

structure BlockCompiler where
  scope : Key.Scope
  env : Environment

def httpMethods : List Text :=
  [ascii "GET", ascii "POST", ascii "PUT", ascii "DELETE", ascii "PATCH", ascii "HEAD",
    ascii "OPTIONS", ascii "CONNECT", ascii "TRACE"]

/-- The default of a cost entry; zero reads as one. -/
def resolveCost (defaultCost : ℤ) : ℤ := if defaultCost = 0 then 1 else defaultCost

def compileCost (b : Model.Block) : Option Model.RouteCost → Checked (Option Cost)
  | none => pure none
  | some cost => do
    let foreign := cost.source ≠ .queryParameter
    let unnamed := costParameter cost.name = false ∨ maxCostParameterLength < cost.name.length
    let outside := resolveCost cost.defaultCost < 1 ∨ Model.maxCost < resolveCost cost.defaultCost
    Logged.reportIf foreign
      (failure b.name [] .invalidSpec "unknown cost source %q" [.text cost.source.text])
    Logged.reportIf unnamed
      (failure b.name [] .invalidSpec
        "cost parameter %q does not match %s or exceeds %d characters"
        [.text cost.name, .text costParameterPattern, .number maxCostParameterLength])
    Logged.reportIf outside
      (failure b.name [] .invalidSpec "default cost %d is outside 1..%d"
        [.number cost.defaultCost, .number Model.maxCost])
    pure (if foreign ∨ unnamed ∨ outside then none
      else some { parameter := cost.name, defaultCost := resolveCost cost.defaultCost })

def placeholderOpen : Text := [Key.openBrace]

def placeholderClose : Text := [Key.closeBrace]

def placeholderName (s : Text) : Text := (s.drop 1).dropLast

def isPlaceholder (s : Text) : Bool :=
  Strings.hasPrefix s placeholderOpen && Strings.hasSuffix s placeholderClose

/-- The loop of `compileTemplate` from segment `i` on. -/
def compileSegments (c : BlockCompiler) (b : Model.Block) (value : Text) :
    ℕ → List Text → List Text → Checked (List Segment)
  | _, _, [] => pure []
  | i, seen, s :: rest =>
    let name := placeholderName s
    if s = [] then do
      Logged.report (failure b.name [] .invalidSpec
        "template %q: segment %d is empty, a slash at the end or two in a row"
        [.text value, .number (i + 1)])
      compileSegments c b value (i + 1) seen rest
    else if isPlaceholder s = false then
      if Strings.containsAny s (placeholderOpen ++ placeholderClose) then do
        Logged.report (failure b.name [] .invalidSpec
          "template %q: segment %q is neither a literal nor a single \x7bplaceholder\x7d"
          [.text value, .text s])
        compileSegments c b value (i + 1) seen rest
      else do
        let segments ← compileSegments c b value (i + 1) seen rest
        pure ({ literal := s, capture := [] } :: segments)
    else if keyName name = false ∨ maxKeyLength < name.length then do
      Logged.report (failure b.name [] .invalidSpec
        "placeholder %q does not match %s or exceeds %d characters"
        [.text name, .text keyNamePattern, .number maxKeyLength])
      compileSegments c b value (i + 1) seen rest
    else if name ∈ [Model.keyPath, Model.keyMethod, Model.keySub, Model.keyToken] then do
      Logged.report (failure b.name [] .invalidSpec "placeholder %q collides with a built-in key"
        [.text name])
      compileSegments c b value (i + 1) seen rest
    else if name ∈ seen then do
      Logged.report (failure b.name [] .invalidSpec "placeholder %q repeats within one template"
        [.text name])
      compileSegments c b value (i + 1) seen rest
    else do
      Logged.reportIf (name ∈ c.env.keys) (failure b.name [] .captureShadowsMappedKey
        "capture %q shadows the mapped key of the same name inside this block" [.text name])
      let segments ← compileSegments c b value (i + 1) (name :: seen) rest
      pure ({ literal := [], capture := name } :: segments)

def templateSegments (value : Text) : List Text :=
  Strings.split (Strings.trimPrefix value (ascii "/")) (byte '/')

def compileTemplate (c : BlockCompiler) (b : Model.Block) (value : Text) :
    Checked (List Segment) :=
  compileSegments c b value 0 [] (templateSegments value)

def compilePath (c : BlockCompiler) (b : Model.Block) (path : Model.PathMatch) :
    Checked (List Segment) :=
  match path.type with
  | .exact => pure []
  | .pathPrefix => pure []
  | .template => compileTemplate c b path.value
  | .other t _ => do
    Logged.report (failure b.name [] .invalidSpec "unknown path type %q" [.text t])
    pure []

/-- The methods of a route, into those read so far. -/
def compileMethods (b : Model.Block) : List Text → Finset Text → Checked (Finset Text)
  | [], methods => pure methods
  | m :: ms, methods =>
    if m ∉ httpMethods then do
      Logged.report (failure b.name [] .invalidSpec "unknown HTTP method %q" [.text m])
      compileMethods b ms methods
    else if m ∈ methods then do
      Logged.report (failure b.name [] .invalidSpec "method %q is listed twice" [.text m])
      compileMethods b ms methods
    else compileMethods b ms (insert m methods)

def compileRoute (c : BlockCompiler) (b : Model.Block) (r : Model.Route) : Checked Route := do
  Logged.reportIf (Strings.hasPrefix r.path.value (ascii "/") = false)
    (failure b.name [] .invalidSpec "path %q does not start with /" [.text r.path.value])
  let segments ← compilePath c b r.path
  let methods ← compileMethods b r.methods ∅
  let cost ← compileCost b r.cost
  pure { type := r.path.type, value := r.path.value, segments, methods, cost }

def Route.captureNames (r : Route) : List Text :=
  (r.segments.map Segment.capture).filter (· ≠ [])

/-- The routes, and their captures without repetition in byte order. A name
enters the captures of the block exactly when its segment enters a route. -/
def compileRoutes (c : BlockCompiler) (b : Model.Block) : Checked (List Route × List Text) := do
  let routes ← Logged.collect (fun r => some <$> compileRoute c b r) b.routes
  pure (routes, (routes.flatMap Route.captureNames).dedup.insertionSort (· ≤ ·))

section Accepted

/-- How a segment of an accepted template reads: a literal without braces, or
a named placeholder. -/
structure SegmentOf (s : Text) (segment : Segment) : Prop where
  ne_nil : s ≠ []
  literal : isPlaceholder s = false → segment = ⟨s, []⟩
  capture : isPlaceholder s = true → segment = ⟨[], placeholderName s⟩ ∧ placeholderName s ≠ []

def placeholderNames (texts : List Text) : List Text :=
  (texts.filter isPlaceholder).map placeholderName

theorem keyName_ne_nil {s : Text} (h : keyName s = true) : s ≠ [] := by
  rintro rfl
  exact absurd h (by decide)

theorem compileSegments_accepted {c : BlockCompiler} {b : Model.Block} {value : Text} {i : ℕ}
    {seen texts : List Text} (hacc : Accepted (compileSegments c b value i seen texts)) :
    List.Forall₂ SegmentOf texts (compileSegments c b value i seen texts).value ∧
      (placeholderNames texts).Nodup ∧ (∀ n ∈ placeholderNames texts, n ∉ seen) ∧
      ∀ n ∈ placeholderNames texts,
        n ∉ [Model.keyPath, Model.keyMethod, Model.keySub, Model.keyToken] := by
  induction texts generalizing i seen with
  | nil => simp [compileSegments, placeholderNames]
  | cons s rest ih =>
    rw [compileSegments] at hacc ⊢
    split_ifs at hacc ⊢ with hnil hlit hbrace hname hbuiltin hseen <;>
      simp only [accepted_bind_iff, accepted_report_iff, blocking_failure] at hacc <;>
      try exact absurd hacc.1 (by decide)
    · -- a literal
      obtain ⟨hsegs, hrest⟩ := ih hacc.1
      refine ⟨List.Forall₂.cons ⟨hnil, fun _ => rfl, fun h => ?_⟩ hsegs, ?_⟩
      · exact absurd h (by simp [hlit])
      · simpa [placeholderNames, hlit] using hrest
    · -- a placeholder with a name of its own
      simp only [Bool.not_eq_false, not_or] at hlit hname
      obtain ⟨hsegs, hnodup, hfresh, hfree⟩ := ih hacc.2.1
      refine ⟨List.Forall₂.cons ⟨hnil, fun h => ?_, fun _ => ⟨rfl, keyName_ne_nil hname.1⟩⟩ hsegs,
        ?_⟩
      · exact absurd h (by simp [hlit])
      · simp only [placeholderNames, List.filter_cons_of_pos hlit, List.map_cons,
          List.nodup_cons, List.forall_mem_cons] at hnodup hfresh hfree ⊢
        refine ⟨⟨fun hm => hfresh _ hm List.mem_cons_self, hnodup⟩, ⟨hseen, fun n hn hs => ?_⟩,
          hbuiltin, hfree⟩
        exact hfresh n hn (List.mem_cons_of_mem _ hs)

theorem compileMethods_accepted {b : Model.Block} {ms : List Text} {methods : Finset Text}
    (hacc : Accepted (compileMethods b ms methods)) :
    (compileMethods b ms methods).value = methods ∪ ms.toFinset := by
  induction ms generalizing methods with
  | nil => simp [compileMethods]
  | cons m ms ih =>
    rw [compileMethods] at hacc ⊢
    split_ifs at hacc ⊢ with hknown hdup
    · simp at hacc
    · rw [ih hacc, List.toFinset_cons, Finset.insert_union, Finset.union_insert]
    · simp at hacc

structure CostOf (cost : Model.RouteCost) (out : Cost) : Prop where
  parameter_eq : out.parameter = cost.name
  parameter_ne : out.parameter ≠ []
  default_eq : out.defaultCost = resolveCost cost.defaultCost
  one_le_default : 1 ≤ out.defaultCost
  default_le : out.defaultCost ≤ Model.maxCost

theorem compileCost_accepted {b : Model.Block} {cost : Option Model.RouteCost}
    (hacc : Accepted (compileCost b cost)) :
    Option.Rel CostOf cost (compileCost b cost).value := by
  cases cost with
  | none => exact Option.Rel.none
  | some cost =>
    simp only [compileCost, accepted_bind_iff] at hacc
    have hsource := not_of_accepted_reportIf hacc.1 rfl
    have hname := not_of_accepted_reportIf hacc.2.1 rfl
    have hdefault := not_of_accepted_reportIf hacc.2.2.1 rfl
    have hvalue : (compileCost b (some cost)).value =
        some ⟨cost.name, resolveCost cost.defaultCost⟩ := by
      simp [compileCost, hsource, hname, hdefault]
    rw [hvalue]
    refine Option.Rel.some ⟨rfl, ?_, rfl, ?_, ?_⟩
    · exact costParameter_ne_nil (by by_contra h; exact hname (Or.inl (by simpa using h)))
    · exact not_lt.mp fun h => hdefault (Or.inl (by simpa using h))
    · exact not_lt.mp fun h => hdefault (Or.inr h)

structure RouteOf (r : Model.Route) (out : Route) : Prop where
  type_eq : out.type = r.path.type
  value_eq : out.value = r.path.value
  rooted : Strings.hasPrefix r.path.value (ascii "/") = true
  known : r.path.type ∈ [Model.PathType.exact, .pathPrefix, .template]
  segments : r.path.type = .template → List.Forall₂ SegmentOf (templateSegments r.path.value)
    out.segments ∧ (placeholderNames (templateSegments r.path.value)).Nodup
  methods_eq : out.methods = r.methods.toFinset
  cost : Option.Rel CostOf r.cost out.cost

theorem compileRoute_accepted {c : BlockCompiler} {b : Model.Block} {r : Model.Route}
    (hacc : Accepted (compileRoute c b r)) : RouteOf r (compileRoute c b r).value := by
  simp only [compileRoute, accepted_bind_iff] at hacc
  obtain ⟨hrooted, hpath, hmethods, hcost, -⟩ := hacc
  have hrooted := not_of_accepted_reportIf hrooted rfl
  refine ⟨rfl, rfl, Bool.not_eq_false _ ▸ hrooted, ?_, fun ht => ?_, ?_,
    compileCost_accepted hcost⟩
  · cases ht : r.path.type with
    | other t ht' => simp [compilePath, ht] at hpath
    | _ => simp
  · have hsegments : compilePath c b r.path = compileTemplate c b r.path.value := by
      simp [compilePath, ht]
    rw [hsegments] at hpath
    have hspec := compileSegments_accepted hpath
    refine ⟨?_, hspec.2.1⟩
    simp only [compileRoute, Logged.value_bind, Logged.value_pure, hsegments]
    exact hspec.1
  · simpa [compileRoute] using compileMethods_accepted hmethods

theorem compileRoutes_accepted {c : BlockCompiler} {b : Model.Block}
    (hacc : Accepted (compileRoutes c b)) :
    List.Forall₂ RouteOf b.routes (compileRoutes c b).value.1 := by
  simp only [compileRoutes, accepted_bind_iff] at hacc
  refine Logged.forall₂_collect hacc.1 fun r _ hr => ⟨(compileRoute c b r).value, rfl, ?_⟩
  exact compileRoute_accepted (accepted_bind_iff.mp hr).1

end Accepted

end Ratelimit.Compile
