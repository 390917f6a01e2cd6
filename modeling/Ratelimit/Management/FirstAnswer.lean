import Ratelimit.Management.Service
import Ratelimit.Records.Bindings

/-!
# The answers to one addressed reset

The store executes the first reset under a key and reports it to the others. A call that finds
the record answers its body; one that loses the race answers a body of its own, which is the
recorded one where both enforce the same version and the same rule.
-/
namespace Ratelimit.Management

open Library Records Compile

/-- Two calls of one command: the subject, the domain, the key and the canonical
command agree. -/
structure SameReset (std : Stdlib) (c c' : ResetCall) : Prop where
  scope : c.scope = c'.scope
  subject : c.subject = c'.subject
  idempotencyKey : c.idempotencyKey = c'.idempotencyKey
  selector : parseSelector std c.query = parseSelector std c'.query
  dryRun : parseEnumTrue c.query "dryRun" = parseEnumTrue c'.query "dryRun"
  expectedVersion : c.query.get "expectedRuleSetVersion" = c'.query.get "expectedRuleSetVersion"

/-- Two replicas enforce one version, and one definition of the rule that the first
call names. -/
structure SameRule (std : Stdlib) (a a' : Addressing) : Prop where
  version : a.served.version = a'.served.version
  rule : ∀ selector id block rule, parseSelector std a.call.query = .ok selector →
    id ∈ selector.ruleIDs → splitID id = some (block, rule) →
    (findRule a.served.snapshot block rule).map Prod.snd =
      (findRule a'.served.snapshot block rule).map Prod.snd

/-- The reset of the addressed call ran after so much of the history. -/
def ResetFor (std : Stdlib) (w : Replicas) (a : Addressing) (pre : List Ev) (r : Addressed)
    (v : ResetVerdict) : Prop :=
  ∃ i late o post, ∃ t : Replica, w.history = pre ++ .ran ⟨i, late, o, .reset r, v⟩ :: post ∧
    w.threads[i]? = some t ∧ t.call = .reset a.call ∧ address std a.call = .ok a

/-- An addressed call of the schedule whose record is under `k`. -/
def OnRecord (std : Stdlib) (w : Replicas) (k : Text) (t : Replica) (a : Addressing) : Prop :=
  (∃ i : ℕ, w.threads[i]? = some t) ∧ t.call = .reset a.call ∧ address std a.call = .ok a ∧ a.record = k

/-- Every success answers the body of the call whose reset ran. -/
structure FirstAnswer (std : Stdlib) (w : Replicas) (k : Text) : Prop where
  executed_once : ∀ a a' pre pre' r r' n n', ResetFor std w a pre r (.done n) →
    ResetFor std w a' pre' r' (.done n') → r.record = k → r'.record = k →
    pre = pre' ∧ r = r' ∧ n = n'
  answered : ∀ t a body, OnRecord std w k t a → t.rest = .done (.reset (.body body)) →
    ∃ a₀ c₀ pre r n, ResetFor std w a₀ pre r (.done n) ∧ r.record = k ∧
      a₀.judge std = .ok c₀ ∧ body = counted (a₀.answer c₀) n
  alike : ∀ t t' a a' body body', OnRecord std w k t a → OnRecord std w k t' a' →
    t.rest = .done (.reset (.body body)) → t'.rest = .done (.reset (.body body')) → body = body'

def Retained (k : Text) (h : List Ev) : Prop :=
  ∀ p q, p <+: q → q <+: h → ((after p).records.lookup k).isSome = true →
    ((after q).records.lookup k).isSome = true

section Bodies

variable {std : Stdlib} {a a' : Addressing} {c c' : ResetCommand}

theorem answer_eq (hsame : SameReset std a.call a'.call) (hrule : SameRule std a a')
    (hc : a.judge std = .ok c) (hc' : a'.judge std = .ok c') : a.answer c = a'.answer c' := by
  obtain ⟨hr, -⟩ := judgeReset_ok std hc
  obtain ⟨hr', -⟩ := judgeReset_ok std hc'
  have hselector : c.selector = c'.selector := by
    have h := hsame.selector
    rw [hr.selector, hr'.selector] at h
    exact Except.ok.inj h
  have hdryRun : c.dryRun = c'.dryRun := by
    have h := hsame.dryRun
    rw [hr.dryRun, hr'.dryRun] at h
    exact Except.ok.inj h
  have hid : c.id = c'.id := by
    have h := hr.ruleIDs
    rw [hselector, hr'.ruleIDs] at h
    exact (List.cons.inj h).1.symm
  have hdefined : c.rule = c'.rule := by
    obtain ⟨block, rule, hsplit, hfind⟩ := hr.rule
    obtain ⟨block', rule', hsplit', hfind'⟩ := hr'.rule
    rw [← hid, hsplit] at hsplit'
    obtain ⟨rfl, rfl⟩ := Prod.mk.inj (Option.some.inj hsplit')
    have h := hrule.rule _ c.id block rule hr.selector (by rw [hr.ruleIDs]; simp) hsplit
    rw [hfind, hfind'] at h
    exact Option.some.inj h
  have hordered : c.ordered = c'.ordered := by
    have h := hr.ordered
    rw [hid, hdefined, hselector, hr'.ordered] at h
    exact (Except.ok.inj h).symm
  have haxes : c.axesByName = c'.axesByName := by
    rw [hr.axesByName, hr'.axesByName, hdefined, hordered]
  have hkeys : c.keys = c'.keys := by
    unfold ResetCommand.keys ResetCommand.windowSelected ResetCommand.bucketOf
    rw [hselector, hdefined, hordered]
  have hdomain : a.served.snapshot.domain = a'.served.snapshot.domain := by
    rw [a.served.domain_eq, a'.served.domain_eq, hsame.scope]
  unfold Addressing.answer resetAnswer
  rw [hdomain, hid, hrule.version, haxes, hkeys, hdryRun]

end Bodies

section Owners

theorem address_call {std : Stdlib} {c : ResetCall} {a : Addressing} (h : address std c = .ok a) :
    a.call = c := by
  unfold address at h
  cases hadmits : admitReset std c with
  | error e =>
    rw [hadmits] at h
    cases h
  | ok admitted =>
    rw [hadmits] at h
    cases h
    rfl

variable {std : Stdlib} {cs : Schedule} {pre post : List Ev} {k : Text}

theorem reset_ran {i : ℕ} {late : Bool} {o : Oracle} {r : Addressed} {v : ResetVerdict}
    (h : (serve std cs).history = pre ++ .ran ⟨i, late, o, .reset r, v⟩ :: post) :
    ∃ t a c τ, (serve std cs).threads[i]? = some t ∧ t.call = .reset a.call ∧
      address std a.call = .ok a ∧ a.Sends std c τ r := by
  have htraced := serve_traced std cs
  obtain ⟨-, t, ht, -, τ, hτ, -⟩ := htraced.ran _ _ _ h
  have hallowed := htraced.sent i t ht τ _ hτ
  cases hcall : t.call with
  | bulk c =>
    rw [hcall] at hallowed
    obtain ⟨a, -, hpermits⟩ := hallowed
    exact hpermits.elim
  | reset c =>
    rw [hcall] at hallowed
    obtain ⟨a, haddress, -, command, hsends⟩ := hallowed
    obtain rfl := address_call haddress
    exact ⟨t, a, command, τ, ht, hcall, haddress, hsends⟩

theorem ResetFor.onRecord {a : Addressing} {r : Addressed} {v : ResetVerdict}
    (h : ResetFor std (serve std cs) a pre r v) (hr : r.record = k) :
    ∃ t, OnRecord std (serve std cs) k t a := by
  obtain ⟨i, late, o, post, t, hsplit, hi, hcall, haddress⟩ := h
  obtain ⟨t', a', c, τ, hi', hcall', haddress', hsends⟩ := reset_ran hsplit
  obtain rfl := Option.some.inj (hi.symm.trans hi')
  have hsame := Call.reset.inj (hcall.symm.trans hcall')
  rw [hsame, haddress'] at haddress
  obtain rfl := Except.ok.inj haddress
  exact ⟨t, ⟨i, hi⟩, hcall, haddress', hsends.record.symm.trans hr⟩

theorem executed_for {f : Fields} (h : (serve std cs).history = pre ++ post)
    (hf : (after pre).fields k = some f) (hreset : f.count ≠ none ∨ f.answer ≠ none) :
    ∃ a c p r n, ResetFor std (serve std cs) a p r (.done n) ∧ r.record = k ∧
      a.judge std = .ok c ∧ f.command = some (c.hash std) ∧ f.count = some n ∧
      f.answer = some (a.answer c) := by
  have hgenuine := @genuine_serve std cs
  rw [h] at hgenuine
  obtain ⟨p, ev, mid, r, n, rfl, ⟨i, late, o, rfl⟩, hrecord, hcommand, hcount, hanswer⟩ :=
    hgenuine.of_append.origin hf hreset
  rw [List.append_assoc, List.cons_append] at h
  obtain ⟨t, a, c, τ, ht, hcall, haddress, hsends⟩ := reset_ran h
  refine ⟨a, c, p, r, n, ⟨i, late, o, _, t, h, ht, hcall, haddress⟩, hrecord, hsends.judged, ?_,
    hcount, ?_⟩
  · rw [hcommand, hsends.command]
  · rw [hanswer, hsends.answer]

theorem not_executed_later {pre' : List Ev} {a a' : Addressing} {r r' : Addressed} {n n' : ℕ}
    (hkept : Retained k (serve std cs).history) (h : ResetFor std (serve std cs) a pre r (.done n))
    (h' : ResetFor std (serve std cs) a' pre' r' (.done n')) (hr : r.record = k)
    (hr' : r'.record = k) :
    ¬ pre.length < pre'.length := by
  intro hlt
  obtain ⟨i, late, o, post, t, hsplit, -⟩ := h
  obtain ⟨i', late', o', post', t', hsplit', -⟩ := h'
  obtain ⟨mid, rfl⟩ := prefix_of_lt (hsplit.symm.trans hsplit') hlt
  have hwhole : (serve std cs).history = pre ++ [.ran ⟨i, late, o, .reset r, .done n⟩] ++ mid ++
      [.ran ⟨i', late', o', .reset r', .done n'⟩] ++ post' := by
    rw [hsplit']
    simp
  have hgenuine := @genuine_serve std cs
  rw [hwhole] at hgenuine hkept
  have hfirst := hgenuine.of_append.of_append.of_append.fields_of_executes ⟨i, late, o, rfl⟩
  have hsecond := hgenuine.of_append.fields_of_executes ⟨i', late', o', rfl⟩
  obtain ⟨-, f, hf, hcommand⟩ := hfirst
  rw [hr] at hf
  have hthere : ((after (pre ++ [.ran ⟨i, late, o, .reset r, .done n⟩])).records.lookup k).isSome =
      true := by
    obtain ⟨b, hb, -⟩ := Option.map_eq_some_iff.mp hf
    rw [hb]
    rfl
  have hretained : RetainedThrough k (pre ++ [.ran ⟨i, late, o, .reset r, .done n⟩]) mid := by
    intro q hq
    refine hkept _ _ (List.prefix_append _ q) ?_ hthere
    refine ((List.prefix_append_right_inj _).mpr hq).trans ?_
    exact (List.prefix_append _ _).trans (List.prefix_append _ _)
  obtain ⟨f', hf', hcommand', -, -⟩ :=
    hgenuine.of_append.of_append.bound_kept hf hcommand hretained
  rw [hr', hf'] at hsecond
  cases hsecond.1.symm.trans hcommand'

variable {a a' : Addressing} {t t' : Replica}

theorem answered_first
    (hgroup : ∀ t t' a a', OnRecord std (serve std cs) k t a → OnRecord std (serve std cs) k t' a' →
      SameReset std a.call a'.call)
    (hrules : ∀ a a' p p' r r' v v', ResetFor std (serve std cs) a p r v →
      ResetFor std (serve std cs) a' p' r' v' → r.record = k → r'.record = k → SameRule std a a')
    {body : ResetResponse} (ht : OnRecord std (serve std cs) k t a)
    (hrest : t.rest = .done (.reset (.body body))) :
    ∃ a₀ c₀ p r n, ResetFor std (serve std cs) a₀ p r (.done n) ∧ r.record = k ∧
      a₀.judge std = .ok c₀ ∧ body = counted (a₀.answer c₀) n := by
  obtain ⟨⟨i, hi⟩, hcall, haddress, hrecord⟩ := ht
  have hgives := (serve_traced std cs).obeys i t hi
  rw [hrest, hcall] at hgives
  rcases hgives with ⟨e, he⟩ | ⟨a', haddress', hanswers⟩
  · cases he
  obtain rfl := Except.ok.inj (haddress.symm.trans haddress')
  rcases hanswers body rfl with ⟨f, holder, ttl, binding, answer, hreads, -, -, hanswer, rfl⟩ |
    ⟨c, τ, r, verdict, count, hτ, hsends, hverdict, rfl⟩
  · -- the body was read from the record
    have hread : ⟨.fields a.record, some (some f)⟩ ∈ t.transcript := by
      rw [hreads]
      exact List.mem_cons_self
    obtain ⟨p, o, post, hsplit, -, hreply⟩ := (serve_traced std cs).executed_of_mem hi hread
    have hf : (after p).fields k = some f := by
      rw [← hrecord]
      exact hreply.symm
    obtain ⟨a₀, c₀, p₀, r, n, hran, hr, hjudged, -, hcount, hanswer'⟩ :=
      executed_for hsplit hf (Or.inr (by rw [hanswer]; exact Option.some_ne_none _))
    rw [hanswer] at hanswer'
    obtain rfl := Option.some.inj hanswer'
    refine ⟨a₀, c₀, p₀, r, n, hran, hr, hjudged, ?_⟩
    simp only [recordOf, hcount]
  · have hlast : τ ++ [⟨.reset r, some verdict⟩] <+: t.transcript := by rw [hτ]
    obtain ⟨p, o, post, hsplit, -, -, hreply⟩ := (serve_traced std cs).position hi hlast
    have hran : ResetFor std (serve std cs) a p r verdict :=
      ⟨i, false, o, post, t, hsplit, hi, hcall, haddress⟩
    have hr : r.record = k := hsends.record.trans hrecord
    rcases hverdict with rfl | ⟨answer, rfl⟩
    · exact ⟨a, c, p, r, count, hran, hr, hsends.judged, rfl⟩
    · -- the call lost the race, and answers its own body
      have hreplayed : ResetVerdict.replayed (c.hash std) (some count) answer =
        (resetScript (after p) r).2 := hreply
      rcases resetScript_cases (after p) r with ⟨f, command, hf, -, hsame⟩ | ⟨m, -, hdone, -⟩
      · rw [hsame] at hreplayed
        obtain ⟨-, hcount, -⟩ := ResetVerdict.replayed.inj hreplayed
        rw [hr] at hf
        obtain ⟨a₀, c₀, p₀, r₀, n, hran₀, hr₀, hjudged, -, hcount', -⟩ :=
          executed_for hsplit hf (Or.inl (by rw [← hcount]; exact Option.some_ne_none _))
        rw [← hcount] at hcount'
        obtain rfl := Option.some.inj hcount'
        refine ⟨a₀, c₀, p₀, r₀, count, hran₀, hr₀, hjudged, ?_⟩
        have hrule := hrules a a₀ p p₀ r r₀ _ _ hran hran₀ hr hr₀
        obtain ⟨t₀, ht₀⟩ := hran₀.onRecord hr₀
        have hsame := hgroup t t₀ a a₀ ⟨⟨i, hi⟩, hcall, haddress, hrecord⟩ ht₀
        rw [answer_eq hsame hrule hsends.judged hjudged]
      · rw [hdone] at hreplayed
        cases hreplayed

/-- Every success of a command answers the body of the call whose reset ran, where the record does not
expire and the calls enforce one version and one definition of the named rule. -/
theorem reset_first_answer (std : Stdlib) (cs : Schedule) (k : Text)
    (hgroup : ∀ t t' a a', OnRecord std (serve std cs) k t a → OnRecord std (serve std cs) k t' a' →
      SameReset std a.call a'.call)
    (hkept : Retained k (serve std cs).history)
    (hrules : ∀ a a' p p' r r' v v', ResetFor std (serve std cs) a p r v →
      ResetFor std (serve std cs) a' p' r' v' → r.record = k → r'.record = k → SameRule std a a') :
    FirstAnswer std (serve std cs) k := by
  have honce : ∀ a a' pre pre' r r' n n', ResetFor std (serve std cs) a pre r (.done n) →
      ResetFor std (serve std cs) a' pre' r' (.done n') → r.record = k → r'.record = k →
      a = a' ∧ pre = pre' ∧ r = r' ∧ n = n' := by
    intro a a' pre pre' r r' n n' h h' hr hr'
    have hlength : pre.length = pre'.length := by
      have hle := not_executed_later hkept h h' hr hr'
      have hge := not_executed_later hkept h' h hr' hr
      omega
    obtain ⟨i, late, o, post, t, hsplit, hi, hcall, haddress⟩ := h
    obtain ⟨i', late', o', post', t', hsplit', hi', hcall', haddress'⟩ := h'
    obtain ⟨rfl, htail⟩ := List.append_inj (hsplit.symm.trans hsplit') hlength
    cases (List.cons.inj htail).1
    obtain rfl := Option.some.inj (hi.symm.trans hi')
    rw [Call.reset.inj (hcall.symm.trans hcall'), haddress'] at haddress
    exact ⟨(Except.ok.inj haddress).symm, rfl, rfl, rfl⟩
  constructor
  · intro a a' pre pre' r r' n n' h h' hr hr'
    exact (honce a a' pre pre' r r' n n' h h' hr hr').2
  · exact fun t a body ht hrest => answered_first hgroup hrules ht hrest
  · intro t t' a a' body body' ht ht' hrest hrest'
    obtain ⟨a₀, c₀, p, r, n, hran, hr, hjudged, rfl⟩ := answered_first hgroup hrules ht hrest
    obtain ⟨a₁, c₁, p', r', n', hran', hr', hjudged', rfl⟩ := answered_first hgroup hrules ht' hrest'
    obtain ⟨rfl, rfl, rfl, rfl⟩ := honce _ _ _ _ _ _ _ _ hran hran' hr hr'
    obtain rfl := Except.ok.inj (hjudged.symm.trans hjudged')
    rfl

end Owners

section Sample

def ordersShop (version : Text) : Served (ascii "shop") :=
  policyShop (tenantPolicy .unset []) version

def ordersRecord : Text :=
  recordKey sampleStdlib shopScope endpointCounters (ascii "alice") (ascii "k-1")

def ordersBody (version : Text) : ResetResponse :=
  ⟨ascii "shop", ascii "orders/tenant", version, ∅,
    [ascii "rl:v1:\x7bprod/shop\x7d:orders/tenant:gcra:60:"], false, none, some 0⟩

theorem call_of_racing {s : Served (ascii "shop")} {i : ℕ} {t : Replica}
    (hi : (serve sampleStdlib (racingResets s s)).threads[i]? = some t) :
    t.call = .reset (resetOrders s) := by
  have hmem := List.mem_of_getElem? (call_spawned hi)
  have hspawned : spawned (racingResets s s) = [.reset (resetOrders s), .reset (resetOrders s)] := rfl
  rw [hspawned] at hmem
  simpa using hmem

theorem reset_first_answer_race :
    FirstAnswer sampleStdlib
      (serve sampleStdlib (racingResets (ordersShop (ascii "v1")) (ordersShop (ascii "v1"))))
      ordersRecord := by
  apply reset_first_answer
  · rintro t t' a a' ⟨⟨i, hi⟩, hcall, -, -⟩ ⟨⟨i', hi'⟩, hcall', -, -⟩
    rw [call_of_racing hi] at hcall
    rw [call_of_racing hi'] at hcall'
    rw [← Call.reset.inj hcall, ← Call.reset.inj hcall']
    exact ⟨rfl, rfl, rfl, rfl, rfl, rfl⟩
  · have hkept : ∀ q ∈ (serve sampleStdlib
        (racingResets (ordersShop (ascii "v1")) (ordersShop (ascii "v1")))).history.inits,
        ∀ p ∈ q.inits, ((after p).records.lookup ordersRecord).isSome = true →
          ((after q).records.lookup ordersRecord).isSome = true := by
      decide +kernel
    exact fun p q hp hq => hkept q ((List.mem_inits _ _).mpr hq) p ((List.mem_inits _ _).mpr hp)
  · rintro a a' p p' r r' v v' ⟨i, _, _, _, t, _, hi, hcall, haddress⟩
      ⟨i', _, _, _, t', _, hi', hcall', haddress'⟩ - -
    have hsame : a.call = a'.call := by
      rw [call_of_racing hi] at hcall
      rw [call_of_racing hi'] at hcall'
      rw [← Call.reset.inj hcall, ← Call.reset.inj hcall']
    rw [hsame, haddress'] at haddress
    obtain rfl := Except.ok.inj haddress
    exact ⟨rfl, fun _ _ _ _ _ _ _ => rfl⟩

/-- Of two replicas that serve two versions, the one whose reset did not run answers
its own version. -/
theorem reset_first_answer_stale :
    let w := serve sampleStdlib (racingResets (ordersShop (ascii "v1")) (ordersShop (ascii "v2")))
    ((after w.history).fields ordersRecord).bind Fields.answer =
        some { ordersBody (ascii "v1") with resetCount := none } ∧
      w.threads.map (fun t => t.rest.result) =
        [some (.reset (.body (ordersBody (ascii "v1")))),
          some (.reset (.body (ordersBody (ascii "v2"))))] := by
  decide +kernel

end Sample

end Ratelimit.Management
