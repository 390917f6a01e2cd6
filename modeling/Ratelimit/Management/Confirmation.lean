import Ratelimit.Management.Canonical
import Ratelimit.Management.Service
import Ratelimit.Records.Tokens

/-!
# A bulk deletion follows a matching look

A token is minted by a preview that has walked its selection to the end, and taken in the step
that binds an execution. What the execution checks of it ties it to the preview: the domain,
the subject, the version of the rule set and the fingerprint of the selection.
-/
namespace Ratelimit.Management

open Library Records

section Canonical

theorem selection_inj {std : Stdlib} {c c' : BulkCommand}
    (hhash : c.selector.fingerprint std = c'.selector.fingerprint std →
      Json.marshal c.selector.canonical = Json.marshal c'.selector.canonical)
    (hvalid : c.selector.Valid) (hvalid' : c'.selector.Valid)
    (hempty : c.domainWide = true → c.selector = .empty)
    (hempty' : c'.domainWide = true → c'.selector = .empty)
    (h : c.selection std = c'.selection std) :
    c.selector = c'.selector ∧ c.domainWide = c'.domainWide := by
  have hlength : ∀ s : Selector, (s.fingerprint std).length = 16 := by
    intro s
    rw [Selector.fingerprint, List.length_take, std.digest_length]
    rfl
  have hne : ∀ s : Selector, s.fingerprint std ≠ ascii "domain" := by
    intro s hs
    have hsix := hlength s
    rw [hs] at hsix
    revert hsix
    decide
  unfold BulkCommand.selection at h
  cases hwide : c.domainWide <;> cases hwide' : c'.domainWide <;> simp only [hwide, hwide'] at h
  · exact ⟨Selector.eq_of_kept hvalid hvalid' (marshal_canonical_iff.mp (hhash h)), rfl⟩
  · exact absurd h (hne _)
  · exact absurd h.symm (hne _)
  · rw [hempty hwide, hempty' hwide']
    exact ⟨rfl, rfl⟩

end Canonical

section Tokens

variable {std : Stdlib} {cs : Schedule}

def tokenIDOf : Call → Option Text
  | .bulk c => some c.tokenID
  | .reset _ => none

/-- The random parts of the tokens that the calls of a schedule would mint. -/
def tokenIDs (cs : Schedule) : List Text := (spawned cs).filterMap tokenIDOf

def selectorOf (std : Stdlib) : Call → Option Selector
  | .bulk c => (admitBulk std c).toOption.map fun a => a.command.selector
  | .reset _ => none

def selectors (std : Stdlib) (cs : Schedule) : List Selector :=
  (spawned cs).filterMap (selectorOf std)

/-- A walk that ended: every scan took up where the last one stopped, from the
start of the prefix to its end. -/
def WalkedToEnd (a : Admitted) (τ : Seen) : Prop :=
  scansIn τ ≠ [] ∧ cursorAfter (scansIn τ) = some [] ∧
    ∀ pre cursor limit v, ⟨.scan pre cursor limit, v⟩ ∈ τ → pre = a.sweep.scanPrefix

/-- A preview of the same domain, subject, rule set and selection walked to the end before
`pre`, and minted the token that the execution names. -/
def LookedFirst (std : Stdlib) (w : Replicas) (pre : List Ev) (a : Admitted) : Prop :=
  ∃ a' pre' document ttl τ v, ∃ t : Replica,
    RanFor w a'.call pre' (.put (tokenKey a.scope a.command.confirmationToken) document ttl) () ∧
    pre'.length < pre.length ∧ t ∈ w.threads ∧ t.call = .bulk a'.call ∧
    τ ++ [⟨.put (tokenKey a.scope a.command.confirmationToken) document ttl, v⟩] <+:
      t.transcript ∧
    admitBulk std a'.call = .ok a' ∧ a'.command.dryRun = true ∧ WalkedToEnd a' τ ∧
    a.command.selector = a'.command.selector ∧ a.command.domainWide = a'.command.domainWide ∧
    a.domain = a'.domain ∧ a.call.subject = a'.call.subject ∧ a.served.version = a'.served.version

structure DeletionsConfirmed (std : Stdlib) (w : Replicas) : Prop where
  /-- A token is taken by one acceptance at most. -/
  taken_once : ∀ k pre ev post pre' ev' post', w.history = pre ++ ev :: post →
    w.history = pre' ++ ev' :: post' → Consumes k ev → Consumes k ev' → pre = pre'
  /-- Only an acceptance takes a token; it goes unused only by expiring. -/
  taken_only : ∀ k pre ev post token, w.history = pre ++ ev :: post →
    (after pre).tokens.lookup k = some token → (after (pre ++ [ev])).tokens.lookup k = none →
    Consumes k ev ∨ ∃ micros, ev = .env (.elapse micros)
  /-- An acceptance that the store turns down changes nothing. -/
  turned_down : ∀ pre i late o x v post,
    w.history = pre ++ .ran ⟨i, late, o, .accept x, v⟩ :: post →
    (∀ token, v ≠ .accepted token) → (exec (after pre) (.accept x) o).1 = after pre
  /-- A call that is refused as a conflict has no acceptance. -/
  refused : ∀ (i : ℕ) (t : Replica) r, w.threads[i]? = some t → t.rest = .done (.bulk r) →
    Conflicted r → ∀ pre late o x token post,
      w.history ≠ pre ++ .ran ⟨i, late, o, .accept x, .accepted token⟩ :: post
  /-- An accepted execution matches the preview that minted its token. -/
  looked_first : ∀ c pre x token a, RanFor w c pre (.accept x) (.accepted token) →
    admitBulk std c = .ok a → a.command.dryRun = false →
    x.keys.token = some (tokenKey a.scope a.command.confirmationToken) ∧ LookedFirst std w pre a

theorem genuine_before {pre post : List Ev} (h : (serve std cs).history = pre ++ post) :
    Genuine pre := by
  have hgenuine := @genuine_serve std cs
  rw [h] at hgenuine
  exact hgenuine.of_append

theorem puts_once (c : Call) (τ : Seen) (r : Req) (h : Allows std c τ r) (hr : isPut r = true) :
    made isPut τ = 0 := by
  cases r <;> cases hr
  cases c <;> obtain ⟨a, -, hpermits⟩ := h
  · exact hpermits.2.1
  · exact hpermits.elim

theorem minted_by {k : Text} {document : TokenDocument} {ev : Ev} {pre post : List Ev}
    (h : (serve std cs).history = pre ++ ev :: post) (hmints : Mints k document ev) :
    ∃ i late o ttl t a τ, ev = .ran ⟨i, late, o, .put k document ttl, ()⟩ ∧
      SentFor std (serve std cs) pre ⟨i, late, o, .put k document ttl, ()⟩ t a τ := by
  cases ev with
  | env e => exact hmints.elim
  | ran e =>
    obtain ⟨i, late, o, r, v⟩ := e
    cases r with
    | put k' document' ttl =>
      obtain ⟨rfl, rfl⟩ := hmints
      obtain ⟨t, a, τ, hsent⟩ := bulk_ran h rfl
      exact ⟨i, late, o, ttl, t, a, τ, rfl, hsent⟩
    | _ => exact hmints.elim

theorem tokenKey_inj {s s' : Key.Scope} {t t' : Text} (h : tokenKey s t = tokenKey s' t') :
    s = s' ∧ t = t' := by
  simp only [tokenKey, List.append_assoc] at h
  obtain ⟨hs, ht⟩ := recordTag_append_inj h
  exact ⟨hs, List.append_cancel_left ht⟩

theorem mint_unique (htokens : (tokenIDs cs).Nodup) {k : Text} {document document' : TokenDocument}
    {ev ev' : Ev} {pre post pre' post' : List Ev} (h : (serve std cs).history = pre ++ ev :: post)
    (h' : (serve std cs).history = pre' ++ ev' :: post') (hmints : Mints k document ev)
    (hmints' : Mints k document' ev') : pre = pre' := by
  obtain ⟨i, late, o, ttl, t, a, τ, rfl, hsent⟩ := minted_by h hmints
  obtain ⟨i', late', o', ttl', t', a', τ', rfl, hsent'⟩ := minted_by h' hmints'
  obtain ⟨-, -, hkey, -⟩ := hsent.permitted
  obtain ⟨-, -, hkey', -⟩ := hsent'.permitted
  have hid : a.call.tokenID = a'.call.tokenID :=
    List.append_cancel_left (tokenKey_inj (hkey.symm.trans hkey')).2
  have howner : i = i' := by
    apply owner_of_mark htokens hsent.thread hsent'.thread (z := a.call.tokenID)
    · rw [hsent.call]
      rfl
    · rw [hsent'.call, hid]
      rfl
  exact ((serve_traced std cs).ran_unique puts_once h h' rfl rfl howner).1

end Tokens

section Confirmed

variable {std : Stdlib} {cs : Schedule}

theorem not_taken_again (htokens : (tokenIDs cs).Nodup) {k : Text} {ev ev' : Ev}
    {pre post pre' post' : List Ev} (h : (serve std cs).history = pre ++ ev :: post)
    (h' : (serve std cs).history = pre' ++ ev' :: post') (htaken : Consumes k ev)
    (htaken' : Consumes k ev') : ¬ pre.length < pre'.length := by
  intro hlt
  obtain ⟨token, htoken⟩ := token_of_consumes (genuine_serve _ _ _ h) htaken
  obtain ⟨token', htoken'⟩ := token_of_consumes (genuine_serve _ _ _ h') htaken'
  obtain ⟨p, mint, q, rfl, hmints, -⟩ := token_origin (genuine_before h) htoken
  obtain ⟨p', mint', q', rfl, hmints', hkept⟩ := token_origin (genuine_before h') htoken'
  -- one put stored the token for both, before the first of them took it
  have hat : (serve std cs).history = p ++ mint :: (q ++ ev :: post) := by simpa using h
  have hat' : (serve std cs).history = p' ++ mint' :: (q' ++ ev' :: post') := by simpa using h'
  obtain rfl := mint_unique htokens hat hat' hmints hmints'
  have hmem : ev ∈ q' := by
    refine mem_between (hat'.symm.trans h) (by simp) ?_
    simp only [List.length_append, List.length_cons] at hlt ⊢
    omega
  exact hkept ev hmem htaken

theorem checkDocument_none {a : Admitted} {document : TokenDocument}
    (h : checkDocument std a document = none) : document.domain = a.domain ∧
      document.subject = a.call.subject ∧ document.selection = a.command.selection std ∧
      document.ruleSetVersion = a.served.version := by
  unfold checkDocument at h
  split_ifs at h with howner hselection hversion
  obtain ⟨hdomain, hsubject⟩ := not_or.mp howner
  exact ⟨not_not.mp hdomain, not_not.mp hsubject, not_not.mp hselection, not_not.mp hversion⟩

theorem mem_selectors {i : ℕ} {t : Replica} {a : Admitted}
    (ht : (serve std cs).threads[i]? = some t) (hcall : t.call = .bulk a.call)
    (hadmits : admitBulk std a.call = .ok a) : a.command.selector ∈ selectors std cs := by
  refine List.mem_filterMap.mpr ⟨t.call, List.mem_of_getElem? (call_spawned ht), ?_⟩
  rw [hcall, selectorOf, hadmits]
  rfl

theorem scans_of_sent {i : ℕ} {t : Replica} {a : Admitted} {τ : Seen}
    (ht : (serve std cs).threads[i]? = some t) (hcall : t.call = .bulk a.call)
    (hadmits : admitBulk std a.call = .ok a) (hτ : τ <+: t.transcript) {pre cursor : Text}
    {limit : ℕ} {v : Option (List Text × Text)} (hmem : ⟨.scan pre cursor limit, v⟩ ∈ τ) :
    pre = a.sweep.scanPrefix := by
  obtain ⟨τ₁, τ₂, hsplit⟩ := List.append_of_mem (hτ.subset hmem)
  have hsent := (serve_traced std cs).sent i t ht τ₁ ⟨.scan pre cursor limit, v⟩
    ⟨τ₂, by rw [hsplit]; simp⟩
  rw [hcall] at hsent
  obtain ⟨a', hadmits', hpre, -⟩ := hsent
  rw [hadmits] at hadmits'
  obtain rfl := Except.ok.inj hadmits'
  exact hpre

theorem minted_before {i : ℕ} {t : Replica} {pre post : List Ev} {τ : Seen} {k : Text}
    {document : TokenDocument} (h : (serve std cs).history = pre ++ post)
    (ht : (serve std cs).threads[i]? = some t) (hτ : τ <+: t.transcript)
    (hanswered : answeredCalls τ <+: served i pre) (hmem : ⟨.get k, some (some document)⟩ ∈ τ) :
    ∃ p ev q, (serve std cs).history = p ++ ev :: q ∧ Mints k document ev ∧
      p.length < pre.length := by
  obtain ⟨τ₁, τ₂, hsplit⟩ := List.append_of_mem hmem
  have hget : τ₁ ++ [⟨.get k, some (some document)⟩] <+: τ := ⟨τ₂, by rw [hsplit]; simp⟩
  obtain ⟨g, o, rest, rfl, -, hreply⟩ := (serve_traced std cs).position_before ht h hτ hanswered hget
  obtain ⟨token, htoken, hdocument⟩ := Option.map_eq_some_iff.mp hreply.symm
  have hg := h.trans (List.append_assoc ..)
  obtain ⟨p, ev, q, rfl, hmints, -⟩ := token_origin (genuine_before hg) htoken
  exact ⟨p, ev, _, hg.trans (List.append_assoc ..), hdocument ▸ hmints, by simp [Nat.add_assoc]⟩

theorem execution_looked_first
    (hhash : ∀ s ∈ selectors std cs, ∀ s' ∈ selectors std cs,
      s.fingerprint std = s'.fingerprint std → Json.marshal s.canonical = Json.marshal s'.canonical)
    (hvalid : ∀ s ∈ selectors std cs, s.Valid)
    {c : BulkCall} {pre : List Ev} {x : Acceptance} {token : Option TokenDocument} {a : Admitted}
    (h : RanFor (serve std cs) c pre (.accept x) (.accepted token)) (hadmits : admitBulk std c = .ok a)
    (hexecute : a.command.dryRun = false) :
    x.keys.token = some (tokenKey a.scope a.command.confirmationToken) ∧
      LookedFirst std (serve std cs) pre a := by
  obtain ⟨i, late, o, post, t, a₀, τ, rfl, hsplit, hsent⟩ := h.sent rfl
  obtain rfl := Except.ok.inj (hadmits.symm.trans hsent.admitted)
  obtain ⟨rfl, -, hconfirmed⟩ : x = a.acceptance std ∧ _ := hsent.permitted
  obtain ⟨document, hread, hchecked⟩ := hconfirmed hexecute
  obtain ⟨hdomain, hsubject, hselection, hversion⟩ := checkDocument_none hchecked
  obtain ⟨p, ev, q, hp, hmints, hlt⟩ := minted_before hsplit hsent.thread
    ((List.prefix_append _ _).trans hsent.sent) hsent.answered hread
  obtain ⟨i', late', o', ttl, t', a', τ', rfl, hsent'⟩ := minted_by hp hmints
  obtain ⟨hdry, -, -, ⟨expires, rfl⟩, hscans, hcursor⟩ := hsent'.permitted
  have hkeys := (admitBulk_ok hadmits).2.keys
  obtain ⟨request, -, hparse⟩ := (admitBulk_ok hadmits).2.command
  obtain ⟨request', -, hparse'⟩ := (admitBulk_ok hsent'.admitted).2.command
  have hmem := mem_selectors hsent.thread hsent.call hadmits
  have hmem' := mem_selectors hsent'.thread hsent'.call hsent'.admitted
  obtain ⟨hselector, hwide⟩ := selection_inj (hhash _ hmem _ hmem') (hvalid _ hmem)
    (hvalid _ hmem') (parseBulk_wide hparse) (parseBulk_wide hparse') hselection.symm
  refine ⟨?_, a', p, _, ttl, τ', _, t', ⟨i', late', o', q, t', hp, hsent'.thread, hsent'.call⟩, hlt,
    List.mem_of_getElem? hsent'.thread, hsent'.call, hsent'.sent, hsent'.admitted, hdry,
    ⟨hscans, hcursor, fun pre cursor limit v hmem => ?_⟩, hselector, hwide, hdomain.symm,
    hsubject.symm, hversion.symm⟩
  · change a.keys.token = _
    rw [hkeys]
    simp [commandKeys, hexecute]
  · exact scans_of_sent hsent'.thread hsent'.call hsent'.admitted
      ((List.prefix_append _ _).trans hsent'.sent) hmem

theorem not_accepted_of_conflict {i : ℕ} {t : Replica} {r : Response BulkResult}
    (ht : (serve std cs).threads[i]? = some t) (hrest : t.rest = .done (.bulk r))
    (hconflict : Conflicted r) {pre post : List Ev} {late : Bool} {o : Oracle} {x : Acceptance}
    {token : Option TokenDocument} :
    (serve std cs).history ≠ pre ++ .ran ⟨i, late, o, .accept x, .accepted token⟩ :: post := by
  intro h
  have htraced := serve_traced std cs
  have hgives := htraced.obeys i t ht
  rw [hrest] at hgives
  have hturned : Turned t.transcript := by
    cases hcall : t.call with
    | reset c =>
      rw [hcall] at hgives
      exact hgives.elim
    | bulk c =>
      rw [hcall] at hgives
      rcases hgives with ⟨e, -, hsilent, -⟩ | ⟨a, -, hanswers⟩
      · rw [hsilent]
        exact Or.inl rfl
      · exact hanswers.1 hconflict
  rcases hturned with hnone | ⟨y, verdict, hmem, hnot⟩
  · have hcount := htraced.counts isAccept i t ht
    have hpos : 0 < executed isAccept i (serve std cs).history := by
      rw [h]
      exact List.countP_pos_iff.mpr ⟨_, List.mem_append_right _ List.mem_cons_self, by simp [isAccept]⟩
    have hzero : (t.transcript.countP fun y => isAccept y.1) = 0 := hnone
    omega
  · obtain ⟨pre', o', post', h', -, -⟩ := htraced.executed_of_mem ht hmem
    obtain ⟨-, heq⟩ := htraced.ran_unique accepts_once h h' rfl rfl rfl
    cases heq
    exact hnot token rfl

end Confirmed

/-- Whatever the replicas do, a bulk deletion follows a matching look, as long as no
two calls would mint one token and no two selections that are encoded otherwise share a
fingerprint. The texts of a selection were decoded from JSON, so they are valid UTF-8. -/
theorem deletions_confirmed (std : Stdlib) (cs : Schedule) (htokens : (tokenIDs cs).Nodup)
    (hhash : ∀ s ∈ selectors std cs, ∀ s' ∈ selectors std cs,
      s.fingerprint std = s'.fingerprint std → Json.marshal s.canonical = Json.marshal s'.canonical)
    (hvalid : ∀ s ∈ selectors std cs, s.Valid) :
    DeletionsConfirmed std (serve std cs) := by
  constructor
  · intro k pre ev post pre' ev' post' h h' htaken htaken'
    have hlt := not_taken_again htokens h h' htaken htaken'
    have hlt' := not_taken_again htokens h' h htaken' htaken
    exact (List.append_inj (h.symm.trans h') (by omega)).1
  · intro k pre ev post token h htoken hgone
    rw [after_snoc] at hgone
    exact token_gone (genuine_serve _ _ _ h) htoken hgone
  · intro pre i late o x v post h hnot
    have hreply : v = (acceptScript (after pre) x).2 := genuine_serve _ _ _ h
    exact acceptScript_of_turned fun token heq => hnot token (hreply.trans heq)
  · intro i t r ht hrest hconflict pre late o x token post
    exact not_accepted_of_conflict ht hrest hconflict
  · intro c pre x token a h hadmits hexecute
    exact execution_looked_first hhash hvalid h hadmits hexecute

theorem tenantSelector_valid {tenant : Text} (h : Utf8.Valid tenant) :
    (tenantSelector tenant).Valid := by
  have htexts : Utf8.Valid [] ∧ Utf8.Valid (ascii "tenant") := by decide +kernel
  refine ⟨fun _ h => absurd h List.not_mem_nil, htexts.1, ?_⟩
  rw [tenantSelector, entries_singleton]
  simp [h, htexts.2]

theorem deletions_confirmed_shop :
    (serve sampleStdlib tenantsPreviewed).server.counters.keys =
        {tenantCounter (ascii "acme"), tenantCounter (ascii "globex")} ∧
      (serve sampleStdlib tenantsDeleted).server.counters = ∅ ∧
      DeletionsConfirmed sampleStdlib (serve sampleStdlib tenantsDeleted) := by
  have hselectors : ∀ s ∈ selectors sampleStdlib tenantsDeleted,
      s = tenantSelector (ascii "acme") ∨ s = tenantSelector (ascii "globex") := by
    decide +kernel
  refine ⟨by decide +kernel, by decide +kernel, deletions_confirmed _ _ (by decide +kernel) ?_ ?_⟩
  · have hhash : (tenantSelector (ascii "acme")).fingerprint sampleStdlib ≠
      (tenantSelector (ascii "globex")).fingerprint sampleStdlib := by
      decide +kernel
    intro s hs s' hs' heq
    rcases hselectors s hs with rfl | rfl <;> rcases hselectors s' hs' with rfl | rfl
    · rfl
    · exact absurd heq hhash
    · exact absurd heq.symm hhash
    · rfl
  · intro s hs
    rcases hselectors s hs with rfl | rfl
    · exact tenantSelector_valid (by decide +kernel)
    · exact tenantSelector_valid (by decide +kernel)

end Ratelimit.Management
