import Ratelimit.Management.Canonical
import Ratelimit.Management.ResetSafety

/-!
# What an Idempotency-Key of an addressed reset is bound to

The query alone gives the command, whatever the order and the spelling of its values. The key
is bound to the hash of the bytes of the command. Two commands that differ once their texts
are coerced are told apart, and two that differ in bytes which belong to no rune may not be.
-/
namespace Ratelimit.Management

open Library Records Utf8 Json

section Commands

/-- What the hash of an addressed reset is taken of. -/
structure CanonicalCommand where
  selector : Selector
  dryRun : Bool
  expectedVersion : Text
  deriving DecidableEq

def canonicalCommand (std : Stdlib) (q : Query) : Except ApiError CanonicalCommand := do
  let selector ← parseSelector std q
  let dryRun ← parseEnumTrue q "dryRun"
  pure ⟨selector, dryRun, q.get "expectedRuleSetVersion"⟩

variable {std : Stdlib} {q q' : Query} {c c' : CanonicalCommand}

theorem canonicalCommand_ok (h : canonicalCommand std q = .ok c) :
    parseSelector std q = .ok c.selector ∧ parseEnumTrue q "dryRun" = .ok c.dryRun ∧
      c.expectedVersion = q.get "expectedRuleSetVersion" := by
  obtain ⟨selector, hselector, h⟩ := passed_iff.mp h
  obtain ⟨dryRun, hdryRun, h⟩ := passed_iff.mp h
  obtain rfl := Except.ok.inj h
  exact ⟨hselector, hdryRun, rfl⟩

namespace CanonicalCommand

def fields (c : CanonicalCommand) : List (Bool × Text × Json) :=
  [(true, ascii "selector", c.selector.canonical), (c.dryRun, ascii "dryRun", .bool true),
    (decide (c.expectedVersion ≠ []), ascii "expectedRuleSetVersion", .string c.expectedVersion)]

def document (c : CanonicalCommand) : Json := .object (present c.fields)

def kept (c : CanonicalCommand) : KeptSelector × Bool × List Rune :=
  (c.selector.kept, c.dryRun, coercedRunes c.expectedVersion)

structure Valid (c : CanonicalCommand) : Prop where
  selector : c.selector.Valid
  expectedVersion : Utf8.Valid c.expectedVersion

theorem eq_of_kept (hvalid : c.Valid) (hvalid' : c'.Valid) (h : c.kept = c'.kept) : c = c' := by
  obtain ⟨hselector, hrest⟩ := Prod.mk.inj h
  obtain ⟨hdryRun, hversion⟩ := Prod.mk.inj hrest
  obtain ⟨selector, dryRun, expectedVersion⟩ := c
  obtain rfl := Selector.eq_of_kept hvalid.selector hvalid'.selector hselector
  obtain rfl := eq_of_coercedRunes hvalid.expectedVersion hvalid'.expectedVersion hversion
  obtain rfl : dryRun = c'.dryRun := hdryRun
  rfl

theorem writtenNames_nodup (c : CanonicalCommand) :
    ((writtenForms c.fields).map fun f => f.2.1).Nodup := by
  change [appendString (ascii "selector"), appendString (ascii "dryRun"),
    appendString (ascii "expectedRuleSetVersion")].Nodup
  decide +kernel

theorem marshal_document_iff : marshal c.document = marshal c'.document ↔ c.kept = c'.kept := by
  have hnames : ((writtenForms c.fields).map fun f => f.2.1) =
      (writtenForms c'.fields).map fun f => f.2.1 := rfl
  rw [marshal_eq_iff, document, document, written_present, written_present, Json.object.injEq,
    present_eq_iff hnames c.writtenNames_nodup]
  simp only [writtenForms, fields, List.map_cons, List.map_nil, List.forall₂_cons,
    List.forall₂_nil_left_iff, and_true, kept, Prod.mk.injEq]
  rw [omitted_iff (f := fun t => written (.string t)) written_string_nil_iff,
    written_string_eq_iff, written_canonical_iff]
  simp

end CanonicalCommand

theorem resetBinding_of_command (h : canonicalCommand std q = .ok c) :
    resetBinding std q = .ok (std.digest c.document) := by
  obtain ⟨hselector, hdryRun, hversion⟩ := canonicalCommand_ok h
  have hdocument : c.document = .object ([(ascii "selector", c.selector.canonical)] ++
      omitempty c.dryRun "dryRun" (.bool true) ++ omitempty (decide (c.expectedVersion ≠ []))
        "expectedRuleSetVersion" (.string c.expectedVersion)) := by
    simp [CanonicalCommand.document, CanonicalCommand.fields, present, omitempty]
  rw [resetBinding, hselector, hdocument]
  simp only [bind, Except.bind, hdryRun]
  rw [← hversion]
  rfl

end Commands

section Queries

variable {std : Stdlib} {q q' : Query}

theorem cutPrefix_eq_some {s p rest : Text} : Strings.cutPrefix s p = some rest ↔ s = p ++ rest := by
  constructor
  · intro h
    unfold Strings.cutPrefix at h
    split_ifs at h with hstart
    obtain ⟨t, rfl⟩ := Strings.hasPrefix_iff.mp hstart
    rw [List.drop_left] at h
    rw [Option.some.inj h]
  · rintro rfl
    exact Strings.cutPrefix_append p rest

theorem parseAxes_lookup {parameters : List (Text × List Text)}
    {axes : Finmap fun _ : Text => List Text} (h : parseAxes parameters = .ok axes)
    (hnodup : (parameters.map Prod.fst).Nodup) {name : Text} {values : List Text} :
    axes.lookup name = some values ↔
      ∃ raw, (axisPrefix ++ name, raw) ∈ parameters ∧ name ≠ [] ∧ sortedUnique raw = values := by
  induction parameters generalizing axes with
  | nil =>
    obtain rfl := Except.ok.inj h
    simp
  | cons p parameters ih =>
    obtain ⟨parameter, raw⟩ := p
    obtain ⟨hnew, hothers⟩ := List.nodup_cons.mp hnodup
    cases hcut : Strings.cutPrefix parameter axisPrefix with
    | none =>
      have hother : parameter ≠ axisPrefix ++ name := fun heq => by
        rw [cutPrefix_eq_some.mpr heq] at hcut
        cases hcut
      simp only [parseAxes, hcut] at h
      rw [ih h hothers]
      simp [hother.symm]
    | some other =>
      obtain rfl := cutPrefix_eq_some.mp hcut
      simp only [parseAxes, hcut] at h
      split_ifs at h with hempty hvalue
      obtain ⟨rest, hrest, h⟩ := passed_iff.mp h
      obtain rfl := Except.ok.inj h
      by_cases hname : name = other
      · subst hname
        rw [Finmap.lookup_insert]
        constructor
        · intro heq
          exact ⟨raw, List.mem_cons_self, hempty, Option.some.inj heq⟩
        · rintro ⟨raw', hmem, -, rfl⟩
          rcases List.mem_cons.mp hmem with heq | hmem
          · rw [(Prod.mk.inj heq).2]
          · exact absurd (List.mem_map.mpr ⟨_, hmem, rfl⟩) hnew
      · rw [Finmap.lookup_insert_of_ne _ hname, ih hrest hothers]
        have hother : axisPrefix ++ name ≠ axisPrefix ++ other :=
          fun heq => hname (List.append_cancel_left heq)
        simp [hother]

/-- Two queries that say the same, whatever the order and the spelling. -/
structure SaysTheSame (std : Stdlib) (q q' : Query) : Prop where
  ruleIDs : (q.given "ruleId").toFinset = (q'.given "ruleId").toFinset
  algorithm : (if q.get "algorithm" = [] then [] else std.toLower (q.get "algorithm")) =
    if q'.get "algorithm" = [] then [] else std.toLower (q'.get "algorithm")
  period : (if q.get "period" = [] then .ok 0 else parsePeriod std (q.get "period") (ascii "period")) =
    if q'.get "period" = [] then .ok 0 else parsePeriod std (q'.get "period") (ascii "period")
  axes : ∀ name ≠ [], (q.lookup (axisPrefix ++ name)).map List.toFinset =
    (q'.lookup (axisPrefix ++ name)).map List.toFinset
  limited : q.get "limited" = [] ↔ q'.get "limited" = []
  dryRun : q.get "dryRun" = [] ↔ q'.get "dryRun" = []
  expectedVersion : q.get "expectedRuleSetVersion" = q'.get "expectedRuleSetVersion"

theorem sortedUnique_eq_iff {values values' : List Text} :
    sortedUnique values = sortedUnique values' ↔ values.toFinset = values'.toFinset := by
  constructor
  · intro h
    rw [← Finset.sort_toFinset (r := (· ≤ ·)) values.toFinset]
    exact (congrArg List.toFinset h).trans (Finset.sort_toFinset _ _)
  · intro h
    rw [sortedUnique, h, sortedUnique]

theorem lookup_axes {s : Selector} (h : s.ReadFrom std q) (name : Text) :
    s.axes.lookup name =
      if name = [] then none else (q.lookup (axisPrefix ++ name)).map sortedUnique := by
  have hnodup : ((entries q).map Prod.fst).Nodup := by
    rw [map_fst_entries]
    exact Finset.sort_nodup _ _
  refine Option.ext fun values => ?_
  rw [parseAxes_lookup h.axes hnodup]
  simp only [mem_entries]
  split_ifs with hname
  · simp [hname]
  · simp [hname]

theorem axes_eq_iff {s s' : Selector} (h : s.ReadFrom std q) (h' : s'.ReadFrom std q') :
    s.axes = s'.axes ↔ ∀ name ≠ [], (q.lookup (axisPrefix ++ name)).map List.toFinset =
      (q'.lookup (axisPrefix ++ name)).map List.toFinset := by
  have hvalues : ∀ raw raw' : Option (List Text), raw.map sortedUnique = raw'.map sortedUnique ↔
      raw.map List.toFinset = raw'.map List.toFinset := by
    intro raw raw'
    cases raw <;> cases raw' <;> simp [sortedUnique_eq_iff]
  constructor
  · intro heq name hname
    have hlookup := congrArg (fun axes => axes.lookup name) heq
    simp only [lookup_axes h, lookup_axes h', hname, if_false] at hlookup
    exact (hvalues _ _).mp hlookup
  · intro hall
    refine Finmap.ext_lookup fun name => ?_
    rw [lookup_axes h, lookup_axes h']
    split_ifs with hname
    · rfl
    · exact (hvalues _ _).mpr (hall name hname)

theorem parseEnumTrue_eq_iff {name : String} {b b' : Bool} (h : parseEnumTrue q name = .ok b)
    (h' : parseEnumTrue q' name = .ok b') : b = b' ↔ (q.get name = [] ↔ q'.get name = []) := by
  rw [Bool.eq_iff_iff, parseEnumTrue_iff h, parseEnumTrue_iff h', not_iff_not]

theorem command_eq_iff {c c' : CanonicalCommand} (h : canonicalCommand std q = .ok c)
    (h' : canonicalCommand std q' = .ok c') : c = c' ↔ SaysTheSame std q q' := by
  obtain ⟨hselector, hdryRun, hversion⟩ := canonicalCommand_ok h
  obtain ⟨hselector', hdryRun', hversion'⟩ := canonicalCommand_ok h'
  have hread := parseSelector_reads hselector
  have hread' := parseSelector_reads hselector'
  constructor
  · rintro rfl
    refine ⟨?_, ?_, ?_, (axes_eq_iff hread hread').mp rfl, ?_, ?_, ?_⟩
    · exact sortedUnique_eq_iff.mp (hread.ruleIDs.symm.trans hread'.ruleIDs)
    · exact hread.algorithm.symm.trans hread'.algorithm
    · exact hread.period.trans hread'.period.symm
    · exact (parseEnumTrue_eq_iff hread.limited hread'.limited).mp rfl
    · exact (parseEnumTrue_eq_iff hdryRun hdryRun').mp rfl
    · exact hversion.symm.trans hversion'
  · intro hsame
    have hids : c.selector.ruleIDs = c'.selector.ruleIDs := by
      rw [hread.ruleIDs, hread'.ruleIDs, sortedUnique_eq_iff.mpr hsame.ruleIDs]
    have halgorithm : c.selector.algorithm = c'.selector.algorithm := by
      rw [hread.algorithm, hread'.algorithm, hsame.algorithm]
    have hperiod : c.selector.periodSeconds = c'.selector.periodSeconds :=
      Except.ok.inj (hread.period.symm.trans (hsame.period.trans hread'.period))
    have haxes := (axes_eq_iff hread hread').mpr hsame.axes
    have hlimited := (parseEnumTrue_eq_iff hread.limited hread'.limited).mpr hsame.limited
    have hpreview := (parseEnumTrue_eq_iff hdryRun hdryRun').mpr hsame.dryRun
    have hpinned : c.expectedVersion = c'.expectedVersion := by
      rw [hversion, hversion', hsame.expectedVersion]
    obtain ⟨⟨ruleIDs, algorithm, periodSeconds, axes, limitedOnly⟩, dryRun, expectedVersion⟩ := c
    obtain ⟨⟨ruleIDs', algorithm', periodSeconds', axes', limitedOnly'⟩, dryRun', expectedVersion'⟩ := c'
    simp only at hids halgorithm hperiod haxes hlimited hpreview hpinned
    rw [hids, halgorithm, hperiod, haxes, hlimited, hpreview, hpinned]

end Queries

section Bindings

variable {std : Stdlib} {q q' : Query} {c c' : CanonicalCommand}

/-- What a call under a used key is answered from the record that another command left. -/
theorem replayReset_used (record : Text) {binding : Text} {found : Record} {answer : ResetResponse}
    (hbinding : resetBinding std q' = .ok binding) (hfound : found.found = true)
    (hterminal : found.terminal = true) (hanswer : found.answer = some answer) :
    ∃ rest, replayReset std q' record = lookup ⟨record, [], none⟩ >>= rest ∧
      rest (some found) = pure (some (if found.command ≠ binding then .refused commandMismatch
        else .body (counted answer found.progress.reset))) := by
  rw [replayReset, hbinding]
  refine ⟨_, rfl, ?_⟩
  simp only [hfound, hterminal, hanswer]
  split_ifs <;> simp_all

/-- The bytes, the hash and the fingerprint tell two commands apart, and whoever comes
with another command under a used key is refused. -/
structure Separated (std : Stdlib) (q q' : Query) (c c' : CanonicalCommand) : Prop where
  selector : marshal c.selector.canonical = marshal c'.selector.canonical ↔ c.selector = c'.selector
  fingerprint : c.selector.fingerprint std = c'.selector.fingerprint std ↔ c.selector = c'.selector
  command : marshal c.document = marshal c'.document ↔ c = c'
  binding : resetBinding std q = resetBinding std q' ↔ c = c'
  used : ∀ (record : Text) (found : Record) (answer : ResetResponse), found.found = true →
    found.terminal = true → found.answer = some answer → resetBinding std q = .ok found.command →
    ∃ rest, replayReset std q' record = lookup ⟨record, [], none⟩ >>= rest ∧
      (rest (some found) = pure (some (.refused commandMismatch)) ↔ c ≠ c')

/-- Two commands are separated exactly where coercing their texts does not make them one, as
with well-formed texts on both sides. -/
theorem bindings_separate (std : Stdlib) (q q' : Query) (c c' : CanonicalCommand)
    (h : canonicalCommand std q = .ok c) (h' : canonicalCommand std q' = .ok c')
    (hdigest : std.digest c.document = std.digest c'.document ↔
      marshal c.document = marshal c'.document)
    (hfingerprint : c.selector.fingerprint std = c'.selector.fingerprint std ↔
      marshal c.selector.canonical = marshal c'.selector.canonical) :
    (c = c' ↔ SaysTheSame std q q') ∧
      (Separated std q q' c c' ↔ (c.selector.kept = c'.selector.kept → c.selector = c'.selector) ∧
        (c.kept = c'.kept → c = c')) ∧
      (c.Valid → c'.Valid → Separated std q q' c c') := by
  have hiff : Separated std q q' c c' ↔
      (c.selector.kept = c'.selector.kept → c.selector = c'.selector) ∧
        (c.kept = c'.kept → c = c') := by
    constructor
    · intro hseparated
      refine ⟨fun hkept => ?_, fun hkept => ?_⟩
      · exact hseparated.selector.mp (marshal_canonical_iff.mpr hkept)
      · exact hseparated.command.mp (CanonicalCommand.marshal_document_iff.mpr hkept)
    · rintro ⟨hselector, hcommand⟩
      have hbytes : marshal c.selector.canonical = marshal c'.selector.canonical ↔
          c.selector = c'.selector :=
        ⟨fun heq => hselector (marshal_canonical_iff.mp heq), fun heq => by rw [heq]⟩
      have hdocument : marshal c.document = marshal c'.document ↔ c = c' :=
        ⟨fun heq => hcommand (CanonicalCommand.marshal_document_iff.mp heq), fun heq => by rw [heq]⟩
      have hbinding : resetBinding std q = resetBinding std q' ↔ c = c' := by
        rw [resetBinding_of_command h, resetBinding_of_command h', Except.ok.injEq, hdigest, hdocument]
      refine ⟨hbytes, hfingerprint.trans hbytes, hdocument, hbinding, ?_⟩
      intro record found answer hfound hterminal hanswer hused
      obtain ⟨rest, hprogram, hanswered⟩ :=
        replayReset_used record (resetBinding_of_command h') hfound hterminal hanswer
      have hsame : found.command = std.digest c'.document ↔ c = c' := by
        rw [← hbinding, hused, resetBinding_of_command h', Except.ok.injEq]
      have hpure : ∀ a b : Option (Response ResetResponse),
          (pure a : Client (Option (Response ResetResponse))) = pure b ↔ a = b :=
        fun a b => ⟨Prog.done.inj, congrArg _⟩
      refine ⟨rest, hprogram, ?_⟩
      rw [hanswered, hpure, Option.some.injEq]
      by_cases heq : c = c'
      · simp [hsame.mpr heq, heq]
      · simp [hsame, heq]
  refine ⟨command_eq_iff h h', hiff, fun hvalid hvalid' => hiff.mpr ⟨?_, ?_⟩⟩
  · exact Selector.eq_of_kept hvalid.selector hvalid'.selector
  · exact CanonicalCommand.eq_of_kept hvalid hvalid'

end Bindings

section Samples

def documentSums : List (Text × Text) :=
  [(ascii "\x7b\"ruleIds\":[\"orders/user\"],\"axes\":\x7b\"user\":[\"alice\"]\x7d\x7d",
    ascii "7f4f41967875e5a9506a8aea21fbb9c5a92bc3d3cb0a1840c210c1d47e368726"),
   (ascii "\x7b\"ruleIds\":[\"orders/user\"],\"axes\":\x7b\"user\":[\"bob\"]\x7d\x7d",
    ascii "3e43ddd2436475f46573df8f60025c734f9d7eb6ccd037f53d2f969a19fdcdb2"),
   (ascii "\x7b\"selector\":\x7b\"ruleIds\":[\"orders/user\"],\"axes\":\x7b\"user\":[\"alice\"]\x7d\x7d\x7d",
    ascii "424e2418ff49498fc6847661ac9ebc533476b2a35bd42ed7dc5ae3fb591ee850"),
   (ascii "\x7b\"selector\":\x7b\"ruleIds\":[\"orders/user\"],\"axes\":\x7b\"user\":[\"bob\"]\x7d\x7d\x7d",
    ascii "aa6e978e1258e83db2496c8001be4632ba9cc64bfd3806ce47c5c3eb5dd55722")]

def documentStdlib : Stdlib :=
  { sampleStdlib with
    digest := fun j => ((documentSums.lookup (marshal j)).getD []).takeD 64 (byte '0')
    digest_length := fun _ => List.takeD_length _ _ _ }

def userQuery (user : Text) : Query :=
  (Finmap.singleton (ascii "ruleId") [ascii "orders/user"]).insert (ascii "axis.user") [user]

def userCommand (user : Text) : CanonicalCommand :=
  ⟨⟨[ascii "orders/user"], [], 0, Finmap.singleton (ascii "user") [user], false⟩, false, []⟩

def sampleUsers : List Text := [ascii "alice", ascii "bob", [0xFF], [0xFE], Utf8.replacement]

theorem userQuery_command : ∀ user ∈ sampleUsers,
    canonicalCommand documentStdlib (userQuery user) = .ok (userCommand user) := by
  have haxes : ∀ user ∈ sampleUsers,
      parseAxes (entries (userQuery user)) = .ok (Finmap.singleton (ascii "user") [user]) := by
    simp only [entries, sort_eq_sortedBy]
    decide +kernel
  intro user huser
  rw [canonicalCommand, parseSelector]
  simp only [haxes user huser]
  revert user
  decide +kernel

/-- The command about one user is taken for the one about another. -/
structure TakenFor (user user' : Text) : Prop where
  first : canonicalCommand documentStdlib (userQuery user) = .ok (userCommand user)
  second : canonicalCommand documentStdlib (userQuery user') = .ok (userCommand user')
  differ : userCommand user ≠ userCommand user'
  selector : marshal (userCommand user).selector.canonical =
    marshal (userCommand user').selector.canonical
  document : marshal (userCommand user).document = marshal (userCommand user').document
  binding : resetBinding documentStdlib (userQuery user) =
    resetBinding documentStdlib (userQuery user')

theorem coerced_takenFor : ∀ user ∈ [[0xFE], Utf8.replacement], TakenFor [0xFF] user := by
  intro user huser
  have hfirst := userQuery_command [0xFF] (by decide)
  have hsecond := userQuery_command user (List.mem_cons_of_mem _ (List.mem_cons_of_mem _
    (List.mem_cons_of_mem _ huser)))
  have hkept : (userCommand [0xFF]).selector.kept = (userCommand user).selector.kept := by
    simp only [Selector.kept, userCommand, entries, sort_eq_sortedBy]
    fin_cases huser <;> rfl
  have hbytes : marshal (userCommand [0xFF]).document = marshal (userCommand user).document := by
    refine CanonicalCommand.marshal_document_iff.mpr ?_
    rw [CanonicalCommand.kept, CanonicalCommand.kept, hkept]
    rfl
  have hne : userCommand [0xFF] ≠ userCommand user := by
    clear hsecond hkept hbytes
    revert user
    decide +kernel
  refine ⟨hfirst, hsecond, hne, marshal_canonical_iff.mpr hkept, hbytes, ?_⟩
  rw [resetBinding_of_command hfirst, resetBinding_of_command hsecond]
  simp only [documentStdlib, hbytes]

/-- A user whose name is one byte and no rune, another such user, and the one whose name is
the replacement character. -/
theorem userQuery_not_separated : TakenFor [0xFF] [0xFE] ∧ TakenFor [0xFF] Utf8.replacement :=
  ⟨coerced_takenFor _ (by decide), coerced_takenFor _ (by decide)⟩

theorem userCommand_valid : ∀ user ∈ [ascii "alice", ascii "bob"], (userCommand user).Valid := by
  have hvalid : ∀ t ∈ [ascii "orders/user", [], ascii "user", ascii "alice"], Utf8.Valid t := by
    decide +kernel
  intro user huser
  refine ⟨⟨?_, hvalid [] (by decide), ?_⟩, hvalid [] (by decide)⟩
  · intro id hid
    obtain rfl := List.mem_singleton.mp hid
    exact hvalid _ (by decide)
  · revert user
    simp only [userCommand, entries, sort_eq_sortedBy]
    decide +kernel

theorem userCommand_sums :
    documentStdlib.digest (userCommand (ascii "alice")).document ≠
        documentStdlib.digest (userCommand (ascii "bob")).document ∧
      (userCommand (ascii "alice")).selector.fingerprint documentStdlib ≠
        (userCommand (ascii "bob")).selector.fingerprint documentStdlib := by
  simp only [Selector.fingerprint, CanonicalCommand.document, CanonicalCommand.fields,
    Selector.canonical, userCommand, entries, sort_eq_sortedBy]
  decide +kernel

theorem bindings_separate_users :
    ¬SaysTheSame documentStdlib (userQuery (ascii "alice")) (userQuery (ascii "bob")) ∧
      Separated documentStdlib (userQuery (ascii "alice")) (userQuery (ascii "bob"))
        (userCommand (ascii "alice")) (userCommand (ascii "bob")) := by
  have hne : userCommand (ascii "alice") ≠ userCommand (ascii "bob") := by decide +kernel
  have hbytes : marshal (userCommand (ascii "alice")).document ≠
      marshal (userCommand (ascii "bob")).document := fun heq => userCommand_sums.1 <| by
    simp only [documentStdlib, heq]
  have hselectors : marshal (userCommand (ascii "alice")).selector.canonical ≠
      marshal (userCommand (ascii "bob")).selector.canonical := fun heq => userCommand_sums.2 <| by
    simp only [Selector.fingerprint, documentStdlib, heq]
  have hresult := bindings_separate documentStdlib (userQuery (ascii "alice"))
    (userQuery (ascii "bob")) (userCommand (ascii "alice")) (userCommand (ascii "bob"))
    (userQuery_command _ (by decide)) (userQuery_command _ (by decide))
    (iff_of_false userCommand_sums.1 hbytes) (iff_of_false userCommand_sums.2 hselectors)
  exact ⟨fun hsame => hne (hresult.1.mpr hsame),
    hresult.2.2 (userCommand_valid _ (by decide)) (userCommand_valid _ (by decide))⟩

end Samples

end Ratelimit.Management
