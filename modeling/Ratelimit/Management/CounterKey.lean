import Ratelimit.Engine.Key

/-!
# The management side's key decoder

The engine builds counter keys and exposes no reader. Management takes a key
apart to tell an operator which client a counter belongs to, so it decodes what
the key package encodes.
-/
namespace Ratelimit.Management

open Algo Library Key

structure CounterKey where
  ruleID : Text
  block : Text
  rule : Text
  algorithm : Text
  periodSeconds : ℤ
  ratePrefix : Text
  axes : List Text
  deriving DecidableEq

def ruleID (block rule : Text) : Text := block ++ ascii "/" ++ rule

def hexDigit (c : Byte) : Except Message Byte :=
  if byte '0' ≤ c ∧ c ≤ byte '9' then .ok (c - byte '0')
  else if byte 'A' ≤ c ∧ c ≤ byte 'F' then .ok (c - byte 'A' + 10)
  else if byte 'a' ≤ c ∧ c ≤ byte 'f' then .ok (c - byte 'a' + 10)
  else .error ⟨"invalid percent escape digit %q", [.text [c]]⟩

/-- The loop of `unescapeSegment`. -/
def unescapeLoop (segment : Text) : Text → Except Message Text
  | [] => .ok []
  | c :: rest =>
    if c = byte '%' then
      match rest with
      | h :: l :: tail => do
        let high ← hexDigit h
        let low ← hexDigit l
        let value ← unescapeLoop segment tail
        return (high * 16 + low) :: value
      | _ => .error ⟨"truncated percent escape in %q", [.text segment]⟩
    else (unescapeLoop segment rest).map (c :: ·)

def unescapeSegment (segment : Text) : Except Message Text :=
  if byte '%' ∈ segment then unescapeLoop segment segment else .ok segment

/-- One part of the rule segment, which may not be empty. -/
def unescapePart (segment part : Text) : Except Message Text := do
  let value ← unescapeSegment part
  if value = [] then .error ⟨"the rule segment %q carries an empty part", [.text segment]⟩
  else return value

def splitRuleSegment (segment : Text) : Except Message (Text × Text) :=
  match Strings.split segment (byte '/') with
  | [block, rule] => do
    let block ← unescapePart segment block
    let rule ← unescapePart segment rule
    return (block, rule)
  | _ => .error ⟨"the rule segment %q is not block/rule", [.text segment]⟩

/-- The segments, without the empty element that the last terminator leaves. -/
def counterFields (rest : Text) : List Text :=
  let fields := Strings.split rest (byte ':')
  if fields.getLast? = some [] then fields.dropLast else fields

def parseCounterKey (s : Scope) (k : Text) : Except Message CounterKey :=
  match Strings.cutPrefix k (domainPrefix s) with
  | none => .error ⟨"key %q does not belong to domain %q", [.text k, .text s.domain]⟩
  | some rest =>
    match counterFields rest with
    | owner :: algorithm :: period :: values => do
      let (block, rule) ← (splitRuleSegment owner).mapError (Message.wrap "key %q: " [.text k])
      match Strconv.parseInt period with
      | none =>
        .error ⟨"key %q carries a period that is not a whole number of seconds: %q",
          [.text k, .text period]⟩
      | some seconds =>
        let axes ← (values.mapM unescapeSegment).mapError (Message.wrap "key %q: " [.text k])
        return ⟨ruleID block rule, block, rule, algorithm, seconds,
          domainPrefix s ++ Strings.join [owner, algorithm, period] (byte ':') ++ ascii ":", axes⟩
    | fields =>
      .error ⟨"key %q carries %d segments, fewer than the rule, algorithm, and period the layout requires",
        [.text k, .number fields.length]⟩

section Unescape

theorem unescapeLoop_cons_of_ne {segment rest : Text} {c : Byte} (h : c ≠ byte '%') :
    unescapeLoop segment (c :: rest) = (unescapeLoop segment rest).map (c :: ·) := by
  rw [unescapeLoop.eq_def]
  exact if_neg h

theorem unescapeLoop_escapeByte (segment : Text) (c : Byte) (rest : Text) :
    unescapeLoop segment (escapeByte c ++ rest) = (unescapeLoop segment rest).map (c :: ·) := by
  by_cases hc : c ∈ reserved
  · rw [escapeByte, if_pos hc]
    simp only [reserved, List.mem_cons, List.not_mem_nil, or_false] at hc
    rcases hc with rfl | rfl | rfl | rfl | rfl <;> rfl
  · rw [escapeByte, if_neg hc]
    have hne : c ≠ byte '%' := by
      rintro rfl
      exact hc List.mem_cons_self
    exact unescapeLoop_cons_of_ne hne

theorem unescapeLoop_escape (segment v : Text) :
    unescapeLoop segment (v.flatMap escapeByte) = .ok v := by
  induction v with
  | nil => rfl
  | cons c v ih =>
    rw [List.flatMap_cons, unescapeLoop_escapeByte, ih]
    rfl

theorem unescapeLoop_of_not_mem {segment s : Text} (h : byte '%' ∉ s) :
    unescapeLoop segment s = .ok s := by
  induction s with
  | nil => rfl
  | cons c s ih =>
    have hc : c ≠ byte '%' := fun he => h (he ▸ List.mem_cons_self)
    rw [unescapeLoop_cons_of_ne hc, ih (fun hm => h (List.mem_cons_of_mem _ hm))]
    rfl

theorem unescapeSegment_escape (v : Text) : unescapeSegment (escape v) = .ok v := by
  have hloop : unescapeLoop (escape v) (escape v) = .ok v := by
    conv_lhs => rw [escape_eq v]
    exact unescapeLoop_escape _ v
  unfold unescapeSegment
  split_ifs with hpercent
  · exact hloop
  · rw [unescapeLoop_of_not_mem hpercent] at hloop
    exact hloop

theorem unescapePart_escape {segment v : Text} (h : v ≠ []) :
    unescapePart segment (escape v) = .ok v := by
  simp only [unescapePart, unescapeSegment_escape]
  exact if_neg h

theorem mapM_unescapeSegment (axes : List Text) :
    (axes.map escape).mapM unescapeSegment = .ok axes := by
  induction axes with
  | nil => rfl
  | cons v axes ih =>
    rw [List.map_cons, List.mapM_cons, unescapeSegment_escape, ih]
    rfl

theorem split_escape (block rule : Text) :
    Strings.split (escape block ++ byte '/' :: escape rule) (byte '/') =
      [escape block, escape rule] := by
  rw [Strings.split, List.splitOn_append_cons_self_of_not_mem (slash_not_mem_escape _),
    List.splitOn_eq_singleton (slash_not_mem_escape _)]

theorem splitRuleSegment_escape {block rule : Text} (hb : block ≠ []) (hr : rule ≠ []) :
    splitRuleSegment (escape block ++ byte '/' :: escape rule) = .ok (block, rule) := by
  simp only [splitRuleSegment, split_escape, unescapePart_escape hb, unescapePart_escape hr]
  rfl

theorem eq_of_splitRuleSegment {block rule : Text} {parts : Text × Text}
    (h : splitRuleSegment (escape block ++ byte '/' :: escape rule) = .ok parts) :
    parts = (block, rule) := by
  have hempty : ∀ segment, ∃ e, unescapePart segment (escape []) = .error e := fun _ => ⟨_, rfl⟩
  by_cases hb : block = []
  · obtain ⟨e, he⟩ := hempty (escape block ++ byte '/' :: escape rule)
    rw [← hb] at he
    simp only [splitRuleSegment, split_escape, he] at h
    cases h
  · by_cases hr : rule = []
    · obtain ⟨e, he⟩ := hempty (escape block ++ byte '/' :: escape rule)
      rw [← hr] at he
      simp only [splitRuleSegment, split_escape, unescapePart_escape hb, he] at h
      cases h
    · rw [splitRuleSegment_escape hb hr] at h
      exact (Except.ok.inj h).symm

end Unescape

theorem counterFields_terminated {fields : List Text} (h : ∀ f ∈ fields, byte ':' ∉ f) :
    counterFields (terminated (byte ':') fields) = fields := by
  simp [counterFields, Strings.split, splitOn_terminated h]

theorem counterFields_begin (rest : Text) :
    counterFields rest <+: Strings.split rest (byte ':') := by
  unfold counterFields
  dsimp only
  split_ifs
  · exact List.dropLast_prefix _
  · exact List.prefix_rfl

theorem counterFields_clean {rest f : Text} (h : f ∈ counterFields rest) : byte ':' ∉ f :=
  not_mem_of_mem_splitOn ((counterFields_begin rest).subset h)

theorem counterFields_head {rest owner next : Text} {values : List Text}
    (h : counterFields rest = owner :: next :: values) : owner ++ [byte ':'] <+: rest := by
  obtain ⟨more, hmore⟩ := counterFields_begin rest
  have hjoin : [byte ':'].intercalate (Strings.split rest (byte ':')) = rest :=
    List.intercalate_splitOn _
  rw [← hmore, h] at hjoin
  refine ⟨[byte ':'].intercalate (next :: (values ++ more)), ?_⟩
  rw [← hjoin]
  simp [List.intercalate]

theorem parseInt_period {a : Algorithm} {w : Window} (hw : check a w = .ok ()) :
    Strconv.parseInt (Strconv.formatInt (w.period.tdiv second)) = some (w.period.tdiv second) := by
  obtain ⟨hlo, hhi⟩ := period_bounds hw
  have hseconds : 0 ≤ w.period.tdiv second ∧ w.period.tdiv second ≤ 86400 := by
    unfold maxPeriod second at *
    rw [Int.tdiv_eq_ediv_of_nonneg (by omega)]
    omega
  exact Strconv.parseInt_formatInt (by omega) (by omega)

theorem parse_of_period {id : Ident} {a : Algorithm} {w : Window} {seconds : ℤ} (axes : List Text)
    (hblock : id.block ≠ []) (hrule : id.rule ≠ [])
    (hperiod : Strconv.parseInt (Strconv.formatInt (w.period.tdiv second)) = some seconds) :
    parseCounterKey id.scope (bucket (ratePrefix id a w) axes) =
      .ok ⟨ruleID id.block id.rule, id.block, id.rule, Strings.toLowerAscii a.name, seconds,
        ratePrefix id a w, axes⟩ := by
  have hpre : domainPrefix id.scope ++ Strings.join
      [escape id.block ++ byte '/' :: escape id.rule, Strings.toLowerAscii a.name,
        Strconv.formatInt (w.period.tdiv second)] (byte ':') ++ ascii ":" = ratePrefix id a w := by
    simp [Strings.join, ratePrefix, rulePrefix, ascii, List.intercalate]
  unfold parseCounterKey
  rw [bucket_ratePrefix, Strings.cutPrefix_append]
  simp only [counterFields_terminated (segments_clean id a w axes),
    splitRuleSegment_escape hblock hrule, hperiod, mapM_unescapeSegment, hpre]
  rfl

/-- The decoder inverts the builder: every key the engine builds parses back to
exactly what it was built from, whatever bytes the parts hold. -/
theorem parseCounterKey_bucket (id : Ident) (a : Algorithm) (w : Window) (axes : List Text)
    (hblock : id.block ≠ []) (hrule : id.rule ≠ []) (hw : check a w = .ok ()) :
    parseCounterKey id.scope (bucket (ratePrefix id a w) axes) =
      .ok ⟨ruleID id.block id.rule, id.block, id.rule, Strings.toLowerAscii a.name,
        w.period.tdiv second, ratePrefix id a w, axes⟩ :=
  parse_of_period axes hblock hrule (parseInt_period hw)

theorem parseCounterKey_bucket_reserved :
    let id : Ident := ⟨⟨ascii "ns", ascii "dom", by decide, by decide⟩, ascii "b:/", ascii "%r"⟩
    let w : Window := ⟨100, 60 * second, 100⟩
    parseCounterKey id.scope (bucket (ratePrefix id .gcra w) [ascii "a:b", []]) =
      .ok ⟨ascii "b://%r", ascii "b:/", ascii "%r", ascii "gcra", 60, ratePrefix id .gcra w,
        [ascii "a:b", []]⟩ :=
  parseCounterKey_bucket _ _ _ _ (by decide) (by decide) rfl

end Ratelimit.Management
