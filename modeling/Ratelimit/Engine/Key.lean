import Ratelimit.Base.Algo
import Ratelimit.Library.Delimited

/-!
# Counter keys

The key package is the only place that knows the shape of a counter key. The
namespace and the domain sit in one hash tag, every later segment ends with a
colon, and the parts are percent-encoded, so that no value can forge a segment
boundary. An empty namespace or domain panics; a scope has neither.
-/
namespace Ratelimit.Key

open Algo Library

def schemaVersion : Text := ascii "v1"

def openBrace : Byte := 123

def closeBrace : Byte := 125

def reserved : Text := [byte '%', byte ':', byte '/', openBrace, closeBrace]

/-- The digits of the verb `%02X`. -/
def upperHex (n : Fin 16) : Byte :=
  if n.val < 10 then byte '0' + Fin.ofNat 256 n.val else byte 'A' + Fin.ofNat 256 (n.val - 10)

def escapeByte (c : Byte) : Text :=
  if c ∈ reserved then
    [byte '%', upperHex (Fin.ofNat 16 (c.val / 16)), upperHex (Fin.ofNat 16 c.val)]
  else [c]

def escape (v : Text) : Text :=
  if Strings.containsAny v reserved = false then v else v.flatMap escapeByte

/-- A namespace and a domain, both of them set. -/
@[ext] structure Scope where
  namespaceName : Text
  domain : Text
  namespaceName_ne : namespaceName ≠ []
  domain_ne : domain ≠ []
  deriving DecidableEq

@[ext] structure Ident where
  scope : Scope
  block : Text
  rule : Text
  deriving DecidableEq

/-- The Redis Cluster hash tag of a domain, braces included. -/
def domainTag (s : Scope) : Text :=
  openBrace :: escape s.namespaceName ++ byte '/' :: escape s.domain ++ [closeBrace]

def domainPrefix (s : Scope) : Text :=
  ascii "rl:" ++ schemaVersion ++ ascii ":" ++ domainTag s ++ ascii ":"

def blockPrefix (s : Scope) (block : Text) : Text := domainPrefix s ++ escape block ++ ascii "/"

def rulePrefix (id : Ident) : Text :=
  domainPrefix id.scope ++ escape id.block ++ ascii "/" ++ escape id.rule ++ ascii ":"

def ratePrefix (id : Ident) (a : Algorithm) (w : Window) : Text :=
  rulePrefix id ++ Strings.toLowerAscii a.name ++ ascii ":" ++
    Strconv.formatInt (w.period.tdiv second) ++ ascii ":"

def bucket (pre : Text) (axes : List Text) : Text :=
  pre ++ axes.flatMap fun v => escape v ++ [byte ':']

section Escape

theorem escape_eq (v : Text) : escape v = v.flatMap escapeByte := by
  unfold escape
  split_ifs with h
  · induction v with
    | nil => rfl
    | cons c v ih =>
      simp only [Strings.containsAny, List.any_cons, Bool.or_eq_false_iff,
        decide_eq_false_iff_not] at h ih
      rw [List.flatMap_cons, ← ih h.2, escapeByte, if_neg h.1]
      rfl
  · rfl

theorem escapeByte_ne_nil (c : Byte) : escapeByte c ≠ [] := by
  unfold escapeByte
  split_ifs <;> simp

theorem escapeByte_clean (c : Byte) :
    ∀ d ∈ escapeByte c, d ∉ [byte ':', byte '/', openBrace, closeBrace] := by
  unfold escapeByte
  split_ifs with hc
  · simp only [reserved, List.mem_cons, List.not_mem_nil, or_false] at hc
    rcases hc with rfl | rfl | rfl | rfl | rfl <;> decide +kernel
  · intro d hd
    rw [List.mem_singleton.mp hd]
    exact fun h => hc (List.mem_cons_of_mem _ h)

theorem escape_clean {v : Text} {d : Byte} (hd : d ∈ escape v) :
    d ∉ [byte ':', byte '/', openBrace, closeBrace] := by
  rw [escape_eq] at hd
  obtain ⟨c, -, hc⟩ := List.mem_flatMap.mp hd
  exact escapeByte_clean c d hc

theorem colon_not_mem_escape (v : Text) : byte ':' ∉ escape v :=
  fun h => escape_clean h (by simp)

theorem slash_not_mem_escape (v : Text) : byte '/' ∉ escape v :=
  fun h => escape_clean h (by simp)

theorem closeBrace_not_mem_escape (v : Text) : closeBrace ∉ escape v :=
  fun h => escape_clean h (by simp)

/-- A reserved byte opens with the percent sign, which is itself reserved. -/
theorem escapeByte_prefixFree (c d : Byte) (h : escapeByte c <+: escapeByte d) : c = d := by
  unfold escapeByte at h
  by_cases hc : c ∈ reserved
  · by_cases hd : d ∈ reserved
    · rw [if_pos hc, if_pos hd] at h
      simp only [reserved, List.mem_cons, List.not_mem_nil, or_false] at hc hd
      rcases hc with rfl | rfl | rfl | rfl | rfl <;> rcases hd with rfl | rfl | rfl | rfl | rfl <;>
        first | rfl | exact absurd h (by decide)
    · rw [if_pos hc, if_neg hd] at h
      simp at h
  · by_cases hd : d ∈ reserved
    · rw [if_neg hc, if_pos hd] at h
      have he : c = byte '%' := by simpa using h
      exact absurd (he ▸ List.mem_cons_self) hc
    · rw [if_neg hc, if_neg hd] at h
      simpa using h

theorem escape_injective : Function.Injective escape := by
  have hfun : escape = List.flatMap escapeByte := funext escape_eq
  rw [hfun]
  exact flatMap_injective escapeByte_ne_nil escapeByte_prefixFree

end Escape

section Layout

theorem bucket_eq (pre : Text) (axes : List Text) :
    bucket pre axes = pre ++ terminated (byte ':') (axes.map escape) := by
  simp [bucket, terminated, List.flatMap_map]

abbrev segments (id : Ident) (a : Algorithm) (w : Window) (axes : List Text) : List Text :=
  (escape id.block ++ byte '/' :: escape id.rule) :: Strings.toLowerAscii a.name ::
    Strconv.formatInt (w.period.tdiv second) :: axes.map escape

theorem bucket_ratePrefix (id : Ident) (a : Algorithm) (w : Window) (axes : List Text) :
    bucket (ratePrefix id a w) axes =
      domainPrefix id.scope ++ terminated (byte ':') (segments id a w axes) := by
  rw [bucket_eq]
  simp [ratePrefix, rulePrefix, ascii]

theorem colon_not_mem_name (a : Algorithm) : byte ':' ∉ Strings.toLowerAscii a.name := by
  cases a <;> decide

theorem name_injective {a a' : Algorithm}
    (h : Strings.toLowerAscii a.name = Strings.toLowerAscii a'.name) : a = a' := by
  cases a <;> cases a' <;> first | rfl | exact absurd h (by decide)

theorem segments_clean (id : Ident) (a : Algorithm) (w : Window) (axes : List Text) :
    ∀ f ∈ segments id a w axes, byte ':' ∉ f := by
  intro f hf
  simp only [List.mem_cons, List.mem_map] at hf
  rcases hf with rfl | rfl | rfl | ⟨v, -, rfl⟩
  · simp only [List.mem_append, List.mem_cons, not_or]
    exact ⟨colon_not_mem_escape _, by decide, colon_not_mem_escape _⟩
  · exact colon_not_mem_name a
  · exact Strconv.colon_not_mem_formatInt _
  · exact colon_not_mem_escape v

theorem domainTag_append (s : Scope) (t : Text) :
    domainTag s ++ t =
      openBrace :: (escape s.namespaceName ++ byte '/' :: (escape s.domain ++ closeBrace :: t)) := by
  simp [domainTag]

theorem domainTag_append_inj {s s' : Scope} {t t' : Text}
    (h : domainTag s ++ t = domainTag s' ++ t') : s = s' ∧ t = t' := by
  rw [domainTag_append, domainTag_append, List.cons.injEq] at h
  obtain ⟨hns, hrest⟩ := append_sep_inj (slash_not_mem_escape _) (slash_not_mem_escape _) h.2
  obtain ⟨hdom, htail⟩ :=
    append_sep_inj (closeBrace_not_mem_escape _) (closeBrace_not_mem_escape _) hrest
  exact ⟨Scope.ext (escape_injective hns) (escape_injective hdom), htail⟩

theorem domainPrefix_append_inj {s s' : Scope} {t t' : Text}
    (h : domainPrefix s ++ t = domainPrefix s' ++ t') : s = s' ∧ t = t' := by
  simp only [domainPrefix, List.append_assoc, List.append_cancel_left_eq] at h
  obtain ⟨hs, htail⟩ := domainTag_append_inj h
  exact ⟨hs, List.append_cancel_left htail⟩

theorem eq_of_tdiv_second {p q : ℤ} (hp : second ∣ p) (hq : second ∣ q)
    (h : p.tdiv second = q.tdiv second) : p = q := by
  rw [← Int.mul_tdiv_cancel' hp, ← Int.mul_tdiv_cancel' hq, h]

theorem bucket_injective {id id' : Ident} {a a' : Algorithm} {w w' : Window}
    {axes axes' : List Text}
    (hw : second ∣ w.period) (hw' : second ∣ w'.period)
    (h : bucket (ratePrefix id a w) axes = bucket (ratePrefix id' a' w') axes') :
    id = id' ∧ a = a' ∧ w.period = w'.period ∧ axes = axes' := by
  rw [bucket_ratePrefix, bucket_ratePrefix] at h
  obtain ⟨hscope, hsegments⟩ := domainPrefix_append_inj h
  have hfields := terminated_inj (segments_clean id a w axes) (segments_clean id' a' w' axes')
    hsegments
  simp only [List.cons.injEq] at hfields
  obtain ⟨hrule, hname, hperiod, haxes⟩ := hfields
  obtain ⟨hblock, hrule⟩ := append_sep_inj (slash_not_mem_escape _) (slash_not_mem_escape _) hrule
  refine ⟨?_, name_injective hname, ?_, ?_⟩
  · obtain ⟨scope, block, rule⟩ := id
    obtain ⟨scope', block', rule'⟩ := id'
    obtain rfl : scope = scope' := hscope
    obtain rfl : block = block' := escape_injective hblock
    obtain rfl : rule = rule' := escape_injective hrule
    rfl
  · exact eq_of_tdiv_second hw hw' (Strconv.formatInt_injective hperiod)
  · exact List.map_injective_iff.mpr escape_injective haxes

end Layout

section Prefixes

variable (id : Ident) (a : Algorithm) (w : Window) (axes : List Text)

theorem domainPrefix_prefix_iff {s s' : Scope} {t t' : Text} :
    domainPrefix s ++ t <+: domainPrefix s' ++ t' ↔ s = s' ∧ t <+: t' := by
  constructor
  · rintro ⟨rest, hrest⟩
    rw [List.append_assoc] at hrest
    obtain ⟨rfl, htail⟩ := domainPrefix_append_inj hrest
    exact ⟨rfl, rest, htail⟩
  · rintro ⟨rfl, rest, rfl⟩
    exact ⟨rest, by simp⟩

theorem domainPrefix_scopes (s : Scope) :
    domainPrefix s <+: bucket (ratePrefix id a w) axes ↔ s = id.scope := by
  have hiff := @domainPrefix_prefix_iff s id.scope [] (terminated (byte ':') (segments id a w axes))
  rw [List.append_nil] at hiff
  rw [bucket_ratePrefix]
  exact hiff.trans (by simp)

theorem blockPrefix_scopes (s : Scope) (block : Text) :
    blockPrefix s block <+: bucket (ratePrefix id a w) axes ↔ s = id.scope ∧ block = id.block := by
  have hblock : blockPrefix s block = domainPrefix s ++ (escape block ++ byte '/' :: []) := by
    simp [blockPrefix, ascii]
  have hkey : bucket (ratePrefix id a w) axes = domainPrefix id.scope ++ (escape id.block ++
      byte '/' :: (escape id.rule ++ byte ':' :: terminated (byte ':') (segments id a w axes).tail)) := by
    rw [bucket_ratePrefix]
    simp [segments]
  rw [hblock, hkey, domainPrefix_prefix_iff,
    append_sep_prefix_iff (slash_not_mem_escape _) (slash_not_mem_escape _)]
  simp [escape_injective.eq_iff]

theorem rulePrefix_scopes (id' : Ident) :
    rulePrefix id' <+: bucket (ratePrefix id a w) axes ↔ id' = id := by
  have hrule : rulePrefix id' =
      domainPrefix id'.scope ++ terminated (byte ':') [escape id'.block ++ byte '/' :: escape id'.rule] := by
    simp [rulePrefix, ascii]
  have hclean := segments_clean id a w axes
  have hclean' : ∀ f ∈ [escape id'.block ++ byte '/' :: escape id'.rule], byte ':' ∉ f :=
    fun f hf => segments_clean id' a w [] f (List.mem_singleton.mp hf ▸ List.mem_cons_self)
  rw [hrule, bucket_ratePrefix, domainPrefix_prefix_iff, terminated_prefix_iff hclean' hclean]
  constructor
  · rintro ⟨hscope, hfields⟩
    have howner := (List.cons_prefix_cons.mp hfields).1
    obtain ⟨hblock, hrule⟩ := append_sep_inj (slash_not_mem_escape _) (slash_not_mem_escape _) howner
    exact Ident.ext hscope (escape_injective hblock) (escape_injective hrule)
  · rintro rfl
    simp

theorem bucket_scopes {id' : Ident} {a' : Algorithm} {w' : Window} {axes' : List Text}
    (hw : second ∣ w.period) (hw' : second ∣ w'.period) :
    bucket (ratePrefix id' a' w') axes' <+: bucket (ratePrefix id a w) axes ↔
      id' = id ∧ a' = a ∧ w'.period = w.period ∧ axes' <+: axes := by
  rw [bucket_ratePrefix, bucket_ratePrefix, domainPrefix_prefix_iff,
    terminated_prefix_iff (segments_clean id' a' w' axes') (segments_clean id a w axes)]
  simp only [List.cons_prefix_cons, List.prefix_map_iff_of_injective escape_injective]
  constructor
  · rintro ⟨hscope, howner, hname, hperiod, haxes⟩
    obtain ⟨hblock, hrule⟩ := append_sep_inj (slash_not_mem_escape _) (slash_not_mem_escape _) howner
    exact ⟨Ident.ext hscope (escape_injective hblock) (escape_injective hrule), name_injective hname,
      eq_of_tdiv_second hw' hw (Strconv.formatInt_injective hperiod), haxes⟩
  · rintro ⟨rfl, rfl, hperiod, haxes⟩
    exact ⟨rfl, rfl, rfl, by rw [hperiod], haxes⟩

/-- A prefix of the key package covers the keys of what it names and no other: its
domain, its block, its rule, and its rate with the leading axis values. -/
theorem prefixes_scope_exactly (hw : check a w = .ok ()) :
    (∀ s, domainPrefix s <+: bucket (ratePrefix id a w) axes ↔ s = id.scope) ∧
    (∀ s block, blockPrefix s block <+: bucket (ratePrefix id a w) axes ↔
      s = id.scope ∧ block = id.block) ∧
    (∀ id', rulePrefix id' <+: bucket (ratePrefix id a w) axes ↔ id' = id) ∧
    ∀ id' a' w' axes', check a' w' = .ok () →
      (bucket (ratePrefix id' a' w') axes' <+: bucket (ratePrefix id a w) axes ↔
        id' = id ∧ a' = a ∧ w'.period = w.period ∧ axes' <+: axes) := by
  refine ⟨domainPrefix_scopes id a w axes, blockPrefix_scopes id a w axes,
    rulePrefix_scopes id a w axes, fun id' a' w' axes' hw' => ?_⟩
  exact bucket_scopes id a w axes (second_dvd_period hw) (second_dvd_period hw')

theorem prefixes_scope_exactly_alice :
    let id : Ident := ⟨⟨ascii "ns", ascii "dom", by decide, by decide⟩, ascii "orders", ascii "user"⟩
    let w : Window := ⟨100, 60 * second, 100⟩
    ¬bucket (ratePrefix id .gcra w) [ascii "alice"] <+:
      bucket (ratePrefix id .gcra w) [ascii "alice2"] := by
  intro id w hcovers
  have haxes := (((prefixes_scope_exactly id .gcra w [ascii "alice2"] rfl).2.2.2 id .gcra w
    [ascii "alice"] rfl).mp hcovers).2.2.2
  revert haxes
  decide

end Prefixes

end Ratelimit.Key
