import Ratelimit.Management.Handlers

/-!
# Narrowing a scan

A selection with one rule id scans the keys of that block or rule only. The filter
compares names as the decoder reads them, the prefix is made of escaped ones. On the
keys of the key package, whichever rule set built them, the prefix leaves out nothing
that the filter would keep.
-/
namespace Ratelimit.Management

open Library Records Compile Store

section Names

/-- A rule id of one segment is a block, of two segments a block and a rule. -/
def NamesRule (id block rule : Text) : Prop :=
  Strings.split id (byte '/') = [block] ∨ Strings.split id (byte '/') = [block, rule]

theorem split_eq_singleton {t x : Text} (h : Strings.split t (byte '/') = [x]) : t = x := by
  have hjoin : [byte '/'].intercalate (Strings.split t (byte '/')) = t := List.intercalate_splitOn _
  rw [h] at hjoin
  simpa using hjoin.symm

theorem split_of_pair {t x y : Text} (h : Strings.split t (byte '/') = [x, y]) :
    t = x ++ byte '/' :: y := by
  have hjoin : [byte '/'].intercalate (Strings.split t (byte '/')) = t := List.intercalate_splitOn _
  rw [h] at hjoin
  simpa [List.intercalate] using hjoin.symm

theorem split_of_splitID {id block rule : Text} (h : splitID id = some (block, rule)) :
    Strings.split id (byte '/') = [block, rule] := by
  unfold splitID at h
  split at h
  · next b r hsplit =>
    split_ifs at h
    obtain ⟨rfl, rfl⟩ := Prod.mk.inj (Option.some.inj h)
    exact hsplit
  · cases h

theorem parseCounterKey_parts {s : Key.Scope} {k : Text} {counter : CounterKey}
    (h : parseCounterKey s k = .ok counter) : ∃ rest owner algorithm period values,
    k = Key.domainPrefix s ++ rest ∧ counterFields rest = owner :: algorithm :: period :: values ∧
      splitRuleSegment owner = .ok (counter.block, counter.rule) ∧
      counter.ruleID = ruleID counter.block counter.rule ∧
      counter.ratePrefix = Key.domainPrefix s ++ terminated (byte ':') [owner, algorithm, period] := by
  unfold parseCounterKey at h
  split at h
  · cases h
  · next rest hcut =>
    have hkey : k = Key.domainPrefix s ++ rest := by
      unfold Strings.cutPrefix at hcut
      split_ifs at hcut with hhas
      obtain ⟨t, rfl⟩ := Strings.hasPrefix_iff.mp hhas
      rw [← Option.some.inj hcut, List.drop_left]
    split at h
    · next owner algorithm period values hfields =>
      obtain ⟨⟨block, rule⟩, howner, h⟩ := passed_iff.mp h
      dsimp only at h
      split at h
      · cases h
      · obtain ⟨axes, -, h⟩ := passed_iff.mp h
        cases h
        refine ⟨rest, owner, algorithm, period, values, hkey, hfields, ?_, rfl, ?_⟩
        · cases hsplit : splitRuleSegment owner with
          | error e => simp [hsplit, Except.mapError] at howner
          | ok parts => simpa [hsplit, Except.mapError] using howner
        · simp [Strings.join, ascii, List.intercalate]
    · cases h

theorem parseCounterKey_ok {s : Key.Scope} {k : Text} {counter : CounterKey}
    (h : parseCounterKey s k = .ok counter) :
    Key.domainPrefix s <+: k ∧ counter.ruleID = ruleID counter.block counter.rule := by
  obtain ⟨rest, owner, algorithm, period, values, rfl, -, -, hid, -⟩ := parseCounterKey_parts h
  exact ⟨List.prefix_append _ _, hid⟩

theorem namesRule_of_matches {id : Text} {counter : CounterKey}
    (hid : counter.ruleID = ruleID counter.block counter.rule)
    (h : matchesRuleID id counter = true) : NamesRule id counter.block counter.rule := by
  unfold matchesRuleID at h
  split at h
  · next block hsplit =>
    left
    rw [hsplit, of_decide_eq_true h]
  · next block rule hsplit =>
    have heq : id = counter.block ++ byte '/' :: counter.rule := by
      rw [← of_decide_eq_true h, hid]
      simp [ruleID, ascii]
    have hparts : Strings.split counter.block (byte '/') ++ Strings.split counter.rule (byte '/') =
        [block, rule] := by
      rw [← hsplit, heq, Strings.split, Strings.split, Strings.split, List.splitOn_append_cons_self]
    -- each side of the slash is one segment
    obtain ⟨b, bs, hb⟩ : ∃ b bs, Strings.split counter.block (byte '/') = b :: bs :=
      List.exists_cons_of_ne_nil (List.splitOn_ne_nil _ _)
    obtain ⟨r, rs, hr⟩ : ∃ r rs, Strings.split counter.rule (byte '/') = r :: rs :=
      List.exists_cons_of_ne_nil (List.splitOn_ne_nil _ _)
    rw [hb, hr] at hparts
    have hlength := congrArg List.length hparts
    simp only [List.length_append, List.length_cons, List.length_nil] at hlength
    obtain rfl : bs = [] := List.eq_nil_of_length_eq_zero (by omega)
    obtain rfl : rs = [] := List.eq_nil_of_length_eq_zero (by omega)
    right
    rw [hsplit, split_eq_singleton hb, split_eq_singleton hr]
    exact hparts.symm
  · cases h

theorem key_selected {sel : Selector} {counter : CounterKey}
    (hid : counter.ruleID = ruleID counter.block counter.rule) (h : sel.matches counter = true) :
    (sel.ruleIDs = [] ∨ ∃ id ∈ sel.ruleIDs, NamesRule id counter.block counter.rule) ∧
      (sel.algorithm = [] ∨ counter.algorithm = sel.algorithm) ∧
      (sel.periodSeconds = 0 ∨ counter.periodSeconds = sel.periodSeconds) := by
  unfold Selector.matches at h
  split_ifs at h with halgorithm hperiod hall
  all_goals
    refine ⟨?_, by tauto, by tauto⟩
  · exact Or.inl hall
  · obtain ⟨id, hmem, hmatches⟩ := List.any_eq_true.mp h
    exact Or.inr ⟨id, hmem, namesRule_of_matches hid hmatches⟩

end Names

section Keys

structure BuiltKey where
  id : Key.Ident
  algorithm : Algo.Algorithm
  window : Algo.Window
  axes : List Text
  block_ne : id.block ≠ []
  rule_ne : id.rule ≠ []
  checked : Algo.check algorithm window = .ok ()

namespace BuiltKey

variable (b : BuiltKey)

def ratePrefix : Text := Key.ratePrefix b.id b.algorithm b.window

def key : Text := Key.bucket b.ratePrefix b.axes

def counter : CounterKey :=
  ⟨ruleID b.id.block b.id.rule, b.id.block, b.id.rule, Strings.toLowerAscii b.algorithm.name,
    b.window.period.tdiv Algo.second, b.ratePrefix, b.axes⟩

theorem parse_key : parseCounterKey b.id.scope b.key = .ok b.counter :=
  parse_of_period _ b.block_ne b.rule_ne (parseInt_period b.checked)

end BuiltKey

variable {b : BuiltKey} {s : Key.Scope} {sel : Selector}

theorem scanPrefix_rulePrefix {counter : CounterKey}
    (hid : counter.ruleID = ruleID counter.block counter.rule) (h : sel.matches counter = true) :
    scanPrefix s sel <+: Key.rulePrefix ⟨s, counter.block, counter.rule⟩ := by
  have hdomain : Key.domainPrefix s <+: Key.rulePrefix ⟨s, counter.block, counter.rule⟩ := by
    rw [Key.rulePrefix, List.append_assoc, List.append_assoc, List.append_assoc]
    exact List.prefix_append _ _
  unfold scanPrefix
  split
  · next id hids =>
    have hnames : NamesRule id counter.block counter.rule := by
      rcases (key_selected hid h).1 with hall | ⟨id', hmem, hnames⟩
      · rw [hids] at hall
        cases hall
      · rw [hids] at hmem
        rw [List.mem_singleton.mp hmem] at hnames
        exact hnames
    split
    · next block rule hsplit =>
      rw [NamesRule, split_of_splitID hsplit] at hnames
      obtain ⟨rfl, rfl⟩ : block = counter.block ∧ rule = counter.rule := by simpa using hnames
      exact List.prefix_rfl
    · split_ifs with hblock
      · rcases hnames with hone | htwo
        · rw [split_eq_singleton hone, Key.blockPrefix, Key.rulePrefix, List.append_assoc _ _ (ascii ":")]
          exact List.prefix_append _ _
        · refine absurd ?_ hblock.2
          rw [split_of_pair htwo]
          simp
      · exact hdomain
  · exact hdomain

theorem scanPrefix_of_matches (hscope : b.id.scope = s) (h : sel.matches b.counter = true) :
    scanPrefix s sel <+: b.key := by
  refine (@scanPrefix_rulePrefix s sel b.counter rfl h).trans ?_
  refine (Key.rulePrefix_scopes _ _ _ _ _).mpr ?_
  exact Key.Ident.ext hscope.symm rfl rfl

theorem domainPrefix_scanPrefix (s : Key.Scope) (sel : Selector) :
    Key.domainPrefix s <+: scanPrefix s sel := by
  unfold scanPrefix
  split
  · split
    · rw [Key.rulePrefix, List.append_assoc, List.append_assoc, List.append_assoc]
      exact List.prefix_append _ _
    · split_ifs
      · rw [Key.blockPrefix, List.append_assoc]
        exact List.prefix_append _ _
      · exact List.prefix_rfl
  · exact List.prefix_rfl

end Keys

section Walks

/-- A whole walk over a content that does not change lists the keys under the prefix. -/
def WalkOf (content : Set Text) (pre : Text) (keys : List Text) : Prop :=
  ∀ k, k ∈ keys ↔ k ∈ content ∧ pre <+: k

/-- The key passes the filters that read the key alone. -/
def Selector.accepts (sel : Selector) (s : Key.Scope) (k : Text) : Bool :=
  match parseCounterKey s k with
  | .ok counter => sel.matches counter
  | .error _ => false

variable {s : Key.Scope} {sel : Selector}

theorem scanPrefix_of_accepts {b : BuiltKey} (hscope : b.id.scope = s)
    (h : sel.accepts s b.key = true) : scanPrefix s sel <+: b.key := by
  subst hscope
  rw [Selector.accepts, b.parse_key] at h
  exact scanPrefix_of_matches rfl h

theorem filter_narrowed {content : Set Text} {narrowed whole : List Text}
    (hbuilt : ∀ k ∈ content, Key.domainPrefix s <+: k → ∃ b : BuiltKey, b.key = k)
    (hnarrowed : WalkOf content (scanPrefix s sel) narrowed)
    (hwhole : WalkOf content (Key.domainPrefix s) whole) :
    (narrowed.filter (sel.accepts s)).toFinset = (whole.filter (sel.accepts s)).toFinset := by
  ext k
  simp only [List.mem_toFinset, List.mem_filter, hnarrowed k, hwhole k]
  constructor
  · rintro ⟨⟨hk, hpre⟩, haccepts⟩
    exact ⟨⟨hk, (domainPrefix_scanPrefix s sel).trans hpre⟩, haccepts⟩
  · rintro ⟨⟨hk, hdomain⟩, haccepts⟩
    obtain ⟨b, rfl⟩ := hbuilt k hk hdomain
    have hscope : b.id.scope = s := ((Key.domainPrefix_scopes _ _ _ _ s).mp hdomain).symm
    exact ⟨⟨hk, scanPrefix_of_accepts hscope haccepts⟩, haccepts⟩

/-- Narrowing loses nothing: a key of the domain that the filter keeps starts with the
narrowed prefix, so the two walks keep the same counters. -/
theorem narrowing_loses_nothing (s : Key.Scope) (sel : Selector) :
    (∀ b : BuiltKey, b.id.scope = s → ∀ counter, parseCounterKey s b.key = .ok counter →
      sel.matches counter = true → scanPrefix s sel <+: b.key) ∧
    ∀ (content : Set Text) (narrowed whole : List Text),
      (∀ k ∈ content, Key.domainPrefix s <+: k → ∃ b : BuiltKey, b.key = k) →
      WalkOf content (scanPrefix s sel) narrowed → WalkOf content (Key.domainPrefix s) whole →
      (narrowed.filter (sel.accepts s)).toFinset = (whole.filter (sel.accepts s)).toFinset := by
  constructor
  · intro b hscope counter hparse hmatches
    refine scanPrefix_of_accepts hscope ?_
    rw [Selector.accepts, hparse]
    exact hmatches
  · intro content narrowed whole hbuilt hnarrowed hwhole
    exact filter_narrowed hbuilt hnarrowed hwhole

theorem orders_ne_nil : ascii "orders" ≠ [] := by decide

theorem items_ne_nil : ascii "items" ≠ [] := by decide

theorem byUser_ne_nil : ascii "by/user" ≠ [] := by decide

def slashedKey (block : Text) (hblock : block ≠ []) : BuiltKey where
  id := ⟨shopScope, block, ascii "by/user"⟩
  algorithm := .gcra
  window := ⟨10, 60 * Algo.second, 10⟩
  axes := [ascii "alice"]
  block_ne := hblock
  rule_ne := byUser_ne_nil
  checked := rfl

def slashedOrders : BuiltKey := slashedKey (ascii "orders") orders_ne_nil

def slashedItems : BuiltKey := slashedKey (ascii "items") items_ne_nil

def blockSelector : Selector := { Selector.empty with ruleIDs := [ascii "orders"] }

theorem narrowing_loses_nothing_orders :
    scanPrefix shopScope blockSelector <+: slashedOrders.key ∧
      ([slashedOrders.key].filter (blockSelector.accepts shopScope)).toFinset =
        ([slashedItems.key, slashedOrders.key].filter
          (blockSelector.accepts shopScope)).toFinset := by
  obtain ⟨hkept, hwalks⟩ := narrowing_loses_nothing shopScope blockSelector
  have horders : scanPrefix shopScope blockSelector <+: slashedOrders.key :=
    hkept slashedOrders rfl _ slashedOrders.parse_key (by decide +kernel)
  refine ⟨horders, hwalks {slashedItems.key, slashedOrders.key} _ _ ?_ ?_ ?_⟩
  · rintro k (rfl | rfl) -
    · exact ⟨slashedItems, rfl⟩
    · exact ⟨slashedOrders, rfl⟩
  · intro k
    have hitems : ¬scanPrefix shopScope blockSelector <+: slashedItems.key := by
      decide +kernel
    constructor
    · intro hk
      rw [List.mem_singleton.mp hk]
      exact ⟨Or.inr rfl, horders⟩
    · rintro ⟨rfl | rfl, hpre⟩
      · exact absurd hpre hitems
      · exact List.mem_singleton_self _
  · intro k
    have hdomain : ∀ k ∈ [slashedItems.key, slashedOrders.key],
        Key.domainPrefix shopScope <+: k := by decide +kernel
    constructor
    · intro hk
      exact ⟨by simpa using hk, hdomain k hk⟩
    · rintro ⟨hk, -⟩
      simpa using hk

end Walks

end Ratelimit.Management
