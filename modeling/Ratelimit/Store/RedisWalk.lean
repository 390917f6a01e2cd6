import Ratelimit.Engine.Key

/-!
# Slots and walks of the shared store

Redis Cluster keeps a key in the slot of its hash tag, and the walk of a prefix reads
the master of that slot, or every master where the prefix has no tag.
-/
namespace Ratelimit.Redis

open Key

section HashTags

/-- The text between the first opening brace and the first closing one after it. -/
def hashTag (k : Text) : Option Text :=
  let rest := (Strings.cut k openBrace).2
  if openBrace ∈ k ∧ closeBrace ∈ rest then some (Strings.cut rest closeBrace).1 else none

def hasHashTag (s : Text) : Bool :=
  let rest := (Strings.cut s openBrace).2
  decide (openBrace ∈ s) && decide (closeBrace ∈ rest) &&
    decide ((Strings.cut rest closeBrace).1 ≠ [])

theorem hasHashTag_iff {s : Text} : hasHashTag s = true ↔ ∃ tag, hashTag s = some tag ∧ tag ≠ [] := by
  simp only [hasHashTag, hashTag, Bool.and_eq_true, decide_eq_true_eq, Option.ite_none_right_eq_some,
    Option.some.injEq]
  constructor
  · rintro ⟨hopen, hne⟩
    exact ⟨_, ⟨hopen, rfl⟩, hne⟩
  · rintro ⟨_, ⟨hopen, rfl⟩, hne⟩
    exact ⟨hopen, hne⟩

theorem hashTag_append {pre tag rest : Text} (hopen : openBrace ∉ pre) (hclose : closeBrace ∉ tag) :
    hashTag (pre ++ openBrace :: (tag ++ closeBrace :: rest)) = some tag := by
  simp [hashTag, Strings.cut_append_sep hopen, Strings.cut_append_sep hclose]

end HashTags

section Cursors

def formatScanCursor (addr : Text) (pos : ℕ) : Text :=
  if addr = [] then Strconv.formatNat pos else addr ++ byte '@' :: Strconv.formatNat pos

/-- What stands before and after the last `@`; all of it is after where there is none. -/
def cutLast (cursor : Text) : Text × Text :=
  (((cursor.reverse.dropWhile (· ≠ byte '@')).drop 1).reverse,
    (cursor.reverse.takeWhile (· ≠ byte '@')).reverse)

def badCursor : Message :=
  ⟨"redis: scan: store: the cursor is not a continuation of this scan", []⟩

/-- The index of a cursor's node and its position; an empty cursor starts the walk. -/
def parseScanCursor (cursor : Text) (nodes : List Text) : Except Message (ℕ × ℕ) :=
  if cursor = [] then .ok (0, 0)
  else
    match Strconv.parseNat (cutLast cursor).2 with
    | none => .error badCursor
    | some pos =>
      if pos < 2 ^ 64 ∧ (cutLast cursor).1 ∈ nodes then .ok (nodes.idxOf (cutLast cursor).1, pos)
      else .error badCursor

theorem cutLast_formatScanCursor (addr : Text) (pos : ℕ) :
    cutLast (formatScanCursor addr pos) = (addr, Strconv.formatNat pos) := by
  have hdigits : ∀ b ∈ (Strconv.formatNat pos).reverse, decide (b ≠ byte '@') = true := by
    intro b hb
    rw [decide_eq_true_eq]
    rintro rfl
    exact absurd (Strconv.isDigit_of_mem_formatNat (List.mem_reverse.mp hb)) (by decide)
  have hcut : ∀ rest, cutLast ((Strconv.formatNat pos).reverse ++ rest).reverse =
      (((rest.dropWhile (· ≠ byte '@')).drop 1).reverse,
        ((Strconv.formatNat pos).reverse ++ rest.takeWhile (· ≠ byte '@')).reverse) := by
    intro rest
    rw [cutLast, List.reverse_reverse, List.takeWhile_append_of_pos hdigits,
      List.dropWhile_append_of_pos hdigits]
  unfold formatScanCursor
  split_ifs with haddr
  · simpa [haddr] using hcut []
  · simpa using hcut (byte '@' :: addr.reverse)

theorem formatScanCursor_ne_nil (addr : Text) (pos : ℕ) : formatScanCursor addr pos ≠ [] := by
  unfold formatScanCursor
  split_ifs
  · exact Strconv.formatNat_ne_nil pos
  · simp

/-- A cursor is read back as the node and the position it was written for. -/
theorem parseScanCursor_formatScanCursor {nodes : List Text} {addr : Text} {pos : ℕ}
    (haddr : addr ∈ nodes) (hpos : pos < 2 ^ 64) :
    parseScanCursor (formatScanCursor addr pos) nodes = .ok (nodes.idxOf addr, pos) := by
  rw [parseScanCursor, if_neg (formatScanCursor_ne_nil addr pos), cutLast_formatScanCursor,
    Strconv.parseNat_formatNat]
  exact if_pos ⟨hpos, haddr⟩

end Cursors

section Globs

/-- The escapes of the replacer, each for one byte. -/
def escapeGlob (s : Text) : Text :=
  s.flatMap fun b => if b ∈ ascii "\\*?[]" then [byte '\\', b] else [b]

/-- Glob matching as far as it is documented for such patterns: an escaped byte and a byte
that is not special match themselves, and a star at the end matches the rest. -/
structure Globs (globMatch : Text → Text → Prop) : Prop where
  star : ∀ k, globMatch (ascii "*") k
  escaped : ∀ b pat k, globMatch (byte '\\' :: b :: pat) k ↔ ∃ rest, k = b :: rest ∧ globMatch pat rest
  literal : ∀ b pat k, b ∉ ascii "\\*?[]" →
    (globMatch (b :: pat) k ↔ ∃ rest, k = b :: rest ∧ globMatch pat rest)

theorem Globs.matches_iff {globMatch : Text → Text → Prop} (h : Globs globMatch) (pre k : Text) :
    globMatch (escapeGlob pre ++ ascii "*") k ↔ pre <+: k := by
  induction pre generalizing k with
  | nil => simpa [escapeGlob] using h.star k
  | cons b pre ih =>
    have hstep : globMatch (escapeGlob (b :: pre) ++ ascii "*") k ↔
        ∃ rest, k = b :: rest ∧ globMatch (escapeGlob pre ++ ascii "*") rest := by
      by_cases hb : b ∈ ascii "\\*?[]"
      · simpa [escapeGlob, hb] using h.escaped b (escapeGlob pre ++ ascii "*") k
      · simpa [escapeGlob, hb] using h.literal b (escapeGlob pre ++ ascii "*") k hb
    rw [hstep]
    simp only [ih]
    constructor
    · rintro ⟨rest, rfl, hrest⟩
      exact (List.prefix_cons_inj b).mpr hrest
    · rintro ⟨rest, rfl⟩
      exact ⟨pre ++ rest, rfl, List.prefix_append _ _⟩

end Globs

section Walks

structure ScanCall where
  addr : Text
  pos : ℕ
  pattern : Text
  count : ℤ

structure ScanReply where
  keys : List Text
  next : ℕ

/-- What the nodes will answer to their coming calls, and the calls so far. -/
structure Masters where
  left : Text → List ScanReply
  log : List ScanCall

/-- One SCAN on a node; a node that has nothing to answer fails the call. -/
def Masters.scan (s : Masters) (c : ScanCall) : Option ScanReply × Masters :=
  ((s.left c.addr).head?,
    ⟨Function.update s.left c.addr (s.left c.addr).tail, s.log ++ [c]⟩)

/-- The loop of a step: an exhausted node without keys passes on to the next one. -/
def scanLoop (pattern : Text) (limit : ℤ) :
    List Text → Text → ℕ → Masters → Except Message (List Text × Text) × Masters
  | rest, addr, pos, s =>
    match s.scan ⟨addr, pos, pattern, limit⟩ with
    | (none, s) => (.error ⟨"redis: scan: %w", []⟩, s)
    | (some reply, s) =>
      let keys := reply.keys.insertionSort (· ≤ ·)
      if reply.next ≠ 0 then (.ok (keys, formatScanCursor addr reply.next), s)
      else
        match rest with
        | [] => (.ok (keys, []), s)
        | addr :: rest =>
          if keys ≠ [] then (.ok (keys, formatScanCursor addr 0), s)
          else scanLoop pattern limit rest addr 0 s

/-- One step of a walk, over one node at least. -/
def scan (nodes : List Text) (pre cursor : Text) (limit : ℤ) (s : Masters) :
    Except Message (List Text × Text) × Masters :=
  if limit < 1 then
    (.error ⟨"redis: scan: limit must be at least 1, got %d", [.number limit]⟩, s)
  else
    match parseScanCursor cursor nodes with
    | .error e => (.error e, s)
    | .ok (node, pos) =>
      match nodes.drop node with
      | [] => (.error ⟨"runtime error: index out of range [0] with length 0", []⟩, s)
      | addr :: rest => scanLoop (escapeGlob pre ++ ascii "*") limit rest addr pos s

/-- How a walk goes on from the answer of a step. -/
def finish (follow : Text → Masters → Option (List Text × Masters)) :
    Except Message (List Text × Text) × Masters → Option (List Text × Masters)
  | (.error _, _) => none
  | (.ok (keys, next), s) =>
    if next = [] then some (keys, s) else (follow next s).map fun w => (keys ++ w.1, w.2)

/-- A walk from a cursor to its end: the keys of its steps, with the calls in the log. -/
def followScan (nodes : List Text) (pre : Text) (limit : ℤ) :
    ℕ → Text → Masters → Option (List Text × Masters)
  | 0, _, _ => none
  | fuel + 1, cursor, s =>
    finish (followScan nodes pre limit fuel) (scan nodes pre cursor limit s)

/-- The replies of one SCAN cycle: zero ends it and nothing else does. -/
inductive Complete : List ScanReply → Prop
  | last {reply : ScanReply} : reply.next = 0 → Complete [reply]
  | more {reply : ScanReply} {replies : List ScanReply} : reply.next ≠ 0 → reply.next < 2 ^ 64 →
    Complete replies → Complete (reply :: replies)

/-- The calls of a cycle from a position on. -/
def cycle (pattern : Text) (limit : ℤ) (addr : Text) : ℕ → List ScanReply → List ScanCall
  | _, [] => []
  | pos, reply :: replies =>
    ⟨addr, pos, pattern, limit⟩ :: cycle pattern limit addr reply.next replies

def keysOf (replies : List ScanReply) : List Text :=
  replies.flatMap fun reply => reply.keys.insertionSort (· ≤ ·)

variable {pre : Text} {limit : ℤ}

theorem followScan_cursor (hlimit : 1 ≤ limit) {before rest : List Text} {addr : Text}
    (hnodup : (before ++ addr :: rest).Nodup) {pos : ℕ} (hpos : pos < 2 ^ 64) (fuel : ℕ)
    (s : Masters) :
    followScan (before ++ addr :: rest) pre limit (fuel + 1) (formatScanCursor addr pos) s =
      finish (followScan (before ++ addr :: rest) pre limit fuel)
        (scanLoop (escapeGlob pre ++ ascii "*") limit rest addr pos s) := by
  have hnot : addr ∉ before := fun h => List.disjoint_of_nodup_append hnodup h List.mem_cons_self
  have hscan : scan (before ++ addr :: rest) pre (formatScanCursor addr pos) limit s =
      scanLoop (escapeGlob pre ++ ascii "*") limit rest addr pos s := by
    rw [scan, if_neg (not_lt.mpr hlimit), parseScanCursor_formatScanCursor (by simp) hpos,
      List.idxOf_append_of_notMem hnot]
    simp
  rw [followScan, hscan]

/-- From a node with a complete cycle left, and complete ones on the nodes after it, the walk
makes exactly their calls and returns exactly their keys. -/
def Walks (pre : Text) (limit : ℤ) (rest : List Text) : Prop :=
  ∀ (before : List Text) (addr : Text) (pos : ℕ) (s : Masters),
    (before ++ addr :: rest).Nodup → Complete (s.left addr) → (∀ n ∈ rest, Complete (s.left n)) →
    ∃ fuel s', finish (followScan (before ++ addr :: rest) pre limit fuel)
        (scanLoop (escapeGlob pre ++ ascii "*") limit rest addr pos s) =
          some (keysOf (s.left addr) ++ rest.flatMap fun n => keysOf (s.left n), s') ∧
      s'.log = s.log ++ (cycle (escapeGlob pre ++ ascii "*") limit addr pos (s.left addr) ++
        rest.flatMap fun n => cycle (escapeGlob pre ++ ascii "*") limit n 0 (s.left n))

theorem Masters.scan_cons {s : Masters} {c : ScanCall} {reply : ScanReply}
    {replies : List ScanReply} (h : s.left c.addr = reply :: replies) :
    ∃ s₁, s.scan c = (some reply, s₁) ∧ s₁.left c.addr = replies ∧
      (∀ n, n ≠ c.addr → s₁.left n = s.left n) ∧ s₁.log = s.log ++ [c] := by
  refine ⟨_, Prod.ext (by simp [scan, h]) rfl, ?_, fun n hn => ?_, rfl⟩
  · simp [scan, h]
  · exact Function.update_of_ne hn _ _

theorem walks_of_tail (hlimit : 1 ≤ limit) {rest : List Text}
    (htail : ∀ addr rest', rest = addr :: rest' → Walks pre limit rest') :
    Walks pre limit rest := by
  intro before addr pos s hnodup hreplies hrest
  generalize hleft : s.left addr = replies at hreplies ⊢
  have hne : ∀ n ∈ rest, n ≠ addr := fun n hn =>
    ne_of_mem_of_not_mem hn (List.nodup_cons.mp (List.nodup_append.mp hnodup).2.1).1
  induction hreplies generalizing pos s with
  | @last reply hlast =>
    obtain ⟨s₁, hscan, -, hkept, hlog⟩ :=
      @Masters.scan_cons s ⟨addr, pos, escapeGlob pre ++ ascii "*", limit⟩ _ _ hleft
    rw [scanLoop.eq_def]
    simp only [hscan, hlast, ne_eq, not_true_eq_false, if_false]
    cases rest with
    | nil => exact ⟨0, s₁, by simp [finish, keysOf], by simp [hlog, cycle]⟩
    | cons next rest =>
      have hnodup' : ((before ++ [addr]) ++ next :: rest).Nodup := by simpa using hnodup
      have hsame : ∀ n ∈ next :: rest, s₁.left n = s.left n := fun n hn => hkept n (hne n hn)
      rw [List.forall_mem_cons] at hsame hrest
      obtain ⟨fuel, s', hfinish, hlog'⟩ := htail next rest rfl _ next 0 s₁ hnodup'
        (hsame.1 ▸ hrest.1) fun n hn => hsame.2 n hn ▸ hrest.2 n hn
      rw [hsame.1, List.flatMap_congr fun n hn => by rw [hsame.2 n hn]] at hfinish hlog'
      have hcalls : s'.log = s.log ++ (cycle (escapeGlob pre ++ ascii "*") limit addr pos [reply] ++
          (next :: rest).flatMap fun n =>
            cycle (escapeGlob pre ++ ascii "*") limit n 0 (s.left n)) := by
        simp [hlog', hlog, cycle]
      rw [← List.append_cons] at hnodup' hfinish
      split_ifs with hkeys
      · refine ⟨fuel, s', ?_, hcalls⟩
        rw [hfinish]
        simp [keysOf, hkeys]
      · refine ⟨fuel + 1, s', ?_, hcalls⟩
        simp only [finish, if_neg (formatScanCursor_ne_nil _ _)]
        rw [List.append_cons, followScan_cursor hlimit (by simpa using hnodup) (by decide),
          ← List.append_cons, hfinish]
        simp [keysOf]
  | @more reply replies hnext hlt _ ih =>
    obtain ⟨s₁, hscan, hown, hkept, hlog⟩ :=
      @Masters.scan_cons s ⟨addr, pos, escapeGlob pre ++ ascii "*", limit⟩ _ _ hleft
    have hsame : ∀ n ∈ rest, s₁.left n = s.left n := fun n hn => hkept n (hne n hn)
    obtain ⟨fuel, s', hfinish, hlog'⟩ := ih reply.next s₁ (fun n hn => hsame n hn ▸ hrest n hn) hown
    rw [List.flatMap_congr fun n hn => by rw [hsame n hn]] at hfinish hlog'
    refine ⟨fuel + 1, s', ?_, by simp [hlog', hlog, cycle]⟩
    rw [scanLoop.eq_def]
    simp only [hscan, if_pos hnext, finish, if_neg (formatScanCursor_ne_nil _ _)]
    rw [followScan_cursor hlimit hnodup hlt, hfinish]
    simp [keysOf]

theorem walks (hlimit : 1 ≤ limit) (rest : List Text) : Walks pre limit rest := by
  induction rest with
  | nil => exact walks_of_tail hlimit nofun
  | cons addr rest ih =>
    refine walks_of_tail hlimit ?_
    rintro _ _ ⟨⟩
    exact ih

/-- A walk reads every node once, in one complete cycle, and returns what it read; its cursors
name their node and position, and its pattern selects the prefix. -/
theorem walk_covers_nodes (masters : List Text) (hnodup : masters.Nodup) (hne : masters ≠ [])
    (pre : Text) (limit : ℤ) (hlimit : 1 ≤ limit) (s : Masters)
    (hcycles : ∀ n ∈ masters, Complete (s.left n)) (globMatch : Text → Text → Prop)
    (hglob : Globs globMatch) :
    let nodes := masters.insertionSort (· ≤ ·)
    let pattern := escapeGlob pre ++ ascii "*"
    (∃ fuel s', followScan nodes pre limit fuel [] s =
        some (nodes.flatMap fun n => keysOf (s.left n), s') ∧
      s'.log = s.log ++ nodes.flatMap fun n => cycle pattern limit n 0 (s.left n)) ∧
    (∀ n ∈ nodes, ∀ pos < 2 ^ 64,
      parseScanCursor (formatScanCursor n pos) nodes = .ok (nodes.idxOf n, pos)) ∧
    ∀ k, globMatch pattern k ↔ pre <+: k := by
  intro nodes pattern
  have hperm : nodes.Perm masters := List.perm_insertionSort _ _
  refine ⟨?_, fun n hn pos hpos => parseScanCursor_formatScanCursor hn hpos, hglob.matches_iff pre⟩
  obtain ⟨addr, rest, hnodes⟩ : ∃ addr rest, nodes = addr :: rest :=
    List.exists_cons_of_ne_nil fun hnil => hne (List.nil_perm.mp (hnil ▸ hperm))
  rw [← hperm.nodup_iff, hnodes] at hnodup
  simp only [← hperm.mem_iff, hnodes, List.forall_mem_cons] at hcycles
  obtain ⟨fuel, s', hfinish, hlog⟩ := walks hlimit rest [] addr 0 s hnodup hcycles.1 hcycles.2
  refine ⟨fuel + 1, s', ?_, by simpa [hnodes] using hlog⟩
  have hscan : scan nodes pre [] limit s = scanLoop pattern limit rest addr 0 s := by
    rw [scan, if_neg (not_lt.mpr hlimit), parseScanCursor, if_pos rfl]
    simp [hnodes, pattern]
  rw [List.nil_append, ← hnodes] at hfinish
  rw [followScan, hscan]
  exact hfinish.trans (by simp [hnodes])

inductive SampleGlob : Text → Text → Prop
  | nil : SampleGlob [] []
  | star (k : Text) : SampleGlob (ascii "*") k
  | escaped {b : Byte} {pat k : Text} : SampleGlob pat k →
    SampleGlob (byte '\\' :: b :: pat) (b :: k)
  | literal {b : Byte} {pat k : Text} : b ∉ ascii "\\*?[]" → SampleGlob pat k →
    SampleGlob (b :: pat) (b :: k)

theorem sampleGlob_globs : Globs SampleGlob where
  star := .star
  escaped b pat k := by
    refine ⟨fun h => ?_, fun ⟨rest, hk, h⟩ => hk ▸ .escaped h⟩
    cases h with
    | escaped h => exact ⟨_, rfl, h⟩
    | literal hb _ => exact absurd hb (by decide)
  literal b pat k hb := by
    refine ⟨fun h => ?_, fun ⟨rest, hk, h⟩ => hk ▸ .literal hb h⟩
    generalize hpat : b :: pat = whole at h
    cases h with
    | nil => cases hpat
    | star => exact absurd (List.cons.inj hpat).1 (fun h => hb (by rw [h]; decide))
    | escaped _ => exact absurd (List.cons.inj hpat).1 (fun h => hb (by rw [h]; decide))
    | literal _ h =>
      obtain ⟨rfl, rfl⟩ := List.cons.inj hpat
      exact ⟨_, rfl, h⟩

def sampleMasters : Masters where
  left n := if n = ascii "n1" then [⟨[ascii "rl:b", ascii "rl:a"], 5⟩, ⟨[], 0⟩] else [⟨[], 0⟩]
  log := []

theorem walk_covers_two : ∃ fuel s',
    followScan [ascii "n1", ascii "n2"] (ascii "rl:") 10 fuel [] sampleMasters =
      some ([ascii "rl:a", ascii "rl:b"], s') ∧
    s'.log.map (fun c => (c.addr, c.pos)) = [(ascii "n1", 0), (ascii "n1", 5), (ascii "n2", 0)] := by
  have hcycles : ∀ n ∈ [ascii "n2", ascii "n1"], Complete (sampleMasters.left n) := by
    simp only [List.forall_mem_cons]
    exact ⟨.last rfl, .more (by decide) (by decide) (.last rfl), nofun⟩
  obtain ⟨fuel, s', hwalk, hlog⟩ := (walk_covers_nodes [ascii "n2", ascii "n1"] (by decide)
    (by decide) (ascii "rl:") 10 (by decide) sampleMasters hcycles SampleGlob sampleGlob_globs).1
  have hsort : [ascii "n2", ascii "n1"].insertionSort (· ≤ ·) = [ascii "n1", ascii "n2"] := by
    decide +kernel
  rw [hsort] at hwalk hlog
  refine ⟨fuel, s', hwalk.trans ?_, ?_⟩
  · rw [show ([ascii "n1", ascii "n2"].flatMap fun n => keysOf (sampleMasters.left n)) =
      [ascii "rl:a", ascii "rl:b"] by decide +kernel]
  · rw [hlog]
    decide +kernel

end Walks

end Ratelimit.Redis
