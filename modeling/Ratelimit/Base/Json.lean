import Ratelimit.Base.Utf8
import Ratelimit.Library.Delimited

/-!
# Documents and the texts they are written as

`encoding/json` writes a text rune by rune, and a byte that belongs to no rune as the
replacement character. So a written document determines its texts once they are coerced.
-/
namespace Ratelimit

open Library Utf8

/-- A document: the fields of a struct are in their order, those of a map in key order. -/
inductive Json where
  | string (t : Text)
  | number (n : ℤ)
  | bool (b : Bool)
  | array (items : List Json)
  | object (fields : List (Text × Json))

namespace Json

section Strings

def lowerHex (n : ℕ) : Byte :=
  if n < 10 then byte '0' + Fin.ofNat 256 n else byte 'a' + Fin.ofNat 256 (n - 10)

def escapeAscii (b : Byte) : Text :=
  if b = byte '\\' ∨ b = byte '"' then [byte '\\', b]
  else if b = 0x08 then ascii "\\b"
  else if b = 0x0C then ascii "\\f"
  else if b = 0x0A then ascii "\\n"
  else if b = 0x0D then ascii "\\r"
  else if b = 0x09 then ascii "\\t"
  else if b < 0x20 ∨ b ∈ ascii "<>&" then
    ascii "\\u00" ++ [lowerHex (b.val / 16), lowerHex (b.val % 16)]
  else [b]

def lineSeparator : Text := [0xE2, 0x80, 0xA8]

def paragraphSeparator : Text := [0xE2, 0x80, 0xA9]

def appendRune (r : Rune) : Text :=
  match r.bytes with
  | [b] => escapeAscii b
  | bytes =>
    if bytes = lineSeparator then ascii "\\u2028"
    else if bytes = paragraphSeparator then ascii "\\u2029"
    else bytes

def appendRunes (rs : List Rune) : Text := byte '"' :: rs.flatMap appendRune ++ [byte '"']

def appendString (t : Text) : Text := appendRunes (coercedRunes t)

def asciiWords : List (Text × Text) :=
  (lineSeparator, ascii "\\u2028") :: (paragraphSeparator, ascii "\\u2029") ::
    (List.range 128).map fun n => ([Fin.ofNat 256 n], escapeAscii (Fin.ofNat 256 n))

/-- A safe character is its own word, and every other word begins with a backslash. -/
theorem asciiWords_cases : ∀ p ∈ asciiWords, p.2.head? = some (byte '\\') ∨
    p.2.length = 1 ∧ p.1 = p.2 := by
  decide +kernel

theorem escapedWords_prefixFree :
    let escaped := asciiWords.filter fun p => p.2.head? = some (byte '\\')
    ∀ p ∈ escaped, ∀ p' ∈ escaped, p.2 <+: p'.2 → p.1 = p'.1 := by
  decide +kernel

theorem asciiWords_prefixFree {p p' : Text × Text} (hp : p ∈ asciiWords) (hp' : p' ∈ asciiWords)
    (h : p.2 <+: p'.2) : p.1 = p'.1 := by
  have hne : p.2 ≠ [] := by
    intro hnil
    rcases asciiWords_cases p hp with hhead | ⟨hlength, -⟩
    · simp [hnil] at hhead
    · simp [hnil] at hlength
  have hhead : p'.2.head? = p.2.head? := by
    obtain ⟨rest, hrest⟩ := h
    rw [← hrest, List.head?_append_of_ne_nil _ hne]
  by_cases hescaped : p.2.head? = some (byte '\\')
  · refine escapedWords_prefixFree p ?_ p' ?_ h
    · exact List.mem_filter.mpr ⟨hp, decide_eq_true hescaped⟩
    · exact List.mem_filter.mpr ⟨hp', decide_eq_true (hhead.trans hescaped)⟩
  · obtain ⟨hlength, hsafe⟩ := (asciiWords_cases p hp).resolve_left hescaped
    obtain ⟨hlength', hsafe'⟩ := (asciiWords_cases p' hp').resolve_left (hhead ▸ hescaped)
    rw [hsafe, hsafe', h.eq_of_length (hlength.trans hlength'.symm)]

theorem asciiWords_head : ∀ p ∈ asciiWords, ∃ a rest, p.2 = a :: rest ∧ a < 0x80 ∧ a ≠ byte '"' := by
  have hheads : ∀ p ∈ asciiWords, ((p.2.head?.map fun a => decide (a < 0x80 ∧ a ≠ byte '"')).getD
      false) = true := by
    decide +kernel
  intro p hp
  have hhead := hheads p hp
  cases hword : p.2 with
  | nil => simp [hword] at hhead
  | cons a rest => exact ⟨a, rest, rfl, by simpa [hword] using hhead⟩

theorem appendRune_cases (r : Rune) : (r.bytes, appendRune r) ∈ asciiWords ∨
    appendRune r = r.bytes ∧ ∃ a rest, r.bytes = a :: rest ∧ 0xC2 ≤ a := by
  obtain ⟨a, rest, hbytes, hfirst, hlength⟩ := r.length_eq
  by_cases hone : rest = []
  · subst hone
    have ha : a < 0x80 := by
      refine hfirst.resolve_right fun hlarge => ?_
      have hlow : ¬a < 0x80 := not_lt.mpr ((by decide : (0x80 : Byte) ≤ 0xC2).trans hlarge)
      rw [hbytes] at hlength
      simp only [runeLength, hlow, if_false, List.length_singleton] at hlength
      split_ifs at hlength <;> omega
    left
    have hword : appendRune r = escapeAscii a := by simp [appendRune, hbytes]
    rw [hword, hbytes]
    refine List.mem_cons_of_mem _ (List.mem_cons_of_mem _ (List.mem_map.mpr ⟨a.val, ?_, ?_⟩))
    · exact List.mem_range.mpr ha
    · rw [Fin.ofNat_val_eq_self]
  · have hword : appendRune r = if r.bytes = lineSeparator then ascii "\\u2028"
        else if r.bytes = paragraphSeparator then ascii "\\u2029" else r.bytes := by
      obtain ⟨b, rest, rfl⟩ := List.exists_cons_of_ne_nil hone
      simp [appendRune, hbytes]
    rw [hword]
    split_ifs with hline hparagraph
    · left
      rw [hline]
      exact List.mem_cons_self
    · left
      rw [hparagraph]
      exact List.mem_cons_of_mem _ List.mem_cons_self
    · refine Or.inr ⟨rfl, a, rest, hbytes, hfirst.resolve_left fun hlow => hone ?_⟩
      rw [hbytes] at hlength
      simpa [runeLength, hlow] using hlength

theorem appendRune_head (r : Rune) : ∃ a rest, appendRune r = a :: rest ∧ a ≠ byte '"' := by
  rcases appendRune_cases r with hword | ⟨hraw, a, rest, hbytes, hlarge⟩
  · obtain ⟨a, rest, heq, -, hne⟩ := asciiWords_head _ hword
    exact ⟨a, rest, heq, hne⟩
  · refine ⟨a, rest, hraw.trans hbytes, ?_⟩
    rintro rfl
    exact absurd hlarge (by decide)

theorem appendRune_prefixFree (r s : Rune) (h : appendRune r <+: appendRune s) : r = s := by
  have hmixed : ∀ {p : Text × Text} {t : Text}, p ∈ asciiWords →
      (∃ a rest, t = a :: rest ∧ 0xC2 ≤ a) → ¬p.2 <+: t ∧ ¬t <+: p.2 := by
    rintro p t hp ⟨a, rest, rfl, hlarge⟩
    obtain ⟨b, tail, heq, hsmall, -⟩ := asciiWords_head p hp
    have hne : b ≠ a := (hsmall.trans_le ((by decide : (0x80 : Byte) ≤ 0xC2).trans hlarge)).ne
    rw [heq]
    exact ⟨fun hle => hne (List.cons_prefix_cons.mp hle).1,
      fun hle => hne (List.cons_prefix_cons.mp hle).1.symm⟩
  rcases appendRune_cases r with hr | ⟨hr, hfirst⟩ <;>
    rcases appendRune_cases s with hs | ⟨hs, hfirst'⟩
  · exact Rune.ext (asciiWords_prefixFree hr hs h)
  · rw [hs] at h
    exact absurd h (hmixed hr hfirst').1
  · rw [hr] at h
    exact absurd h (hmixed hs hfirst).2
  · rw [hr, hs] at h
    exact Rune.eq_of_begins h

theorem appendRunes_append_inj {rs rs' : List Rune} {t t' : Text}
    (h : appendRunes rs ++ t = appendRunes rs' ++ t') : rs = rs' ∧ t = t' := by
  simp only [appendRunes, List.cons_append, List.append_assoc, List.nil_append, List.cons.injEq,
    true_and] at h
  exact flatMap_sep_inj appendRune_head appendRune_prefixFree h

theorem appendString_eq_iff {t t' : Text} :
    appendString t = appendString t' ↔ coercedRunes t = coercedRunes t' := by
  refine ⟨fun h => ?_, fun h => by rw [appendString, h, appendString]⟩
  have happend : appendString t ++ [] = appendString t' ++ [] := by rw [h]
  exact (appendRunes_append_inj happend).1

theorem appendString_append_eq_iff {t t' r r' : Text} :
    appendString t ++ r = appendString t' ++ r' ↔ appendString t = appendString t' ∧ r = r' := by
  refine ⟨fun h => ?_, fun ⟨ht, hr⟩ => by rw [ht, hr]⟩
  exact (appendRunes_append_inj h).imp_left appendString_eq_iff.mpr

end Strings

section Documents

mutual

def marshal : Json → Text
  | .string t => appendString t
  | .number n => Strconv.formatInt n
  | .bool b => if b then ascii "true" else ascii "false"
  | .array [] => ascii "[]"
  | .array (j :: js) => byte '[' :: marshal j ++ marshalItems js
  | .object [] => ascii "\x7b\x7d"
  | .object ((k, j) :: fs) => byte '\x7b' :: appendString k ++ byte ':' :: marshal j ++ marshalFields fs

/-- The further items of an array and its end. -/
def marshalItems : List Json → Text
  | [] => ascii "]"
  | j :: js => byte ',' :: marshal j ++ marshalItems js

def marshalFields : List (Text × Json) → Text
  | [] => ascii "\x7d"
  | (k, j) :: fs => byte ',' :: appendString k ++ byte ':' :: marshal j ++ marshalFields fs

end

mutual

/-- The document with every text as it is written. -/
def written : Json → Json
  | .string t => .string (appendString t)
  | .number n => .number n
  | .bool b => .bool b
  | .array items => .array (writtenItems items)
  | .object fields => .object (writtenFields fields)

def writtenItems : List Json → List Json
  | [] => []
  | j :: js => written j :: writtenItems js

def writtenFields : List (Text × Json) → List (Text × Json)
  | [] => []
  | (k, j) :: fs => (appendString k, written j) :: writtenFields fs

end

theorem writtenItems_eq_map (js : List Json) : writtenItems js = js.map written := by
  induction js with
  | nil => rfl
  | cons j js ih => rw [writtenItems, ih, List.map_cons]

theorem writtenFields_eq_map (fs : List (Text × Json)) :
    writtenFields fs = fs.map fun f => (appendString f.1, written f.2) := by
  induction fs with
  | nil => rfl
  | cons f fs ih => rw [writtenFields, ih, List.map_cons]

/-- Over a document, the items of an array and the fields of an object. -/
theorem induction {P : Json → Prop} {Q : List Json → Prop} {R : List (Text × Json) → Prop}
    (string : ∀ t, P (.string t)) (number : ∀ n, P (.number n)) (bool : ∀ b, P (.bool b))
    (array : ∀ items, Q items → P (.array items)) (object : ∀ fields, R fields → P (.object fields))
    (noItems : Q []) (item : ∀ j js, P j → Q js → Q (j :: js)) (noFields : R [])
    (field : ∀ k j fs, P j → R fs → R ((k, j) :: fs)) (j : Json) : P j :=
  @Json.rec P Q R (fun f => P f.2) string number bool array object noItems item noFields
    (fun f fs hf hfs => field f.1 f.2 fs hf hfs) (fun _ _ hj => hj) j

/-- The kind of a document, by the first byte of its text. -/
def kindOf (c : Byte) : ℕ :=
  if c = byte '"' then 0 else if c = byte 't' ∨ c = byte 'f' then 1 else if c = byte '[' then 2
  else if c = byte '\x7b' then 3 else 4

def kind : Json → ℕ
  | .string _ => 0
  | .bool _ => 1
  | .array _ => 2
  | .object _ => 3
  | .number _ => 4

theorem marshal_head (j : Json) : ∃ c rest, marshal j = c :: rest ∧ kindOf c = j.kind ∧ c ≠ byte ']' := by
  cases j with
  | string t => exact ⟨byte '"', _, rfl, rfl, by decide⟩
  | bool b =>
    cases b
    · exact ⟨byte 'f', ascii "alse", rfl, by decide, by decide⟩
    · exact ⟨byte 't', ascii "rue", rfl, by decide, by decide⟩
  | array items =>
    refine ⟨byte '[', ?_⟩
    cases items
    · exact ⟨ascii "]", rfl, by decide, by decide⟩
    · exact ⟨_, rfl, rfl, by decide⟩
  | object fields =>
    refine ⟨byte '\x7b', ?_⟩
    cases fields
    · exact ⟨ascii "\x7d", rfl, by decide, by decide⟩
    · exact ⟨_, rfl, rfl, by decide⟩
  | number n =>
    have hdigits : ∀ c : Byte, Strconv.isDigit c = true ∨ c = byte '-' →
        kindOf c = 4 ∧ c ≠ byte ']' := by
      decide +kernel
    cases hn : Strconv.formatInt n with
    | nil => exact absurd hn (Strconv.formatInt_ne_nil n)
    | cons c rest =>
      obtain ⟨hkind, hne⟩ := hdigits c (Strconv.mem_formatInt (hn ▸ List.mem_cons_self))
      exact ⟨c, rest, hn, hkind, hne⟩

/-- What may follow an item or the value of a field. -/
def Stops (r : Text) : Prop := ∀ c ∈ r.head?, c ∈ [byte ',', byte ']', byte '\x7d']

theorem stops_marshalItems (js : List Json) (r : Text) : Stops (marshalItems js ++ r) := by
  cases js <;> simp [Stops, marshalItems, ascii]

theorem stops_marshalFields (fs : List (Text × Json)) (r : Text) : Stops (marshalFields fs ++ r) := by
  cases fs <;> simp [Stops, marshalFields, ascii]

theorem formatInt_append_inj {n n' : ℤ} {r r' : Text} (hr : Stops r) (hr' : Stops r')
    (h : Strconv.formatInt n ++ r = Strconv.formatInt n' ++ r') : n = n' ∧ r = r' := by
  have hread : ∀ (n : ℤ) {r : Text}, Stops r →
      (Strconv.formatInt n ++ r).takeWhile (fun c => Strconv.isDigit c || c == byte '-') =
        Strconv.formatInt n := by
    intro n r hr
    have hall : ∀ c ∈ Strconv.formatInt n, (Strconv.isDigit c || c == byte '-') = true := by
      intro c hc
      simpa using Strconv.mem_formatInt hc
    rw [List.takeWhile_append_of_pos hall]
    have hnone : r.takeWhile (fun c => Strconv.isDigit c || c == byte '-') = [] := by
      cases r with
      | nil => rfl
      | cons c r =>
        have hstop := hr c rfl
        have hbad : ∀ c ∈ [byte ',', byte ']', byte '\x7d'],
            (Strconv.isDigit c || c == byte '-') = false := by
          decide +kernel
        rw [List.takeWhile_cons_of_neg (by simp [hbad c hstop])]
    rw [hnone, List.append_nil]
  have hn := congrArg (List.takeWhile fun c => Strconv.isDigit c || c == byte '-') h
  rw [hread n hr, hread n' hr'] at hn
  rw [hn] at h
  exact ⟨Strconv.formatInt_injective hn, List.append_cancel_left h⟩

theorem kind_eq_of_append {j j' : Json} {r r' : Text} (h : marshal j ++ r = marshal j' ++ r') :
    j.kind = j'.kind := by
  obtain ⟨c, rest, hc, hkind, -⟩ := marshal_head j
  obtain ⟨c', rest', hc', hkind', -⟩ := marshal_head j'
  rw [hc, hc'] at h
  rw [← hkind, ← hkind', (List.cons.inj h).1]

/-- An array or an object, from its items each after a comma and the end. -/
def opened (start stop : Byte) (t : Text) : Text :=
  if t = [stop] then [start, stop] else start :: t.tail

def Continues (stop : Byte) (t : Text) : Prop :=
  t = [stop] ∨ ∃ c rest, t = byte ',' :: c :: rest ∧ c ≠ stop

theorem marshal_array (js : List Json) :
    marshal (.array js) = opened (byte '[') (byte ']') (marshalItems js) := by
  cases js with
  | nil => rfl
  | cons j js =>
    have hcomma : byte ',' ≠ byte ']' := by decide
    simp [opened, marshal, marshalItems, hcomma]

theorem marshal_object (fs : List (Text × Json)) :
    marshal (.object fs) = opened (byte '\x7b') (byte '\x7d') (marshalFields fs) := by
  cases fs with
  | nil => rfl
  | cons f fs =>
    have hcomma : byte ',' ≠ byte '\x7d' := by decide
    simp [opened, marshal, marshalFields, hcomma]

theorem marshalItems_continues (js : List Json) : Continues (byte ']') (marshalItems js) := by
  cases js with
  | nil => exact Or.inl rfl
  | cons j js =>
    obtain ⟨c, rest, hc, -, hne⟩ := marshal_head j
    exact Or.inr ⟨c, rest ++ marshalItems js, by rw [marshalItems, hc]; rfl, hne⟩

theorem marshalFields_continues (fs : List (Text × Json)) :
    Continues (byte '\x7d') (marshalFields fs) := by
  cases fs with
  | nil => exact Or.inl rfl
  | cons f fs => exact Or.inr ⟨byte '"', _, rfl, by decide⟩

theorem opened_append_eq_iff {start stop : Byte} {t t' r r' : Text} (hstop : byte ',' ≠ stop)
    (ht : Continues stop t) (ht' : Continues stop t') :
    opened start stop t ++ r = opened start stop t' ++ r' ↔ t ++ r = t' ++ r' := by
  rcases ht with rfl | ⟨c, rest, rfl, hc⟩ <;> rcases ht' with rfl | ⟨c', rest', rfl, hc'⟩ <;>
    simp [opened, Ne.symm, *]

theorem kind_written (j : Json) : (written j).kind = j.kind := by
  cases j <;> rfl

theorem append_eq_iff_of_kind_ne {j j' : Json} {r r' : Text} (h : j.kind ≠ j'.kind) :
    marshal j ++ r = marshal j' ++ r' ↔ written j = written j' ∧ r = r' := by
  refine iff_of_false (fun heq => h (kind_eq_of_append heq)) fun heq => h ?_
  rw [← kind_written j, heq.1, kind_written]

/-- A written document tells what was written of it, and where it ends. -/
theorem marshal_append_eq_iff (j : Json) : ∀ (j' : Json) (r r' : Text), Stops r → Stops r' →
    (marshal j ++ r = marshal j' ++ r' ↔ written j = written j' ∧ r = r') := by
  have hbracket : byte ',' ≠ byte ']' := by decide
  have hbrace : byte ',' ≠ byte '\x7d' := by decide
  have htrue : byte 't' ≠ byte 'f' := by decide
  -- a further item follows a comma, the first one a bracket: the same otherwise
  refine Json.induction
    (P := fun j => ∀ (j' : Json) (r r' : Text), Stops r → Stops r' →
      (marshal j ++ r = marshal j' ++ r' ↔ written j = written j' ∧ r = r'))
    (Q := fun js => ∀ (js' : List Json) (r r' : Text),
      marshalItems js ++ r = marshalItems js' ++ r' ↔ writtenItems js = writtenItems js' ∧ r = r')
    (R := fun fs => ∀ (fs' : List (Text × Json)) (r r' : Text),
      marshalFields fs ++ r = marshalFields fs' ++ r' ↔
        writtenFields fs = writtenFields fs' ∧ r = r')
    ?_ ?_ ?_ ?_ ?_ ?_ ?_ ?_ ?_ j
  · intro t j' r r' _ _
    cases j' with
    | string t' =>
      simp only [marshal, written, Json.string.injEq, appendString_append_eq_iff]
    | _ => exact append_eq_iff_of_kind_ne (by simp [kind])
  · intro n j' r r' hr hr'
    cases j' with
    | number n' =>
      simp only [marshal, written, Json.number.injEq]
      exact ⟨formatInt_append_inj hr hr', by rintro ⟨rfl, rfl⟩; rfl⟩
    | _ => exact append_eq_iff_of_kind_ne (by simp [kind])
  · intro b j' r r' _ _
    cases j' with
    | bool b' => cases b <;> cases b' <;> simp [marshal, written, ascii, htrue, htrue.symm]
    | _ => exact append_eq_iff_of_kind_ne (by simp [kind])
  · intro items ih j' r r' hr hr'
    cases j' with
    | array items' =>
      rw [marshal_array, marshal_array, written, written, Json.array.injEq, ← ih,
        opened_append_eq_iff (by decide) (marshalItems_continues _) (marshalItems_continues _)]
    | _ => exact append_eq_iff_of_kind_ne (by simp [kind])
  · intro fields ih j' r r' hr hr'
    cases j' with
    | object fields' =>
      rw [marshal_object, marshal_object, written, written, Json.object.injEq, ← ih,
        opened_append_eq_iff (by decide) (marshalFields_continues _) (marshalFields_continues _)]
    | _ => exact append_eq_iff_of_kind_ne (by simp [kind])
  · intro js' r r'
    cases js' with
    | nil => simp [marshalItems, writtenItems]
    | cons j' js' => simp [marshalItems, writtenItems, ascii, hbracket.symm]
  · intro j js hj hjs js' r r'
    cases js' with
    | nil => simp [marshalItems, writtenItems, ascii, hbracket]
    | cons j' js' =>
      simp only [marshalItems, writtenItems, List.cons_append, List.append_assoc, List.cons.injEq,
        true_and, hj j' _ _ (stops_marshalItems _ _) (stops_marshalItems _ _), hjs, and_assoc]
  · intro fs' r r'
    cases fs' with
    | nil => simp [marshalFields, writtenFields]
    | cons f' fs' => simp [marshalFields, writtenFields, ascii, hbrace.symm]
  · intro k j fs hj hfs fs' r r'
    cases fs' with
    | nil => simp [marshalFields, writtenFields, ascii, hbrace]
    | cons f' fs' =>
      simp only [marshalFields, writtenFields, List.cons_append, List.append_assoc,
        List.cons.injEq, true_and, Prod.mk.injEq, and_assoc, appendString_append_eq_iff,
        hj f'.2 _ _ (stops_marshalFields _ _) (stops_marshalFields _ _), hfs]

theorem marshal_eq_iff {j j' : Json} : marshal j = marshal j' ↔ written j = written j' := by
  have hnil : Stops [] := by simp [Stops]
  simpa using marshal_append_eq_iff j j' [] [] hnil hnil

end Documents

end Json

end Ratelimit
