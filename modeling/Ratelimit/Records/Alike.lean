import Ratelimit.Records.Memory
import Ratelimit.Records.Tokens

/-!
# The two command stores, call by call

`Alike` relates the two stores at a moment: what has not expired is the same, and behind every
held lease stands the open record of its holder. The process asks for that record in a batch
and in a commit and the scripts do not; this is what makes them agree.
-/
namespace Ratelimit.Records

open Library Store Memory

/-- The calls of the `Store` interface. -/
inductive StoreCall where
  | lookup (keys : Keys)
  | accept (a : Acceptance)
  | batch (b : Batch)
  | commit (c : Commit)
  | finalize (f : Finalize)
  | reset (r : Addressed)
  | put (key : Text) (value : TokenDocument) (ttl : ℕ)
  | get (key : Text)

/-- What a call returns; `none` is an error other than the loss of the lease. -/
inductive StoreAnswer where
  | record (r : Option Record)
  | accepted (a : Option Accepted)
  | written (v : Option WriteVerdict)
  | addressed (o : Option AddressedOutcome)
  | stored (done : Option Unit)
  | document (d : Option (Option TokenDocument))
  deriving DecidableEq

structure TimedCall where
  now : ℕ
  call : StoreCall

def Mem.call (now : ℕ) (m : Mem) : StoreCall → Mem × StoreAnswer
  | .lookup keys => ((m.read now keys).1, .record (some (m.read now keys).2))
  | .accept a => ((m.accept now a).1, .accepted (some (m.accept now a).2))
  | .batch b => ((m.batch now b).1, .written (some (m.batch now b).2))
  | .commit c => ((m.commit now c).1, .written (some (m.commit now c).2))
  | .finalize f => ((m.finalize now f).1, .record (some (m.finalize now f).2))
  | .reset r => ((m.reset now r).1, .addressed (m.reset now r).2)
  | .put key value ttl => (m.put now key value ttl, .stored (some ()))
  | .get key => (m, .document (some (m.get now key)))

def Mem.step (m : Mem) (c : TimedCall) : Mem × StoreAnswer := m.call c.now c.call

/-- A call as the client of the shared store makes it. -/
def request : StoreCall → Client StoreAnswer
  | .lookup keys => do return .record (← lookup keys)
  | .accept a => do return .accepted (← accept a)
  | .batch b => do return .written (← Prog.ask (Req.batch b))
  | .commit c => do return .written (← Prog.ask (Req.commit c))
  | .finalize f => do return .record (← finalize f)
  | .reset r => do return .addressed (← reset r)
  | .put key value ttl => do return .stored (← Prog.ask (Req.put key value ttl))
  | .get key => do return .document (← Prog.ask (Req.get key))

/-- The calls make no request that leaves anything open. -/
def unasked : Oracle := ⟨([], []), 0⟩

/-- A call alone: time passes up to its moment, keys expire, and it runs. -/
def redisStep (db : Db) (c : TimedCall) : Db × Option StoreAnswer :=
  redis.alone unasked (elapse db (c.now - db.now)) (request c.call)

/-- How the service names things: the record of a fencing token, the lease of a
record's domain, and which records are of bulk commands. -/
structure Naming where
  record : Text → Text
  lease : Text → Text
  bulk : Text → Bool

/-- A call that keeps to the naming. Lease and token times are positive, and no
lease outlives a record accepted with it. -/
def Follows (n : Naming) : StoreCall → Prop
  | .lookup _ => True
  | .accept a => n.bulk a.keys.record = true ∧ a.keys.record = n.record a.fencing ∧
      a.keys.lease = n.lease a.keys.record ∧ 1 ≤ a.leaseTTL ∧ a.leaseTTL ≤ retention
  | .batch b => b.keys.record = n.record b.fencing
  | .commit c => c.keys.record = n.record c.fencing
  | .finalize f => f.keys.lease = n.lease f.keys.record
  | .reset r => n.bulk r.record = false ∧ [] ∉ r.delete ∧ (r.dryRun = false → r.delete.Nodup)
  | .put _ _ ttl => 1 ≤ ttl
  | .get _ => True

instance decidableFollows (n : Naming) : (c : StoreCall) → Decidable (Follows n c)
  | .lookup _ => inferInstanceAs (Decidable True)
  | .accept a => inferInstanceAs (Decidable (n.bulk a.keys.record = true ∧
      a.keys.record = n.record a.fencing ∧ a.keys.lease = n.lease a.keys.record ∧
      1 ≤ a.leaseTTL ∧ a.leaseTTL ≤ retention))
  | .batch b => inferInstanceAs (Decidable (b.keys.record = n.record b.fencing))
  | .commit c => inferInstanceAs (Decidable (c.keys.record = n.record c.fencing))
  | .finalize f => inferInstanceAs (Decidable (f.keys.lease = n.lease f.keys.record))
  | .reset r => inferInstanceAs (Decidable (n.bulk r.record = false ∧ [] ∉ r.delete ∧
      (r.dryRun = false → r.delete.Nodup)))
  | .put _ _ ttl => inferInstanceAs (Decidable (1 ≤ ttl))
  | .get _ => inferInstanceAs (Decidable True)

/-- The hash under a record key is the record of the process. -/
structure Shows (n : Naming) (k : Text) (e : MemEntry) (b : Binding) : Prop where
  expires : b.expires = some e.expiresAt
  command : b.fields.command = some e.command
  shown : recordOf (some b.fields) = Mem.shown e
  unfinished : e.terminal = false → b.fields.outcome = none ∧ b.fields.count = none
  counted : n.bulk k = false → b.fields.count = some e.progress.reset

/-- Behind the lease stands the open record of its holder, which outlives it. -/
def Guarded (n : Naming) (now : ℕ) (m : Mem) (L : Text) (l : Lease) : Prop :=
  n.lease (n.record l.holder) = L ∧
    ∃ e, m.entry now (n.record l.holder) = some e ∧ e.terminal = false ∧ l.expires ≤ e.expiresAt

structure Alike (n : Naming) (now : ℕ) (m : Mem) (db : Db) : Prop where
  clock : db.now = now
  counters : AgreeOn Set.univ now m.counters db.counters
  tokens : ∀ k, db.tokens.lookup k = m.document now k
  leases : ∀ L, db.leases.lookup L = m.lease now L
  records : ∀ k, Option.Rel (Shows n k) (m.entry now k) (db.records.lookup k)
  whole : ∀ L l, m.lease now L = some l → 1000 ∣ l.expires
  guarded : ∀ L l, m.lease now L = some l → Guarded n now m L l

section Time

variable {n : Naming} {now now' : ℕ} {m : Mem} {db : Db} {k : Text}

theorem filter_later {α : Type} (deadline : α → ℕ) (hle : now ≤ now') (o : Option α) :
    (if expired now' ((o.filter fun x => now < deadline x).map deadline) then none
      else o.filter fun x => now < deadline x) = o.filter fun x => now' < deadline x := by
  cases o with
  | none => simp [expired]
  | some x =>
    by_cases hlate : now' < deadline x
    · have hnow : now < deadline x := by omega
      simp [Option.filter, expired, hlate, hnow]
    · by_cases hnow : now < deadline x <;> simp [Option.filter, expired, hlate, hnow]

theorem lookup_elapse_tokens (d : ℕ) :
    (elapse db d).tokens.lookup k =
      if expired (db.now + d) ((db.tokens.lookup k).map Token.expires) then none
      else db.tokens.lookup k := lookup_eraseWhere _ _

theorem lease_earlier {L : Text} {l : Lease} (hle : now ≤ now') (h : m.lease now' L = some l) :
    m.lease now L = some l ∧ now' < l.expires := by
  unfold Mem.lease at h ⊢
  rw [Option.filter_eq_some_iff, decide_eq_true_eq] at h
  refine ⟨?_, h.2⟩
  rw [Option.filter_eq_some_iff, decide_eq_true_eq]
  exact ⟨h.1, by omega⟩

theorem entry_later {e : MemEntry} (h : m.entry now k = some e) (hlive : now' < e.expiresAt) :
    m.entry now' k = some e := by
  unfold Mem.entry at h ⊢
  rw [Option.filter_eq_some_iff] at h ⊢
  exact ⟨h.1, by simpa using hlive⟩

theorem entry_filter (hle : now ≤ now') :
    m.entry now' k = (m.entry now k).filter fun e => now' < e.expiresAt := by
  unfold Mem.entry
  cases m.records.lookup k with
  | none => rfl
  | some e =>
    by_cases hlate : now' < e.expiresAt
    · have hnow : now < e.expiresAt := by omega
      simp [Option.filter, hlate, hnow]
    · by_cases hnow : now < e.expiresAt <;> simp [Option.filter, hlate, hnow]

theorem Alike.records_later (h : Alike n now m db) (hle : now ≤ now') :
    Option.Rel (Shows n k) (m.entry now' k) ((elapse db (now' - now)).records.lookup k) := by
  have hnow : db.now + (now' - now) = now' := by
    rw [h.clock]
    omega
  have hrel := h.records k
  rw [lookup_elapse_records, hnow, entry_filter hle]
  generalize m.entry now k = held at hrel ⊢
  generalize db.records.lookup k = bound at hrel ⊢
  cases hrel with
  | none => exact Option.Rel.none
  | @some e b hshows =>
    rw [Option.bind_some, hshows.expires]
    by_cases hlive : now' < e.expiresAt
    · have hkept : ¬e.expiresAt ≤ now' := by omega
      simp [Option.filter, expired, hlive, hkept, hshows]
    · have hgone : e.expiresAt ≤ now' := by omega
      simp [Option.filter, expired, hlive, hgone]

theorem Alike.later (h : Alike n now m db) (hle : now ≤ now') :
    Alike n now' m (elapse db (now' - now)) := by
  have hnow : db.now + (now' - now) = now' := by
    rw [h.clock]
    omega
  constructor
  · exact hnow
  · exact h.counters.later (by exact_mod_cast hle)
  · intro k
    rw [lookup_elapse_tokens, hnow, h.tokens k]
    exact filter_later Token.expires hle _
  · intro L
    rw [lookup_elapse_leases, hnow, h.leases L]
    exact filter_later Lease.expires hle _
  · exact fun k => h.records_later hle
  · intro L l hl
    exact h.whole L l (lease_earlier hle hl).1
  · intro L l hl
    obtain ⟨hheld, hlive⟩ := lease_earlier hle hl
    obtain ⟨hname, e, he, hopen, hbound⟩ := h.guarded L l hheld
    exact ⟨hname, e, entry_later he (by omega), hopen, hbound⟩

end Time

section Reading

variable {n : Naming} {now : ℕ} {m m' : Mem} {db : Db} {k L : Text} {keys : Keys}
  (h : Alike n now m db)
include h

theorem Alike.of_views (hcounters : AgreeOn Set.univ now m'.counters m.counters)
    (hdocuments : m'.documents = m.documents) (hleases : m'.leases = m.leases)
    (hrecords : ∀ k, m'.entry now k = m.entry now k) : Alike n now m' db := by
  have hlease : ∀ L, m'.lease now L = m.lease now L := fun L => by
    unfold Mem.lease
    rw [hleases]
  constructor
  · exact h.clock
  · exact fun k hk => (hcounters k hk).trans (h.counters k hk)
  · intro k
    rw [h.tokens k, Mem.document, Mem.document, hdocuments]
  · intro L
    rw [h.leases L, hlease L]
  · intro k
    rw [hrecords k]
    exact h.records k
  · intro L l hl
    exact h.whole L l (hlease L ▸ hl)
  · intro L l hl
    obtain ⟨hname, e, he, hopen⟩ := h.guarded L l (hlease L ▸ hl)
    exact ⟨hname, e, (hrecords _).trans he, hopen⟩

theorem Alike.record : Alike n now (m.record now k).1 db := by
  apply h.of_views
  · rw [Mem.counters_record]
    exact fun _ _ => rfl
  · exact Mem.documents_record
  · exact Mem.leases_record
  · exact fun j => Mem.entry_record

theorem Alike.read : Alike n now (m.read now keys).1 db := by
  rw [Mem.read_fst]
  exact h.record

/-- The hash under a key where the process has a record, and where it has none. -/
theorem Alike.binding {e : MemEntry} (he : m.entry now k = some e) :
    ∃ b, db.records.lookup k = some b ∧ Shows n k e b := by
  have hrel := h.records k
  rw [he] at hrel
  cases hb : db.records.lookup k with
  | none =>
    rw [hb] at hrel
    cases hrel
  | some b =>
    rw [hb] at hrel
    exact ⟨b, rfl, Option.rel_some_some.mp hrel⟩

theorem Alike.unbound (he : m.entry now k = none) : db.records.lookup k = none := by
  have hrel := h.records k
  rw [he] at hrel
  cases hb : db.records.lookup k with
  | none => rfl
  | some b =>
    rw [hb] at hrel
    cases hrel

theorem Alike.fields_some {e : MemEntry} (he : m.entry now k = some e) :
    ∃ b, db.fields k = some b.fields ∧ Shows n k e b := by
  obtain ⟨b, hb, hshows⟩ := h.binding he
  refine ⟨b, ?_, hshows⟩
  rw [Db.fields, hb, Option.map_some]

theorem Alike.fields_none (he : m.entry now k = none) : db.fields k = none := by
  rw [Db.fields, h.unbound he, Option.map_none]

theorem Alike.holder : db.holder L = (m.lease now L).map Lease.holder := by
  rw [Db.holder, h.leases L]

theorem Alike.pttl {l : Lease} (hnow : 1000 ∣ now) (hl : m.lease now L = some l) :
    0 ≤ db.pttl L ∧ db.pttl L * millisecond = Mem.left now l := by
  have hlive := (lease_earlier le_rfl hl).2
  have hwhole := h.whole L l hl
  have hpttl : db.pttl L = ((l.expires - now) / 1000 : ℕ) := by
    unfold Db.pttl
    rw [h.leases L, hl, h.clock]
  rw [hpttl]
  refine ⟨by positivity, ?_⟩
  unfold Mem.left microsDuration millisecond Algo.microsecond
  omega

theorem Alike.lookup (hnow : 1000 ∣ now) :
    looked (some (db.fields keys.record)) (some (db.holder keys.lease)) (some (db.pttl keys.lease)) =
      some (m.read now keys).2 := by
  unfold Mem.read looked
  dsimp only
  rw [Mem.record_snd, Mem.lease_record]
  cases he : m.entry now keys.record with
  | none =>
    rw [h.fields_none he]
    cases db.holder keys.lease <;> rfl
  | some e =>
    obtain ⟨b, hfields, hshows⟩ := h.fields_some he
    rw [hfields, hshows.shown, h.holder]
    cases hl : m.lease now keys.lease with
    | none => rfl
    | some l =>
      obtain ⟨hpos, hleft⟩ := h.pttl hnow hl
      have hfound : (Mem.shown e).found = true := rfl
      simp only [Option.map_some, withLease, hfound, if_true, if_neg (not_lt.mpr hpos), hleft]

end Reading

section Writing

variable {n : Naming} {now : ℕ} {m m' : Mem} {db db' : Db} {k j L : Text} {e : MemEntry}

theorem entry_insert (hrecords : m'.records = m.records.insert k e) (hlive : now < e.expiresAt) :
    m'.entry now j = if j = k then some e else m.entry now j := by
  unfold Mem.entry
  rw [hrecords]
  split_ifs with hj
  · rw [hj, Finmap.lookup_insert]
    simp [Option.filter, hlive]
  · rw [Finmap.lookup_insert_of_ne _ hj]

theorem Alike.records_insert (h : Alike n now m db) (hrecords : m'.records = m.records.insert k e)
    (hlive : now < e.expiresAt) {b : Binding} (hshows : Shows n k e b)
    (hdb : ∀ j, db'.records.lookup j = if j = k then some b else db.records.lookup j) (j : Text) :
    Option.Rel (Shows n j) (m'.entry now j) (db'.records.lookup j) := by
  rw [entry_insert hrecords hlive, hdb j]
  split_ifs with hj
  · subst hj
    exact Option.Rel.some hshows
  · exact h.records j

theorem Alike.guarded_insert (h : Alike n now m db) (hrecords : m'.records = m.records.insert k e)
    (hlive : now < e.expiresAt) {l : Lease} (hl : m.lease now L = some l)
    (hown : n.record l.holder = k → e.terminal = false ∧ l.expires ≤ e.expiresAt) :
    Guarded n now m' L l := by
  obtain ⟨hname, e', he', hopen, hbound⟩ := h.guarded L l hl
  refine ⟨hname, ?_⟩
  rw [entry_insert hrecords hlive]
  split_ifs with hsame
  · exact ⟨e, rfl, hown hsame⟩
  · exact ⟨e', he', hopen, hbound⟩

theorem lt_add {ms : ℕ} (hms : 1 ≤ ms) : now < Mem.add now ms := by
  unfold Mem.add
  omega

theorem lease_insert {l : Lease} (hleases : m'.leases = m.leases.insert k l) (hlive : now < l.expires) :
    m'.lease now L = if L = k then some l else m.lease now L := by
  unfold Mem.lease
  rw [hleases]
  split_ifs with hL
  · rw [hL, Finmap.lookup_insert]
    simp [Option.filter, hlive]
  · rw [Finmap.lookup_insert_of_ne _ hL]

theorem Alike.after (h : Alike n now m db) (ms : ℕ) : db.after ms = Mem.add now ms := by
  rw [Db.after, h.clock, Mem.add]

theorem Alike.bind {a : Acceptance} (h : Alike n now m db) (hnow : 1000 ∣ now)
    (hf : Follows n (.accept a)) (hfree : m.entry now a.keys.record = none) :
    Alike n now (m.bind now a) (bindCommand db a) := by
  obtain ⟨hbulk, hrecord, hname, hpos, hmax⟩ := hf
  have hlive : now < Mem.add now retention := lt_add (by decide)
  have hheld : ∀ L, (m.bind now a).lease now L =
      if L = a.keys.lease then some ⟨a.fencing, Mem.add now a.leaseTTL⟩ else m.lease now L :=
    fun L => lease_insert rfl (lt_add hpos)
  constructor
  · simpa [bindCommand, Db.hset] using h.clock
  · simpa [bindCommand, Db.hset, Mem.bind] using h.counters
  · intro k
    rw [tokens_bindCommand, h.tokens k]
    rfl
  · intro L
    rw [leases_bindCommand, hheld L, h.after]
    split_ifs with hL
    · rw [hL, Finmap.lookup_insert]
    · rw [Finmap.lookup_insert_of_ne _ hL, h.leases L]
  · apply h.records_insert rfl hlive _ fun j => lookup_bindCommand a
    rw [h.fields_none hfree, h.after]
    refine ⟨rfl, rfl, rfl, fun _ => ⟨rfl, rfl⟩, fun hadd => ?_⟩
    rw [hbulk] at hadd
    cases hadd
  · intro L l hl
    rw [hheld L] at hl
    split_ifs at hl
    · obtain rfl := Option.some.inj hl
      exact Dvd.dvd.add hnow (Dvd.intro_left _ rfl)
    · exact h.whole L l hl
  · intro L l hl
    rw [hheld L] at hl
    split_ifs at hl with hL
    · obtain rfl := Option.some.inj hl
      subst hL
      have hbound : Mem.add now a.leaseTTL ≤ Mem.add now retention :=
        Nat.add_le_add_left (Nat.mul_le_mul_right _ hmax) _
      refine ⟨by rw [← hrecord, hname],
        ⟨a.command, a.fencing, false, .zero, .zero, none, Mem.add now retention⟩, ?_, rfl, hbound⟩
      rw [← hrecord, entry_insert rfl hlive, if_pos rfl]
    · -- A held lease has an open record, and this one was free.
      apply h.guarded_insert rfl hlive hl
      intro hsame
      obtain ⟨-, e, he, -⟩ := h.guarded L l hl
      rw [hsame, hfree] at he
      cases he

theorem Alike.consume (h : Alike n now m db) (key : Text) :
    Alike n now { m with documents := m.documents.erase key }
      { db with tokens := db.tokens.erase key } := by
  refine ⟨h.clock, h.counters, fun k => ?_, h.leases, h.records, h.whole, h.guarded⟩
  have hk := h.tokens k
  unfold Mem.document at hk ⊢
  dsimp only
  by_cases hkey : k = key
  · rw [hkey, Finmap.lookup_erase, Finmap.lookup_erase]
    rfl
  · rw [Finmap.lookup_erase_ne hkey, Finmap.lookup_erase_ne hkey, hk]

theorem Alike.owned (h : Alike n now m db) {F : Text} (hheld : (m.lease now L).map Lease.holder = some F) :
    n.lease (n.record F) = L ∧ ∃ e b, m.entry now (n.record F) = some e ∧ e.terminal = false ∧
      db.records.lookup (n.record F) = some b ∧ Shows n (n.record F) e b := by
  rw [Option.map_eq_some_iff] at hheld
  obtain ⟨l, hl, rfl⟩ := hheld
  obtain ⟨hname, e, he, hopen, -⟩ := h.guarded L l hl
  obtain ⟨b, hb, hshows⟩ := h.binding he
  exact ⟨hname, e, b, he, hopen, hb, hshows⟩

theorem Shows.advance {b : Binding} (h : Shows n k e b) (hopen : e.terminal = false) (p : Progress) :
    Shows n k { e with progress := p } { b with fields := { b.fields with progress := some p } } := by
  obtain ⟨houtcome, hcount⟩ := h.unfinished hopen
  have hread : recordOf (some { b.fields with progress := some p }) =
      { recordOf (some b.fields) with progress := p } := by
    simp [recordOf, houtcome, hcount]
  refine ⟨h.expires, h.command, ?_, fun _ => ⟨houtcome, hcount⟩, fun hadd => ?_⟩
  · rw [hread, h.shown]
    rfl
  · have hsome := h.counted hadd
    rw [hcount] at hsome
    cases hsome

theorem Shows.finish {b : Binding} (h : Shows n k e b) (hopen : e.terminal = false) (o : Outcome)
    (deadline : ℕ) :
    Shows n k { e with terminal := true, outcome := o, progress := o.progress, expiresAt := deadline }
      ⟨{ b.fields with outcome := some o, terminal := true }, some deadline⟩ := by
  obtain ⟨-, hcount⟩ := h.unfinished hopen
  have hread : recordOf (some { b.fields with outcome := some o, terminal := true }) =
      { recordOf (some b.fields) with outcome := o, terminal := true, progress := o.progress } := by
    simp [recordOf, hcount]
  refine ⟨rfl, h.command, ?_, fun hfalse => ?_, fun hadd => ?_⟩
  · rw [hread, h.shown]
    rfl
  · cases hfalse
  · have hsome := h.counted hadd
    rw [hcount] at hsome
    cases hsome

theorem Alike.written {b : Binding} (h : Alike n now m db) (hshows : Shows n k e b)
    (hlive : now < e.expiresAt) (hrecords : m'.records = m.records.insert k e)
    (hdb : ∀ j, db'.records.lookup j = if j = k then some b else db.records.lookup j)
    (hcounters : AgreeOn Set.univ now m'.counters db'.counters) (hclock : db'.now = db.now)
    (hdocuments : m'.documents = m.documents) (htokens : db'.tokens = db.tokens)
    (hleases : m'.leases = m.leases) (hheld : db'.leases = db.leases)
    (hown : ∀ L l, m.lease now L = some l → n.record l.holder = k →
      e.terminal = false ∧ l.expires ≤ e.expiresAt) : Alike n now m' db' := by
  have hlease : ∀ L, m'.lease now L = m.lease now L := fun L => by
    unfold Mem.lease
    rw [hleases]
  constructor
  · exact hclock.trans h.clock
  · exact hcounters
  · intro j
    rw [htokens, h.tokens j, Mem.document, Mem.document, hdocuments]
  · intro L
    rw [hheld, h.leases L, hlease L]
  · exact h.records_insert hrecords hlive hshows hdb
  · intro L l hl
    exact h.whole L l (hlease L ▸ hl)
  · intro L l hl
    rw [hlease L] at hl
    exact h.guarded_insert hrecords hlive hl (hown L l hl)

theorem Alike.release (h : Alike n now m db) (L : Text) :
    Alike n now { m with leases := m.leases.erase L } { db with leases := db.leases.erase L } ∧
      ∀ L', ({ m with leases := m.leases.erase L } : Mem).lease now L' =
        if L' = L then none else m.lease now L' := by
  have hlease : ∀ L', ({ m with leases := m.leases.erase L } : Mem).lease now L' =
      if L' = L then none else m.lease now L' := by
    intro L'
    unfold Mem.lease
    dsimp only
    split_ifs with hL
    · rw [hL, Finmap.lookup_erase]
      rfl
    · rw [Finmap.lookup_erase_ne hL]
  have hkept : ∀ L' l, ({ m with leases := m.leases.erase L } : Mem).lease now L' = some l →
      m.lease now L' = some l := by
    intro L' l hl
    rw [hlease] at hl
    split_ifs at hl
    exact hl
  refine ⟨⟨h.clock, h.counters, h.tokens, fun L' => ?_, h.records, ?_, ?_⟩, hlease⟩
  · rw [hlease]
    dsimp only
    split_ifs with hL
    · rw [hL, Finmap.lookup_erase]
    · rw [Finmap.lookup_erase_ne hL, h.leases L']
  · exact fun L' l hl => h.whole L' l (hkept L' l hl)
  · exact fun L' l hl => h.guarded L' l (hkept L' l hl)

end Writing

end Ratelimit.Records
