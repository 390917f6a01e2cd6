import Ratelimit.Config.Reading
import Ratelimit.Library.Maps

/-!
# A replica of the service

The watcher hands each new manifest to the applier, which compiles its domains and publishes
them as one rule set. What the replica reports is read off the set. An engine is built from
its snapshot alone, so the snapshot stands for it.
-/
namespace Ratelimit.Config

open Api Library

/-- A domain as it is served, with the object it was applied from. -/
structure Domain where
  snapshot : Compile.Snapshot
  generation : ℤ
  uid : Text
  appliedAt : ℤ

structure ReportedRefusal where
  formatVersion : ℤ
  reason : Message
  deriving DecidableEq

structure RuleSet where
  domains : Finmap fun _ : Text => Domain
  swappedAt : ℤ
  refusal : Option ReportedRefusal

structure AppliedDomain where
  generation : ℤ
  uid : Text
  appliedAt : ℤ
  deriving DecidableEq

structure Report where
  domains : Finmap fun _ : Text => AppliedDomain
  formatVersions : List ℤ
  refusal : Option ReportedRefusal
  configAbsent : Bool

/-- The applier and the rule store it publishes to. -/
structure Applier where
  namespaceName : Text
  domains : Finmap fun _ : Text => Domain
  hashes : Finmap fun _ : Text => Text
  ready : Bool
  absent : Bool
  current : RuleSet

structure Watcher where
  applier : Applier
  applied : Option Text
  refused : Option Text
  absent : Bool

def Watcher.new (namespaceName : Text) : Watcher :=
  ⟨⟨namespaceName, ∅, ∅, false, false, ⟨∅, 0, none⟩⟩, none, none, false⟩

namespace Applier

variable (a : Applier)

/-- The hash that the served domain was compiled from, empty where it enforces nothing. -/
def hashOf (domain : Text) : Text := (a.hashes.lookup domain).getD []

/-- What becomes of one domain of the reading, and the hash that is recorded for it. -/
def applyDomain (now : ℤ) (domain : Text) (entry : DomainEntry) (spec : Spec) : Domain × Text :=
  let kept := a.domains.lookup domain
  match kept.filter fun _ => a.hashOf domain = entry.hash with
  | some built => (⟨built.snapshot, entry.generation, entry.uid, now⟩, entry.hash)
  | none =>
    let compiled := compileSpec a.namespaceName domain spec
    if blocking compiled.2 = false then
      (⟨compiled.1, entry.generation, entry.uid, now⟩, entry.hash)
    else
      match kept.filter fun _ => a.hashOf domain ≠ [] with
      | some built => (⟨built.snapshot, built.generation, built.uid, now⟩, a.hashOf domain)
      | none =>
        (⟨(compileSpec a.namespaceName domain (.claiming domain)).1, 0, entry.uid, now⟩, [])

def settle (now : ℤ) (cfg : Configuration) : Finmap fun _ : Text => Domain × Text :=
  filterMapEntries (fun domain entry => (cfg.specs.lookup domain).map
    (a.applyDomain now domain entry)) cfg.manifest.domains

/-- Compiles every domain of the reading and swaps the rule set. -/
def apply (now : ℤ) (cfg : Configuration) : Applier :=
  let settled := a.settle now cfg
  let domains := filterMapEntries (fun _ s => some s.1) settled
  { a with
    domains := domains
    hashes := filterMapEntries (fun _ s => some s.2) settled
    ready := true
    current := ⟨domains, now, none⟩ }

/-- The refusal is published on the set that stays current. -/
def refuse (refusal : Refusal) : Applier :=
  { a with current := { a.current with refusal := some ⟨refusal.formatVersion, refusal.err⟩ } }

def setAbsent (absent : Bool) : Applier := { a with absent := absent }

/-- `ReportOf` the current set, with the state of the directory. -/
def report : Report where
  domains := filterMapEntries (fun _ d => some ⟨d.generation, d.uid, d.appliedAt⟩) a.current.domains
  formatVersions := supportedVersions
  refusal := a.current.refusal
  configAbsent := a.absent

end Applier

namespace Watcher

variable (c : Codec) (w : Watcher)

def present : Watcher :=
  { w with absent := false, applier := if w.absent then w.applier.setAbsent false else w.applier }

/-- The manifest is already applied, and no refusal came between. -/
def current (cfg : Configuration) : Bool :=
  decide (cfg.raw = w.applied.getD []) && w.refused.isNone

/-- `read`: applies or refuses the contents of the directory, once per manifest. -/
def read (now : ℤ) (dir : Directory) : Watcher :=
  match Config.read c dir with
  | .absent => if w.absent then w else { w with absent := true, applier := w.applier.setAbsent true }
  | .unreadable _ => w.present
  | .refused refusal =>
    if refusal.raw = w.present.refused.getD [] then w.present
    else
      { w.present with
        refused := some refusal.raw
        applier := w.present.applier.refuse refusal }
  | .valid cfg =>
    if w.present.current cfg then w.present
    else
      { w.present with
        applied := some cfg.raw
        refused := none
        applier := w.present.applier.apply now cfg }

end Watcher

variable {c : Codec} {w : Watcher} {dir : Directory} {now : ℤ}

/-- The rules and what is recorded of them are the same. -/
structure SameRules (a a' : Applier) : Prop where
  namespaceName : a'.namespaceName = a.namespaceName
  domains : a'.domains = a.domains
  hashes : a'.hashes = a.hashes
  current : a'.current.domains = a.current.domains

theorem Watcher.present_rules : SameRules w.applier w.present.applier := by
  unfold Watcher.present Applier.setAbsent
  split_ifs <;> exact ⟨rfl, rfl, rfl, rfl⟩

theorem Watcher.read_unapplied
    (h : ∀ cfg, Config.read c dir = .valid cfg → w.current cfg = true) :
    SameRules w.applier (w.read c now dir).applier := by
  unfold Watcher.read
  split
  · split_ifs
    · exact ⟨rfl, rfl, rfl, rfl⟩
    · exact ⟨rfl, rfl, rfl, rfl⟩
  · exact present_rules
  · split_ifs
    · exact present_rules
    · obtain ⟨hnamespace, hdomains, hhashes, hcurrent⟩ := @present_rules w
      exact ⟨hnamespace, hdomains, hhashes, hcurrent⟩
  · next cfg hreading =>
    have hcurrent : w.present.current cfg = true := h cfg hreading
    rw [if_pos hcurrent]
    exact present_rules

theorem Watcher.read_applied {cfg : Configuration} (h : Config.read c dir = .valid cfg)
    (hnew : w.current cfg = false) :
    (w.read c now dir).applier = w.present.applier.apply now cfg := by
  have hpresent : w.present.current cfg = false := hnew
  simp only [Watcher.read, h, hpresent]
  rfl

end Ratelimit.Config
