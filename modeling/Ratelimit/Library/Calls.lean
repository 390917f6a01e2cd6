import Mathlib.Data.List.Infix
import Mathlib.Tactic

/-!
# Programs that call a server

A program is a tree of calls. Each continues with the reply, or with nothing where the call
failed and its caller does not know whether the server ran it. A program obeys a contract when
every request and every result is permitted by the transcript at that point.
-/
namespace Ratelimit.Library

variable {Req : Type} {Reply : Req → Type} {α β : Type}

inductive Prog (Req : Type) (Reply : Req → Type) (α : Type) : Type
  | done (a : α)
  /-- The caller stops without a result, as one that dies does. -/
  | halt
  | call (r : Req) (next : Option (Reply r) → Prog Req Reply α)

namespace Prog

def bind : Prog Req Reply α → (α → Prog Req Reply β) → Prog Req Reply β
  | done a, f => f a
  | halt, _ => halt
  | call r next, f => call r fun v => (next v).bind f

instance monad : Monad (Prog Req Reply) where
  pure := done
  bind := bind

def result : Prog Req Reply α → Option α
  | done a => some a
  | _ => none

theorem result_eq_some {p : Prog Req Reply α} {a : α} : p.result = some a ↔ p = done a := by
  cases p <;> simp [result]

def ask (r : Req) : Prog Req Reply (Option (Reply r)) := call r done

end Prog

/-- A request and what its caller saw of the reply. -/
abbrev Exchange (Reply : Req → Type) := (r : Req) × Option (Reply r)

abbrev Transcript (Reply : Req → Type) := List (Exchange Reply)

/-- Requests are permitted by `P`, results are right by `Q`. -/
def Obeys (P : Transcript Reply → Req → Prop) (Q : Transcript Reply → α → Prop) :
    Transcript Reply → Prog Req Reply α → Prop
  | τ, .done a => Q τ a
  | _, .halt => True
  | τ, .call r next => P τ r ∧ ∀ v, Obeys P Q (τ ++ [⟨r, v⟩]) (next v)

section Rules

variable {P P' : Transcript Reply → Req → Prop} {Q Q' : Transcript Reply → α → Prop}
  {p : Prog Req Reply α} {τ : Transcript Reply}

@[simp] theorem obeys_pure {a : α} : Obeys P Q τ (pure a) ↔ Q τ a := Iff.rfl

@[simp] theorem obeys_done {a : α} : Obeys P Q τ (.done a) ↔ Q τ a := Iff.rfl

@[simp] theorem obeys_halt : Obeys P Q τ .halt ↔ True := Iff.rfl

/-- A call: its request is permitted, and the rest obeys whatever the reply is. -/
theorem obeys_ask {r : Req} {f : Option (Reply r) → Prog Req Reply α} :
    Obeys P Q τ (Prog.ask r >>= f) ↔ P τ r ∧ ∀ v, Obeys P Q (τ ++ [⟨r, v⟩]) (f v) := Iff.rfl

theorem obeys_bind {p : Prog Req Reply β} {f : β → Prog Req Reply α} :
    Obeys P Q τ (p >>= f) ↔ Obeys P (fun τ b => Obeys P Q τ (f b)) τ p := by
  change Obeys P Q τ (p.bind f) ↔ _
  induction p generalizing τ with
  | done b => exact Iff.rfl
  | halt => exact Iff.rfl
  | call r next ih => exact and_congr_right fun _ => forall_congr' fun v => ih v

theorem obeys_ite {c : Prop} [Decidable c] {p q : Prog Req Reply α} :
    Obeys P Q τ (if c then p else q) ↔ (c → Obeys P Q τ p) ∧ (¬c → Obeys P Q τ q) := by
  split_ifs with h <;> simp [h]

theorem obeys_of_forall (hP : ∀ τ r, P τ r) (hQ : ∀ τ a, Q τ a) (p : Prog Req Reply α) :
    Obeys P Q τ p := by
  induction p generalizing τ with
  | done a => exact hQ τ a
  | halt => trivial
  | call r next ih => exact ⟨hP τ r, fun v => ih v⟩

theorem Obeys.imp (h : Obeys P Q τ p) (hP : ∀ τ r, P τ r → P' τ r) (hQ : ∀ τ a, Q τ a → Q' τ a) :
    Obeys P' Q' τ p := by
  induction p generalizing τ with
  | done a => exact hQ τ a h
  | halt => trivial
  | call r next ih => exact ⟨hP τ r h.1, fun v => ih v (h.2 v)⟩

theorem Obeys.mono (h : Obeys P Q τ p) (hQ : ∀ τ a, Q τ a → Q' τ a) :
    Obeys P Q' τ p := h.imp (fun _ _ hr => hr) hQ

theorem Obeys.and (h : Obeys P Q τ p) (h' : Obeys P' Q' τ p) :
    Obeys (fun τ r => P τ r ∧ P' τ r) (fun τ a => Q τ a ∧ Q' τ a) τ p := by
  induction p generalizing τ with
  | done a => exact ⟨h, h'⟩
  | halt => trivial
  | call r next ih => exact ⟨⟨h.1, h'.1⟩, fun v => ih v (h.2 v) (h'.2 v)⟩

theorem Obeys.extends (h : Obeys P Q τ p) : Obeys P (fun τ' a => Q τ' a ∧ τ <+: τ') τ p := by
  suffices hgrows : ∀ τ', τ <+: τ' → Obeys P Q τ' p → Obeys P (fun τ' a => Q τ' a ∧ τ <+: τ') τ' p
    from hgrows τ List.prefix_rfl h
  clear h
  induction p with
  | done a => exact fun τ' hle h => ⟨h, hle⟩
  | halt => exact fun _ _ _ => trivial
  | call r next ih =>
    exact fun τ' hle h => ⟨h.1, fun v => ih v _ (hle.trans (List.prefix_append _ _)) (h.2 v)⟩

end Rules

section Answers

variable {S : Type} {answer : S → (r : Req) → S × Option (Reply r)} {s : S} {p : Prog Req Reply α}
  {post post' : S → Transcript Reply → α → Prop}

/-- A program alone with what answers it: how it leaves that, what was exchanged, and its
result. -/
def Prog.against (answer : S → (r : Req) → S × Option (Reply r)) :
    S → Prog Req Reply α → S × Transcript Reply × Option α
  | s, .done a => (s, [], some a)
  | s, .halt => (s, [], none)
  | s, .call r next =>
    let reply := answer s r
    let rest := (next reply.2).against answer reply.1
    (rest.1, ⟨r, reply.2⟩ :: rest.2.1, rest.2.2)

/-- The program comes to a result, and so does what holds then. -/
def Yields (answer : S → (r : Req) → S × Option (Reply r)) :
    S → Prog Req Reply α → (S → Transcript Reply → α → Prop) → Prop
  | s, .done a, post => post s [] a
  | _, .halt, _ => False
  | s, .call r next, post =>
    Yields answer (answer s r).1 (next (answer s r).2) fun s' τ a =>
      post s' (⟨r, (answer s r).2⟩ :: τ) a

theorem yields_iff : Yields answer s p post ↔
    ∃ s' τ a, p.against answer s = (s', τ, some a) ∧ post s' τ a := by
  induction p generalizing s post with
  | done a =>
    constructor
    · exact fun h => ⟨s, [], a, rfl, h⟩
    · rintro ⟨s', τ, a', heq, h⟩
      simp only [Prog.against, Prod.mk.injEq, Option.some.injEq] at heq
      obtain ⟨rfl, rfl, rfl⟩ := heq
      exact h
  | halt => simp [Yields, Prog.against]
  | call r next ih =>
    rw [Yields, ih]
    constructor
    · rintro ⟨s', τ, a, heq, h⟩
      refine ⟨s', _, a, ?_, h⟩
      rw [Prog.against, heq]
    · rintro ⟨s', τ, a, heq, h⟩
      simp only [Prog.against, Prod.mk.injEq] at heq
      obtain ⟨rfl, rfl, hresult⟩ := heq
      exact ⟨_, _, a, Prod.ext rfl (Prod.ext rfl hresult), h⟩

theorem yields_pure {a : α} : Yields answer s (pure a) post ↔ post s [] a := Iff.rfl

theorem yields_ask {r : Req} {f : Option (Reply r) → Prog Req Reply α} :
    Yields answer s (Prog.ask r >>= f) post ↔
      Yields answer (answer s r).1 (f (answer s r).2) fun s' τ a =>
        post s' (⟨r, (answer s r).2⟩ :: τ) a := Iff.rfl

theorem Yields.mono (h : Yields answer s p post) (hpost : ∀ s' τ a, post s' τ a → post' s' τ a) :
    Yields answer s p post' := by
  obtain ⟨s', τ, a, heq, h⟩ := yields_iff.mp h
  exact yields_iff.mpr ⟨s', τ, a, heq, hpost s' τ a h⟩

theorem Yields.and (h : Yields answer s p post) (h' : Yields answer s p post') :
    Yields answer s p fun s' τ a => post s' τ a ∧ post' s' τ a := by
  induction p generalizing s post post' with
  | done a => exact ⟨h, h'⟩
  | halt => exact h
  | call r next ih => exact ih _ h h'

theorem yields_bind {p : Prog Req Reply β} {f : β → Prog Req Reply α} :
    Yields answer s (p >>= f) post ↔ Yields answer s p fun s' τ b =>
      Yields answer s' (f b) fun s'' τ' a => post s'' (τ ++ τ') a := by
  change Yields answer s (p.bind f) post ↔ _
  induction p generalizing s post with
  | done b => exact Iff.rfl
  | halt => exact Iff.rfl
  | call r next ih => exact ih _

theorem yields_ite {c : Prop} [Decidable c] {p q : Prog Req Reply α} :
    Yields answer s (if c then p else q) post ↔
      (c → Yields answer s p post) ∧ (¬c → Yields answer s q post) := by
  split_ifs with h <;> simp [h]

end Answers

end Ratelimit.Library
