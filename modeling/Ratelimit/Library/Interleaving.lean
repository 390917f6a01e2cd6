import Ratelimit.Library.Calls

/-!
# Callers of one server, interleaved

Any number of callers run against a server that executes one request at a time. A call may
fail for its caller while the request is on its way: then the server executes it at any later
moment, or never. A schedule picks at each step what happens. Every request is executed at
most once.
-/
namespace Ratelimit.Library

/-- A server: how it executes a request, where an oracle settles what its state
does not, and how it changes on its own. -/
structure Server (S Req : Type) (Reply : Req → Type) (O E : Type) where
  exec : S → (r : Req) → O → S × Reply r
  env : S → E → S

/-- A request the server executed for the caller numbered `owner`, late where the
caller had given it up. -/
structure Entry {Req : Type} (Reply : Req → Type) (O : Type) where
  owner : ℕ
  late : Bool
  oracle : O
  request : Req
  reply : Reply request

inductive Event {Req : Type} (Reply : Req → Type) (O E : Type)
  | ran (e : Entry Reply O)
  | env (e : E)

structure Thread (C : Type) {Req : Type} (Reply : Req → Type) (A : Type) where
  call : C
  /-- How much of the history there was when the call started. -/
  since : ℕ
  transcript : Transcript Reply
  rest : Prog Req Reply A

structure World (S C : Type) {Req : Type} (Reply : Req → Type) (O E A : Type) where
  server : S
  threads : List (Thread C Reply A)
  late : List (ℕ × Req)
  history : List (Event Reply O E)

inductive Choice (C O E : Type)
  | spawn (c : C)
  | serve (i : ℕ) (o : O)
  | fail (i : ℕ)
  | deliver (j : ℕ) (o : O)
  | env (e : E)

variable {S Req C O E A : Type} {Reply : Req → Type}

def Thread.saw (t : Thread C Reply A) (x : Exchange Reply) (rest : Prog Req Reply A) :
    Thread C Reply A :=
  { t with transcript := t.transcript ++ [x], rest }

def World.serve (srv : Server S Req Reply O E) (w : World S C Reply O E A) (i : ℕ)
    (t : Thread C Reply A) (r : Req) (next : Option (Reply r) → Prog Req Reply A) (o : O) :
    World S C Reply O E A :=
  let done := srv.exec w.server r o
  { server := done.1
    threads := w.threads.set i (t.saw ⟨r, some done.2⟩ (next (some done.2)))
    late := w.late
    history := w.history ++ [.ran ⟨i, false, o, r, done.2⟩] }

def World.fail (w : World S C Reply O E A) (i : ℕ) (t : Thread C Reply A) (r : Req)
    (next : Option (Reply r) → Prog Req Reply A) : World S C Reply O E A :=
  { w with threads := w.threads.set i (t.saw ⟨r, none⟩ (next none)), late := w.late ++ [(i, r)] }

def World.deliver (srv : Server S Req Reply O E) (w : World S C Reply O E A) (j i : ℕ) (r : Req)
    (o : O) : World S C Reply O E A :=
  let done := srv.exec w.server r o
  { w with
    server := done.1
    late := w.late.eraseIdx j
    history := w.history ++ [.ran ⟨i, true, o, r, done.2⟩] }

/-- One step of a schedule. A choice that names nothing to do changes nothing. -/
def step (srv : Server S Req Reply O E) (program : C → Prog Req Reply A)
    (w : World S C Reply O E A) : Choice C O E → World S C Reply O E A
  | .spawn c => { w with threads := w.threads ++ [⟨c, w.history.length, [], program c⟩] }
  | .serve i o =>
    match w.threads[i]? with
    | some t =>
      match t.rest with
      | .call r next => w.serve srv i t r next o
      | _ => w
    | none => w
  | .fail i =>
    match w.threads[i]? with
    | some t =>
      match t.rest with
      | .call r next => w.fail i t r next
      | _ => w
    | none => w
  | .deliver j o =>
    match w.late[j]? with
    | some (i, r) => w.deliver srv j i r o
    | none => w
  | .env e => { w with server := srv.env w.server e, history := w.history ++ [.env e] }

def steps (srv : Server S Req Reply O E) (program : C → Prog Req Reply A)
    (w : World S C Reply O E A) (cs : List (Choice C O E)) : World S C Reply O E A :=
  cs.foldl (step srv program) w

def spawned (cs : List (Choice C O E)) : List C :=
  cs.filterMap fun
    | .spawn c => some c
    | _ => none

def World.init (s : S) : World S C Reply O E A := ⟨s, [], [], []⟩

def Server.apply (srv : Server S Req Reply O E) (s : S) : Event Reply O E → S
  | .ran e => (srv.exec s e.request e.oracle).1
  | .env e => srv.env s e

def Server.replay (srv : Server S Req Reply O E) (s : S) (h : List (Event Reply O E)) : S :=
  h.foldl srv.apply s

theorem replay_append {srv : Server S Req Reply O E} {s₀ : S} (h h' : List (Event Reply O E)) :
    srv.replay s₀ (h ++ h') = srv.replay (srv.replay s₀ h) h' := List.foldl_append

/-- The requests of a caller that were executed while it waited, with the replies. -/
def served (i : ℕ) (h : List (Event Reply O E)) : List ((r : Req) × Reply r) :=
  h.filterMap fun
    | .ran e => if e.owner = i ∧ e.late = false then some ⟨e.request, e.reply⟩ else none
    | .env _ => none

def answeredCalls (τ : Transcript Reply) : List ((r : Req) × Reply r) :=
  τ.filterMap fun x => x.2.map (Sigma.mk x.1)

/-- How many marked requests of a caller the server executed. -/
def executed (M : Req → Bool) (i : ℕ) (h : List (Event Reply O E)) : ℕ :=
  h.countP fun
    | .ran e => decide (e.owner = i) && M e.request
    | .env _ => false

/-- How many marked requests of a caller are still on their way. -/
def outstanding (M : Req → Bool) (i : ℕ) (late : List (ℕ × Req)) : ℕ :=
  late.countP fun x => decide (x.1 = i) && M x.2

/-- A program run alone: no call fails and nothing happens in between. -/
def Server.alone (srv : Server S Req Reply O E) (o : O) : S → Prog Req Reply A → S × Option A
  | s, .done a => (s, some a)
  | s, .halt => (s, none)
  | s, .call r next =>
    let done := srv.exec s r o
    srv.alone o done.1 (next (some done.2))

theorem Server.alone_ask (srv : Server S Req Reply O E) (o : O) (s : S) (r : Req)
    (f : Option (Reply r) → Prog Req Reply A) :
    srv.alone o s (Prog.ask r >>= f) =
      srv.alone o (srv.exec s r o).1 (f (some (srv.exec s r o).2)) := rfl

theorem Server.alone_bind {B : Type} (srv : Server S Req Reply O E) {o : O} {s s' : S}
    {p : Prog Req Reply A} {a : A} (f : A → Prog Req Reply B) (h : srv.alone o s p = (s', some a)) :
    srv.alone o s (p >>= f) = srv.alone o s' (f a) := by
  change srv.alone o s (p.bind f) = _
  induction p generalizing s with
  | done b =>
    simp only [Server.alone, Prod.mk.injEq, Option.some.injEq] at h
    obtain ⟨rfl, rfl⟩ := h
    rfl
  | halt =>
    simp only [Server.alone, Prod.mk.injEq, reduceCtorEq, and_false] at h
  | call r next ih => exact ih _ h

end Ratelimit.Library
