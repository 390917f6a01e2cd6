import Ratelimit.Records.Protocol

/-!
# Where confirmation tokens come from and go

A token is stored by a put. It is gone when an acceptance takes it, in the step
that binds the command, or when it expires; nothing else touches it.
-/
namespace Ratelimit.Records

open Library

def Mints (k : Text) (document : TokenDocument) : Ev → Prop
  | .ran ⟨_, _, _, .put k' document' _, _⟩ => k' = k ∧ document' = document
  | _ => False

def Consumes (k : Text) : Ev → Prop
  | .ran ⟨_, _, _, .accept a, .accepted _⟩ => a.keys.token = some k
  | _ => False

section Steps

variable {db : Db} {ev : Ev} {k : Text}

@[simp] theorem tokens_hset {j : Text} (write : Fields → Fields) :
    (db.hset j write).tokens = db.tokens := rfl

@[simp] theorem tokens_pexpire {j : Text} (ms : ℕ) : (db.pexpire j ms).tokens = db.tokens := by
  unfold Db.pexpire
  split <;> rfl

@[simp] theorem tokens_bindCommand (a : Acceptance) : (bindCommand db a).tokens = db.tokens := by
  simp [bindCommand]

theorem acceptScript_of_turned {a : Acceptance}
    (h : ∀ token, (acceptScript db a).2 ≠ .accepted token) : (acceptScript db a).1 = db := by
  unfold acceptScript at h ⊢
  split
  · rfl
  · next hfree =>
    rw [hfree] at h
    split
    · rfl
    · next hlease =>
      rw [hlease] at h
      split
      · next hkey =>
        rw [hkey] at h
        exact absurd rfl (h none)
      · next key hkey =>
        rw [hkey] at h
        split
        · rfl
        · next token htoken =>
          simp only [htoken] at h
          exact absurd rfl (h (some token.document))

theorem tokens_batchScript (b : Batch) : (batchScript db b).1.tokens = db.tokens := by
  unfold batchScript
  split_ifs <;> rfl

theorem tokens_commitScript (c : Commit) : (commitScript db c).1.tokens = db.tokens := by
  unfold commitScript
  split_ifs
  · rfl
  · simp [writeOutcome]

theorem tokens_finalizeScript (f : Finalize) : (finalizeScript db f).1.tokens = db.tokens := by
  unfold finalizeScript
  split
  · rfl
  · split_ifs <;> simp [writeOutcome]

theorem tokens_resetScript (r : Addressed) : (resetScript db r).1.tokens = db.tokens := by
  unfold resetScript
  split
  · rfl
  · simp

/-- Everything one event can do to the tokens. -/
inductive TokensAfter (db : Db) (ev : Ev) (db' : Db) : Prop
  | same (hkeep : ∀ k, ¬ Consumes k ev) (htokens : db'.tokens = db.tokens)
  | took (key : Text) (hkey : ∀ k, Consumes k ev ↔ k = key)
      (hthere : ∃ token, db.tokens.lookup key = some token)
      (htokens : db'.tokens = db.tokens.erase key)
  | minted (key : Text) (token : Token) (hmints : Mints key token.document ev)
      (hkeep : ∀ k, ¬ Consumes k ev) (htokens : db'.tokens = db.tokens.insert key token)
  | expire (micros : ℕ) (hev : ev = .env (.elapse micros))
      (htokens : ∀ k, db'.tokens.lookup k = none ∨ db'.tokens.lookup k = db.tokens.lookup k)

theorem tokensAfter_accept (a : Acceptance) (i : ℕ) (late : Bool) (o : Oracle) :
    TokensAfter db (.ran ⟨i, late, o, .accept a, (acceptScript db a).2⟩) (acceptScript db a).1 := by
  unfold acceptScript
  split
  · exact .same (fun _ h => h) rfl
  · split
    · exact .same (fun _ h => h) rfl
    · split
      · next hkey =>
        refine .same (fun k h => ?_) (by simp)
        cases hkey.symm.trans h
      · next key hkey =>
        split
        · exact .same (fun _ h => h) rfl
        · next token htoken =>
          refine .took key (fun k => ?_) ⟨token, htoken⟩ (by simp)
          change a.keys.token = some k ↔ _
          rw [hkey, Option.some.injEq, eq_comm]

theorem tokensAfter_apply (hreply : Replied db ev) : TokensAfter db ev (redis.apply db ev) := by
  cases ev with
  | env e =>
    cases e with
    | elapse d =>
      refine .expire d rfl fun k => ?_
      have hlookup : (elapse db d).tokens.lookup k = _ := lookup_eraseWhere _ _
      change (elapse db d).tokens.lookup k = none ∨ (elapse db d).tokens.lookup k = _
      rw [hlookup]
      split_ifs
      · exact Or.inl rfl
      · exact Or.inr rfl
    | leaseLost k => exact .same (fun _ h => h) rfl
    | traffic op => exact .same (fun _ h => h) rfl
  | ran e =>
    obtain ⟨i, late, o, r, v⟩ := e
    have hv : v = (exec db r o).2 := hreply
    subst hv
    cases r with
    | accept a => exact tokensAfter_accept a i late o
    | batch b => exact .same (fun _ h => h) (tokens_batchScript b)
    | commit c => exact .same (fun _ h => h) (tokens_commitScript c)
    | finalize f => exact .same (fun _ h => h) (tokens_finalizeScript f)
    | reset r => exact .same (fun _ h => h) (tokens_resetScript r)
    | put k document ttl => exact .minted k ⟨document, db.after ttl⟩ ⟨rfl, rfl⟩ (fun _ h => h) rfl
    | fields | holder | pttl | get | scan | peek | clock => exact .same (fun _ h => h) rfl

/-- What is stored after an event was minted by it, or was there and not taken. -/
theorem token_step (hreply : Replied db ev) {token : Token}
    (h : (redis.apply db ev).tokens.lookup k = some token) :
    Mints k token.document ev ∨ db.tokens.lookup k = some token ∧ ¬ Consumes k ev := by
  cases tokensAfter_apply hreply with
  | same hkeep htokens => exact Or.inr ⟨htokens ▸ h, hkeep k⟩
  | took key hkey hthere htokens =>
    rw [htokens] at h
    by_cases hk : k = key
    · rw [hk, Finmap.lookup_erase] at h
      cases h
    · rw [Finmap.lookup_erase_ne hk] at h
      exact Or.inr ⟨h, fun hconsumes => hk ((hkey k).mp hconsumes)⟩
  | minted key token' hmints hkeep htokens =>
    rw [htokens] at h
    by_cases hk : k = key
    · rw [hk, Finmap.lookup_insert] at h
      obtain rfl := Option.some.inj h
      exact Or.inl (hk ▸ hmints)
    · rw [Finmap.lookup_insert_of_ne _ hk] at h
      exact Or.inr ⟨h, hkeep k⟩
  | expire micros hev htokens =>
    rcases htokens k with hnone | hsame
    · rw [hnone] at h
      cases h
    · refine Or.inr ⟨hsame ▸ h, ?_⟩
      rw [hev]
      exact fun h => h

theorem token_gone (hreply : Replied db ev) {token : Token} (h : db.tokens.lookup k = some token)
    (hgone : (redis.apply db ev).tokens.lookup k = none) :
    Consumes k ev ∨ ∃ micros, ev = .env (.elapse micros) := by
  cases tokensAfter_apply hreply with
  | same hkeep htokens =>
    rw [htokens, h] at hgone
    cases hgone
  | took key hkey hthere htokens =>
    left
    rw [hkey]
    by_contra hk
    rw [htokens, Finmap.lookup_erase_ne hk, h] at hgone
    cases hgone
  | minted key token' hmints hkeep htokens =>
    by_cases hk : k = key
    · rw [htokens, hk, Finmap.lookup_insert] at hgone
      cases hgone
    · rw [htokens, Finmap.lookup_insert_of_ne _ hk, h] at hgone
      cases hgone
  | expire micros hev htokens => exact Or.inr ⟨micros, hev⟩

theorem token_of_consumes (hreply : Replied db ev) (h : Consumes k ev) :
    ∃ token, db.tokens.lookup k = some token := by
  cases tokensAfter_apply hreply with
  | same hkeep htokens => exact absurd h (hkeep k)
  | took key hkey hthere htokens =>
    rw [(hkey k).mp h]
    exact hthere
  | minted key token hmints hkeep htokens => exact absurd h (hkeep k)
  | expire micros hev htokens =>
    rw [hev] at h
    exact h.elim

end Steps

/-- Where a stored token comes from: it was minted, and not taken since. -/
theorem token_origin {h : List Ev} (hgenuine : Genuine h) {k : Text} {token : Token}
    (htoken : (after h).tokens.lookup k = some token) :
    ∃ p ev q, h = p ++ ev :: q ∧ Mints k token.document ev ∧ ∀ ev' ∈ q, ¬ Consumes k ev' := by
  refine exists_since (P := fun h => Genuine h ∧ (after h).tokens.lookup k = some token)
    (fun h => by cases h.2) (fun h ev hlast => ?_) ⟨hgenuine, htoken⟩
  obtain ⟨hgenuine, htoken⟩ := hlast
  rw [after_snoc] at htoken
  refine (token_step hgenuine.last htoken).imp_right fun hkept => ?_
  exact ⟨⟨hgenuine.of_append, hkept.1⟩, hkept.2⟩

end Ratelimit.Records
