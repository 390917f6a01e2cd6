import Ratelimit.Management.Request
import Ratelimit.Store.RedisWalk

/-!
# One domain is one slot

The scripts of the decision and the command stores name several keys each, and a cluster
runs them only where all of those are in one slot. Two packages build the keys, and both
take the hash tag of the domain from the key package.
-/
namespace Ratelimit.Management

open Key Redis

def slotTag (s : Key.Scope) : Text := escape s.namespaceName ++ byte '/' :: escape s.domain

/-- The keys beside the counters of a domain. -/
inductive CommandKey (std : Stdlib) (s : Key.Scope) : Text → Prop
  | record (endpoint subject idempotencyKey : Text) :
    CommandKey std s (recordKey std s endpoint subject idempotencyKey)
  | lease : CommandKey std s (leaseKey s)
  | token (t : Text) : CommandKey std s (tokenKey s t)

theorem CommandKey.eq_append {std : Stdlib} {s : Key.Scope} {k : Text} (h : CommandKey std s k) :
    ∃ rest, k = ascii "rlm:v1:" ++ (domainTag s ++ rest) := by
  cases h with
  | record endpoint subject idempotencyKey => exact ⟨_, by simp [recordKey, recordTag]; rfl⟩
  | lease => exact ⟨_, by simp [leaseKey, recordTag]; rfl⟩
  | token t => exact ⟨_, by simp [tokenKey, recordTag]; rfl⟩

theorem bucket_eq_append (id : Ident) (a : Algo.Algorithm) (w : Algo.Window) (axes : List Text) :
    ∃ rest, bucket (ratePrefix id a w) axes = ascii "rl:v1:" ++ (domainTag id.scope ++ rest) :=
  ⟨_, by rw [bucket_ratePrefix, domainPrefix, List.append_assoc, List.append_assoc]; rfl⟩

theorem closeBrace_not_mem_slotTag (s : Key.Scope) : closeBrace ∉ slotTag s := by
  simp only [slotTag, List.mem_append, List.mem_cons, not_or]
  exact ⟨closeBrace_not_mem_escape _, by decide, closeBrace_not_mem_escape _⟩

theorem hashTag_domainTag {s : Key.Scope} {pre rest : Text} (hpre : openBrace ∉ pre) :
    hashTag (pre ++ (domainTag s ++ rest)) = some (slotTag s) := by
  have htag : domainTag s ++ rest = openBrace :: (slotTag s ++ closeBrace :: rest) := by
    simp [domainTag, slotTag]
  rw [htag]
  exact hashTag_append hpre (closeBrace_not_mem_slotTag s)

theorem slotTag_injective : Function.Injective slotTag := by
  intro s s' h
  obtain ⟨hns, hdom⟩ := Library.append_sep_inj (slash_not_mem_escape _) (slash_not_mem_escape _) h
  exact Key.Scope.ext (escape_injective hns) (escape_injective hdom)

/-- All keys of a domain have one hash tag, which is not empty and no other domain's, and
no counter is kept under the key of a record, a lease or a token. -/
theorem domain_is_one_slot (std : Stdlib) (s s' : Key.Scope) :
    (slotTag s ≠ [] ∧ (slotTag s = slotTag s' → s = s')) ∧
    (∀ id a w axes, id.scope = s → hashTag (bucket (ratePrefix id a w) axes) = some (slotTag s)) ∧
    (∀ k, CommandKey std s k → hashTag k = some (slotTag s)) ∧
    (∀ k, hashTag k = some (slotTag s) → hasHashTag k = true) ∧
    ∀ id a w axes k, id.scope = s → CommandKey std s' k → bucket (ratePrefix id a w) axes ≠ k := by
  have hne : slotTag s ≠ [] := by simp [slotTag]
  refine ⟨⟨hne, fun h => slotTag_injective h⟩, ?_, ?_, ?_, ?_⟩
  · rintro id a w axes rfl
    obtain ⟨rest, hrest⟩ := bucket_eq_append id a w axes
    rw [hrest, hashTag_domainTag (by decide)]
  · intro k hk
    obtain ⟨rest, rfl⟩ := hk.eq_append
    exact hashTag_domainTag (by decide)
  · exact fun k hk => hasHashTag_iff.mpr ⟨_, hk, hne⟩
  · intro id a w axes k _ hk heq
    obtain ⟨rest, hrest⟩ := bucket_eq_append id a w axes
    obtain ⟨rest', rfl⟩ := hk.eq_append
    have hthird := congrArg (·[2]?) (hrest.symm.trans heq)
    exact absurd hthird (by simp [ascii]; decide)

end Ratelimit.Management
