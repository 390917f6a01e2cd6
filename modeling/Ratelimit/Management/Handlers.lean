import Ratelimit.Compile.Accepted
import Ratelimit.Management.AddressedReset

/-!
# Replicas that serve both mutations

Any number of calls, on any replicas, run interleaved against one store.
-/
namespace Ratelimit.Management

open Library Records Compile

inductive Call where
  | bulk (c : BulkCall)
  | reset (c : ResetCall)

inductive Answer where
  | bulk (r : Response BulkResult)
  | reset (r : Response ResetResponse)
  deriving DecidableEq

def handle (std : Stdlib) : Call → Client Answer
  | .bulk c => do
    let r ← handleBulkReset std c
    pure (.bulk r)
  | .reset c => do
    let r ← handleReset std c
    pure (.reset r)

abbrev Replicas := World Db Call Reply Oracle Env Answer

abbrev Schedule := List (Choice Call Oracle Env)

/-- The store and the calls after a schedule, from an empty store. -/
def serve (std : Stdlib) (cs : Schedule) : Replicas :=
  steps redis (handle std) (World.init Db.empty) cs

section Sample

def sampleSums : List (Text × Text) :=
  [(ascii "\x7b\"axes\":\x7b\"tenant\":[\"acme\"]\x7d\x7d",
    ascii "759aaaea1d81947a3e13873a32be211b997173ff20ff75738d42789e69f73639"),
   (ascii "\x7b\"axes\":\x7b\"tenant\":[\"globex\"]\x7d\x7d",
    ascii "5750cb1add4ea3f77d7f3c5a5748999e97d50afdb830a5085e34ec27216bef1a"),
   (ascii "\x7b\"axes\":\x7b\"tenant\":[\"Acme\"]\x7d\x7d",
    ascii "15017669d5a79b30e932108fa0ff97d68ddce6a0aebc48b993204c737b789696"),
   (ascii "\x7b\"selector\":\x7b\"ruleIds\":[\"orders/tenant\"]\x7d\x7d",
    ascii "24113eef068d26b55a2f6196095577b217477fafa8872bf434efa11a4dbba709"),
   (ascii "alice" ++ 0 :: ascii "k-1",
    ascii "5df56b4bfaa6029d3c849f45ef74e532372bbd87b35728a3b67e0d31b638fecc"),
   (ascii "alice" ++ 0 :: ascii "k-2",
    ascii "a96e48002229a81cb5d1271a676a28e4c5c7d80a9dc73e923b4c09e8f3cab45d"),
   (ascii "alice" ++ 0 :: ascii "k-3",
    ascii "d5966e43d826a7b74b2b6fb14a5fc6d0e5231e0034e3cd503290d750ffb2cad9"),
   (ascii "alice" ++ 0 :: ascii "k-4",
    ascii "1f1dc2bda8c020acf16481deea0c3c2a610515d621e398b169a109e01c01d5f0"),
   (ascii "\x7b\"kind\":\"preview-selector\",\"domain\":\"shop\",\"selector\":\x7b\"axes\":\x7b\"tenant\":[\"acme\"]\x7d\x7d,\"dryRun\":true\x7d",
    ascii "28fda5e99804f5ace40259a048f66092274708c1afcf15d62580d855bccc4dff"),
   (ascii "\x7b\"kind\":\"preview-selector\",\"domain\":\"shop\",\"selector\":\x7b\"axes\":\x7b\"tenant\":[\"Acme\"]\x7d\x7d,\"dryRun\":true\x7d",
    ascii "aeca508f35b5168759d3b6a82bd753827c4fe6b4894e5ef38b604dd809898535"),
   (ascii "\x7b\"kind\":\"preview-selector\",\"domain\":\"shop\",\"selector\":\x7b\"axes\":\x7b\"tenant\":[\"globex\"]\x7d\x7d,\"dryRun\":true\x7d",
    ascii "080775798f67c6c393d8b02adcf1cd590566f519beefb80d42633d3d5b898433"),
   (ascii "\x7b\"kind\":\"execute-selector\",\"domain\":\"shop\",\"selector\":\x7b\"axes\":\x7b\"tenant\":[\"acme\"]\x7d\x7d,\"confirmationToken\":\"ct-0123456789ab\"\x7d",
    ascii "0aafe26dc402adfeb3a8f8fb85a95caa1b862c916b27c7e03c632f1c15c0c259"),
   (ascii "\x7b\"kind\":\"execute-selector\",\"domain\":\"shop\",\"selector\":\x7b\"axes\":\x7b\"tenant\":[\"globex\"]\x7d\x7d,\"confirmationToken\":\"ct-0123456789ac\"\x7d",
    ascii "204556cd3f80b3f54d232dc648fea6ad33245b24a7a2bee266b29eddd4904a65")]

def sampleSum (t : Text) : Text := ((sampleSums.lookup t).getD []).takeD 64 (byte '0')

def sampleStdlib : Stdlib where
  digest j := sampleSum (Json.marshal j)
  digest_length _ := List.takeD_length _ _ _
  sum := sampleSum
  toLower := Strings.toLowerAscii
  parseDuration _ := none

theorem prod_ne_nil : ascii "prod" ≠ [] := by decide

theorem shop_ne_nil : ascii "shop" ≠ [] := by decide

def shopScope : Key.Scope := ⟨ascii "prod", ascii "shop", prod_ne_nil, shop_ne_nil⟩

/-- The call that comes after so many others. -/
def shopCall (served : Served (ascii "shop")) (request : BulkResetRequest) (key : Text)
    (others : Byte) : BulkCall where
  scope := shopScope
  served := some served
  subject := ascii "alice"
  idempotencyKey := key
  body := .ok request
  fencing := (byte '1' + others) :: ascii "f"
  fencing_ne := List.cons_ne_nil _ _
  tokenID := ascii "0123456789a" ++ [byte 'b' + others]
  errorID := ascii "e-1"
  fuel := 3

def tenantPolicy (normalization : Model.Normalize) (counters : List Text) : Model.Policy :=
  { domain := ascii "shop"
    mappings := [{ key := ascii "tenant", claim := ascii "tenant_id", normalization }]
    blocks := [
      { name := ascii "orders"
        rules := [
          { name := ascii "tenant", predicates := [⟨ascii "tenant", .exist, [], []⟩], counters
            rates := [⟨10, 60 * Algo.second, 0, []⟩] }] }] }

theorem policyShop_domain (p : Model.Policy) : (compileShop p).1.domain = ascii "shop" :=
  compile_domain _ _ _

def policyShop (p : Model.Policy) (version : Text) : Served (ascii "shop") :=
  ⟨(compileShop p).1, version, policyShop_domain p⟩

def idle : Oracle := ⟨([], []), 0⟩

/-- The tenants of the shop are counted in lower case. -/
def tenantShop : Served (ascii "shop") :=
  policyShop (tenantPolicy .lowercase [ascii "tenant"]) (ascii "v1")

def tenantSelector (tenant : Text) : Selector :=
  ⟨[], [], 0, Finmap.singleton (ascii "tenant") [tenant], false⟩

def resetTenant (tenant : Text) (dryRun : Option Bool) (token : Text) : BulkResetRequest :=
  ⟨some ⟨[], [], [], Finmap.singleton (ascii "tenant") [tenant], none⟩, [], dryRun, token⟩

def previewTenant (tenant key : Text) (others : Byte) : BulkCall :=
  shopCall tenantShop (resetTenant tenant (some true) []) key others

def executeTenant (tenant token key : Text) (others : Byte) : BulkCall :=
  shopCall tenantShop (resetTenant tenant none token) key others

def tenantCounter (tenant : Text) : Text :=
  ascii "rl:v1:\x7bprod/shop\x7d:orders/tenant:gcra:60:" ++ tenant ++ ascii ":"

def tenantBucket (tenant : Text) : Store.Bucket :=
  ⟨tenantCounter tenant, Algo.Algorithm.gcra.id, ⟨10, 60 * Algo.second, 10⟩, false, 1⟩

/-- The scan finds the counter of the tenant. -/
def finding (tenant : Text) : Oracle := ⟨([tenantCounter tenant], []), 0⟩

def turns (i n : ℕ) (o : Oracle) : Schedule := List.replicate n (.serve i o)

def retriedPreview : Schedule :=
  .spawn (.bulk (previewTenant (ascii "acme") (ascii "k-1") 0)) :: turns 0 10 idle ++
    .spawn (.bulk (previewTenant (ascii "acme") (ascii "k-1") 1)) :: turns 1 3 idle

def tenantsPreviewed : Schedule :=
  .env (.traffic (.decide [tenantBucket (ascii "acme")])) ::
    .env (.traffic (.decide [tenantBucket (ascii "globex")])) ::
    .spawn (.bulk (previewTenant (ascii "acme") (ascii "k-1") 0)) ::
    .spawn (.bulk (previewTenant (ascii "globex") (ascii "k-2") 1)) ::
    (turns 0 12 (finding (ascii "acme")) ++ turns 1 12 (finding (ascii "globex")))

/-- The second deletion starts while the first one holds the lease. -/
def tenantsDeleted : Schedule :=
  tenantsPreviewed ++
    .spawn (.bulk (executeTenant (ascii "acme") (ascii "ct-0123456789ab") (ascii "k-3") 2)) ::
    .spawn (.bulk (executeTenant (ascii "globex") (ascii "ct-0123456789ac") (ascii "k-4") 3)) ::
    (turns 2 8 (finding (ascii "acme")) ++ turns 3 3 (finding (ascii "globex")) ++
      turns 2 3 (finding (ascii "acme")) ++ turns 3 8 (finding (ascii "globex")))

def acmeDeletion : BulkCall :=
  executeTenant (ascii "acme") (ascii "ct-0123456789ab") (ascii "k-3") 1

/-- The deletion of one counter, confirmed by a preview and served as `swept` has it. -/
def acmeDeleted (swept : Schedule) : Schedule :=
  .env (.traffic (.decide [tenantBucket (ascii "acme")])) ::
    .spawn (.bulk (previewTenant (ascii "acme") (ascii "k-1") 0)) ::
    (turns 0 12 (finding (ascii "acme")) ++ .spawn (.bulk acmeDeletion) :: swept)

def resetOrders (served : Served (ascii "shop")) : ResetCall where
  scope := shopScope
  served := some served
  subject := ascii "alice"
  idempotencyKey := ascii "k-1"
  query := Finmap.singleton (ascii "ruleId") [ascii "orders/tenant"]

/-- Two replicas that both miss the record of a reset, and then both send it. -/
def racingResets (first second : Served (ascii "shop")) : Schedule :=
  .spawn (.reset (resetOrders first)) :: .spawn (.reset (resetOrders second)) ::
    (turns 0 3 idle ++ turns 1 3 idle ++ turns 0 1 idle ++ turns 1 1 idle)

end Sample

end Ratelimit.Management
