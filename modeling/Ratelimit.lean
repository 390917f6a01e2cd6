import Ratelimit.Engine.Shadow
import Ratelimit.Match.Refinement
import Ratelimit.Store.AllOrNothing
import Ratelimit.Store.OverAdmission
import Ratelimit.Engine.Overrides
import Ratelimit.Management.Exclusion
import Ratelimit.Management.Confirmation
import Ratelimit.Management.Retry
import Ratelimit.Management.SweepReach
import Ratelimit.Operator.LastGood
import Ratelimit.Config.Torn
import Ratelimit.Operator.Ready
import Ratelimit.Ruleview.Enforced
import Ratelimit.Management.Shadowing
import Ratelimit.Match.QueryRule
import Ratelimit.Rls.Axes
import Ratelimit.Rls.RetryHint
import Ratelimit.Engine.EffectiveWindow
import Ratelimit.Records.Parity
import Ratelimit.Rls.InRange
import Ratelimit.Management.Sharpening
import Ratelimit.Management.Binding
import Ratelimit.Engine.Forms
import Ratelimit.Management.RepeatedKeys
import Ratelimit.Management.ResetCount
import Ratelimit.Management.PageWalk
import Ratelimit.Management.Paging
import Ratelimit.Engine.Outcomes
import Ratelimit.Engine.PayloadShape
import Ratelimit.Management.Slots
import Ratelimit.Match.Templates
import Ratelimit.Engine.Lasting
