import Praxis.Admission.Lines
import Praxis.Balancing.Hashed
import Praxis.Balancing.LeastConnections
import Praxis.Balancing.SlowStart
import Praxis.Body.Delivery
import Praxis.Circuit.Protocol
import Praxis.Circuit.Registry
import Praxis.Egress.Connector
import Praxis.Grpc.Timeout
import Praxis.Headers.Forwarded
import Praxis.Hyper.Buffered
import Praxis.Iterative.Transitions
import Praxis.JsonOps.Duplicates
import Praxis.JsonOps.Effects
import Praxis.JsonOps.Scan
import Praxis.LoadBalancer.Accounting
import Praxis.Pipeline.Binding
import Praxis.Pipeline.Isolation
import Praxis.Pipeline.Iterations
import Praxis.Pipeline.Levels
import Praxis.Pipeline.Security
import Praxis.Pipeline.SelectedUpstream
import Praxis.RateLimit.PerIp
import Praxis.Reload.Guards
import Praxis.Retry.Budget
import Praxis.Rewrite.Path
import Praxis.Router.Pending
import Praxis.Sni.Exact
import Praxis.Sni.Peek
import Praxis.Sse.Limits
import Praxis.Sse.RoundTrip
