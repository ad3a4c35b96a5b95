import ZeroServer.Http1.Codings
import ZeroServer.Http1.ChunkedRoundTrip
import ZeroServer.Http.Trailers
import ZeroServer.Http.Stream
import ZeroServer.Http.Core
import ZeroServer.Http.Closing
import ZeroServer.Rt.SlotProtocol
import ZeroServer.Uri.Stack
import ZeroServer.Realtime.Accounts
import ZeroServer.Realtime.Fifo
import ZeroServer.Realtime.SingleUse
import ZeroServer.Router.Methods
import ZeroServer.Router.Refused
import ZeroServer.Router.Mounts
import ZeroServer.Host.ErrorBody
import ZeroServer.Host.Targets
import ZeroServer.Http.HeadLines
import ZeroServer.H3.Capsule
import ZeroServer.H3.Control
import ZeroServer.Qpack.Oversize
import ZeroServer.Sse.Interpret
import ZeroServer.Json.Calls
import ZeroServer.Static.Accepted
import ZeroServer.Static.Cache
import ZeroServer.Static.Echo
import ZeroServer.Policy.BodyLimit
import ZeroServer.Policy.Written
import ZeroServer.Tls.Identity
import ZeroServer.Host.Sharing
import ZeroServer.Ws.Client
import ZeroServer.Ws.Wire
import ZeroServer.Mime.Negotiation
import ZeroServer.Tls.HelloText
import ZeroServer.Io.Clock
import ZeroServer.Base64.Codec
import ZeroServer.Simd.Kernels
