import Noxy.Lib.Base64
import Noxy.Lib.Checks
import Noxy.Lib.Deflate
import Noxy.Lib.Fallible
import Noxy.Lib.Float64
import Noxy.Lib.Pattern
import Noxy.Lib.Utf8
import Noxy.Lib.Glob
import Noxy.Lib.GlobMatch
import Noxy.Lib.GlobParse
import Noxy.Lib.GlobSubtree
import Noxy.Lib.GlobWidth
import Noxy.Lib.HashMap
import Noxy.Lib.Innermost
import Noxy.Lib.JsNumber
import Noxy.Lib.OrderedMap
import Noxy.Lib.Run
import Noxy.Lib.Reach
import Noxy.Lib.Records
import Noxy.Lib.Redis
import Noxy.Lib.Replace
import Noxy.Lib.VirtualScheduling
import Noxy.Lib.Shaper
import Noxy.Lib.Turns
import Noxy.Lib.Utf16
import Noxy.Lib.Utf8Sequence
import Noxy.Lib.Windows
import Noxy.Lib.WorstStretch
import Noxy.Http.Message
import Noxy.Http.Body
import Noxy.Http.Forward
import Noxy.Http.HopByHop
import Noxy.Http.LowerCase
import Noxy.Http.Text
import Noxy.Http.Upgrade
import Noxy.Http.Uri
import Noxy.Store.Keyed
import Noxy.Store.SoftCap
import Noxy.Store.Caps
import Noxy.RateLimiter.TokenBucket
import Noxy.RateLimiter.State
import Noxy.RateLimiter.Checked
import Noxy.RateLimiter.Overdraft
import Noxy.RateLimiter.Cleanup
import Noxy.RateLimiter.Redis
import Noxy.RateLimiter.RedisExpiry
import Noxy.RateLimiter.Restarts
import Noxy.RateLimiter.Fleet
import Noxy.RateLimiter.FleetBound
import Noxy.RateLimiter.Stack
import Noxy.SlidingWindow.State
import Noxy.SlidingWindow.Deque
import Noxy.SlidingWindow.Alone
import Noxy.SlidingWindow.Follows
import Noxy.SlidingWindow.Checked
import Noxy.SlidingWindow.Cleanup
import Noxy.SlidingWindow.HardCap
import Noxy.SlidingWindow.Redis
import Noxy.SlidingWindow.RedisRefinement
import Noxy.SlidingWindow.Representation
import Noxy.CircuitBreaker.State
import Noxy.CircuitBreaker.OpenPeriod
import Noxy.CircuitBreaker.Admitted
import Noxy.CircuitBreaker.Alone
import Noxy.CircuitBreaker.Redis
import Noxy.CircuitBreaker.LocalCache
import Noxy.CircuitBreaker.CacheSteps
import Noxy.CircuitBreaker.OpenInRedis
import Noxy.CircuitBreaker.CachedOpen
import Noxy.CircuitBreaker.Service
import Noxy.CircuitBreaker.Slots
import Noxy.CircuitBreaker.Episodes
import Noxy.CircuitBreaker.Fallback
import Noxy.CircuitBreaker.FallbackSlots
import Noxy.CircuitBreaker.Isolation
import Noxy.CircuitBreaker.RedisExpiry
import Noxy.CircuitBreaker.RedisRefinement
import Noxy.CircuitBreaker.StaleInsert
import Noxy.Retry.Capture
import Noxy.Retry.Policy
import Noxy.Retry.Service
import Noxy.Retry.Replay
import Noxy.Retry.Agreement
import Noxy.Retry.Backoff
import Noxy.Retry.Budget
import Noxy.Retry.Failover
import Noxy.Retry.Forwarded
import Noxy.Bandwidth.Throttle
import Noxy.Bandwidth.Rate
import Noxy.Bandwidth.SizeHint
import Noxy.ContentDecoder.Service
import Noxy.ContentDecoder.Stored
import Noxy.ModifyHeaders.Service
import Noxy.ModifyHeaders.Order
import Noxy.TrafficLogger.Service
import Noxy.TrafficLogger.Writer
import Noxy.TrafficLogger.ReadBack
import Noxy.TrafficLogger.Redaction
import Noxy.UrlRewrite.Expand
import Noxy.UrlRewrite.Rule
import Noxy.UrlRewrite.Template
import Noxy.UrlRewrite.Service
import Noxy.UrlRewrite.Query
import Noxy.Script.Headers
import Noxy.Script.Runtime
import Noxy.Script.Isolate
import Noxy.Script.Tidy
import Noxy.Script.Apart
import Noxy.Script.EncodeUtf8
import Noxy.Script.Identity
import Noxy.Script.Unpaired
import Noxy.Proxy.AcceptLoop
import Noxy.Proxy.Authentication
import Noxy.Proxy.Router
import Noxy.Proxy.Builder
import Noxy.Proxy.BlockList
import Noxy.Proxy.Handshake
import Noxy.Proxy.HostCase
import Noxy.Proxy.IdleWatchdog
import Noxy.Proxy.LoopMap
import Noxy.Proxy.Lifecycle
import Noxy.Proxy.RelayBytes
import Noxy.Proxy.RoundRobin
import Noxy.Proxy.Unserved
import Noxy.Proxy.ShutdownDrain
import Noxy.Proxy.Tunnels
import Noxy.Config.Rule
import Noxy.Config.Match
import Noxy.Config.Walk
import Noxy.Config.Emit
import Noxy.Config.Tree
import Noxy.Config.WalkSpec
import Noxy.Config.Shadowing
import Noxy.Config.ListenerTree
import Noxy.Config.Listeners
import Noxy.Config.Chain
import Noxy.Config.Durations
import Noxy.Config.Middleware
import Noxy.Config.Compile
import Noxy.Config.Checks
import Noxy.Config.Disturbance
import Noxy.Config.Faithful
import Noxy.Config.Panics
import Noxy.Config.RedisKeys
import Noxy.Config.HostKeys
import Noxy.Config.Limiters
import Noxy.Config.ListenerShadowing
import Noxy.Config.PathGlob
import Noxy.Config.RedisIsolation
import Noxy.Config.Routes
import Noxy.Config.RuleShift
import Noxy.Config.RuleInsertion
import Noxy.Main.Cli
import Noxy.Main.Flags
import Noxy.Main.Supervisor
import Noxy.Main.Supervised
import Noxy.Main.WayOut
