import Levin.Proof.Connection.Shutdown
import Levin.Proof.Connection.Receive
import Levin.Proof.Connection.Http1
import Levin.Proof.Connection.Responses
import Levin.Proof.Connection.Silence
import Levin.Proof.Connection.Batch
import Levin.Proof.Connection.Removal
import Levin.Proof.Http1.Body
import Levin.Proof.Http1.Framing
import Levin.Proof.Http1.Head
import Levin.Proof.Http2.Delivery
import Levin.Proof.Http2.PushDelivery
import Levin.Proof.Serialisation
import Levin.Framework.Interleave
import Levin.Proof.Http2.Streams
import Levin.Proof.Http2.Reader
import Levin.Proof.Http2.Demultiplexing
import Levin.Proof.Http2.ReceiveWindow
import Levin.Core.Parsers.HttpTools
import Levin.Core.Server
import Levin.Core.Manage
import Levin.Components.Wrappers
import Levin.Components.ProfileTasks
import Levin.Components.TimeLimit
import Levin.Proof.Components.TimeLimit
import Levin.Proof.Components.ProfileTasks
import Levin.Proof.Negotiation
import Levin.Proof.Components.Arguments
import Levin.Proof.Components.Profiling
import Levin.Framework.Chain
import Levin.Core.Component
import Levin.Core.Application
import Levin.Proof.Application.Chain
import Levin.Proof.Application.Lifecycle
import Levin.Proof.Application.Configure
import Levin.Components.Router
import Levin.Proof.Router.Matching
import Levin.Proof.Router.Resolution
import Levin.Proof.Router.Slash
import Levin.Proof.Router.Urls
import Levin.Proof.Router.Recovery
import Levin.Proof.Scope
import Levin.Proof.ScopeTrace
import Levin.Proof.ScopeLaw
import Levin.Components.Common
import Levin.Components.Default
import Levin.Proof.Components.PatchRequest
import Levin.Proof.Router.Captures
import Levin.Framework.Url
import Levin.Framework.Lock
import Levin.Framework.Await
import Levin.Framework.Descent
import Levin.Proof.Components.QueryString
import Levin.Proof.Components.ContentType
import Levin.Components.Formating
import Levin.Proof.Components.JsonRoundTrip
import Levin.Proof.Components.Templates
import Levin.Proof.Http2.Suspension
import Levin.Proof.Http2.Resets
import Levin.Proof.Manage
import Levin.Proof.Headers
import Levin.Proof.Http1.Fragments
import Levin.Proof.Router.Listing
import Levin.Proof.Application.Order
import Levin.Proof.RunApps
import Levin.Components.H2
import Levin.Proof.Components.Pushes
import Levin.Proof.Components.PushTemplates
import Levin.Utils.Profile
import Levin.Proof.Profile.Records
import Levin.Framework.Keyed
import Levin.Proof.Profile.Lines
import Levin.Proof.Profile.Restoring
import Levin.Proof.Profile.GetLines
import Levin.Proof.Profile.Closing
import Levin.Proof.Profile.Counting
import Levin.Proof.Profile.Entries
import Levin.Framework.Exchange
import Levin.Proof.Connection.Wire
import Levin.Core.Connections
import Levin.Proof.Connection.Alike
import Levin.Proof.Connection.Isolation
import Levin.Proof.Connection.Failures
import Levin.Proof.Connection.Exchange
import Levin.Proof.Connection.Http2
import Levin.Proof.Http2.Outbox
import Levin.Proof.Connection.Streams
import Levin.Proof.Connection.Answered
import Levin.Proof.Application.Serving
import Levin.Proof.Components.Rendering
import Levin.Framework.Headings
import Levin.Proof.Profile.Printing
import Levin.Framework.Finishers
import Levin.Proof.Components.Formatters
import Levin.Components.Answers
import Levin.Proof.Components.Containment
import Levin.Proof.Application.Served
