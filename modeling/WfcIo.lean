import WfcIo.Foundation.Run
import WfcIo.Foundation.OrderedMap
import WfcIo.Foundation.Ledger
import WfcIo.Foundation.Interleave
import WfcIo.Foundation.History
import WfcIo.Foundation.Bracket
import WfcIo.Foundation.Jobs
import WfcIo.Foundation.Simulation
import WfcIo.Foundation.Cursor
import WfcIo.Foundation.Tickets
import WfcIo.Foundation.Cascade
import WfcIo.Foundation.Rotation
import WfcIo.Foundation.Signed
import WfcIo.Foundation.Walk
import WfcIo.Foundation.Conservation
import WfcIo.Foundation.Session
import WfcIo.Foundation.Flood
import WfcIo.Foundation.Order
import WfcIo.Foundation.Serials
import WfcIo.Foundation.Tenancy
import WfcIo.Interface
import WfcIo.Client.Adapter
import WfcIo.Client.Calls
import WfcIo.Client.Binding
import WfcIo.Client.Map
import WfcIo.Client.Ownership
import WfcIo.Client.Lifecycle
import WfcIo.Client.Pools
import WfcIo.Client.Holders
import WfcIo.Client.Registrations
import WfcIo.Client.Isolation
import WfcIo.Client.Leaks
import WfcIo.Client.Unpooled
import WfcIo.Client.Upsert
import WfcIo.Client.Threads
import WfcIo.Client.ClientTcp
import WfcIo.Client.WaitList
import WfcIo.Client.StartRace
import WfcIo.Client.Notices
import WfcIo.Client.Unhandled
import WfcIo.Client.Answers
import WfcIo.Client.Options
import WfcIo.Client.Requests
import WfcIo.Client.Tenants
import WfcIo.Broker.Broker
import WfcIo.Broker.Routing
import WfcIo.Broker.Handover
import WfcIo.Broker.Table
import WfcIo.Hub.Hub
import WfcIo.Hub.Brackets
import WfcIo.Hub.Membership
import WfcIo.Hub.Broadcast
import WfcIo.Hub.Loop
import WfcIo.Statistics.Statistics
import WfcIo.Statistics.Transparency
import WfcIo.Queue.Queue
import WfcIo.Queue.Accounting
import WfcIo.Queue.Answers
import WfcIo.Server.Server
import WfcIo.Server.Endpoints
import WfcIo.Statistics.Timers
import WfcIo.Server.Connection
import WfcIo.Tank.Tank
import WfcIo.Tank.Check
import WfcIo.Tank.Expectations
import WfcIo.Tank.CallIds
import WfcIo.Tank.Counter
import WfcIo.Tank.Variables
import WfcIo.Tank.Examiner
import WfcIo.Pipeline.Component
import WfcIo.Pipeline.Pipeline
import WfcIo.Pipeline.Stage
import WfcIo.Pipeline.Line
import WfcIo.Pipeline.Endings
import WfcIo.Pipeline.Sessions
import WfcIo.Pipeline.Gateway
import WfcIo.Pipeline.Accounts
import WfcIo.Pipeline.Tree
import WfcIo.Pipeline.Flooding
import WfcIo.Pipeline.Replies
import WfcIo.Pipeline.Order
import WfcIo.Pipeline.Returns
import WfcIo.Pipeline.Confinement
import WfcIo.Pipeline.Draining
