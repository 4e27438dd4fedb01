import Nflambda.Base.Transition
import Nflambda.Base.Ledger
import Nflambda.Base.Index
import Nflambda.Runtime.Common
import Nflambda.Runtime.GenericDecomposed
import Nflambda.Runtime.Config
import Nflambda.Runtime.Cli
import Nflambda.Runtime.Worker
import Nflambda.Runtime.Taken
import Nflambda.Runtime.Ownership
import Nflambda.Runtime.Conservation
import Nflambda.Base.Waiting
import Nflambda.Runtime.Pool
import Nflambda.Runtime.Deadlock
import Nflambda.Base.Decimal
import Nflambda.Base.Tokens
import Nflambda.Director.Command
import Nflambda.Deploy.RoundTrip
import Nflambda.Base.Grid
import Nflambda.Director.Graph
import Nflambda.Director.Tables
import Nflambda.Director.Wiring
import Nflambda.Director.OwnWiring
import Nflambda.Director.UpdateDeployment
import Nflambda.Deploy.Effect
import Nflambda.Deploy.Mirror
import Nflambda.Deploy.Confinement
import Nflambda.Director.Buckets
import Nflambda.Base.Binary64
import Nflambda.Chain.NfModel
import Nflambda.Chain.Platform
import Nflambda.Chain.Registry
import Nflambda.Base.Loops
import Nflambda.Deploy.Served
import Nflambda.Deploy.GraphBuckets
import Nflambda.Deploy.ChainBuckets
import Nflambda.Runtime.Routes
import Nflambda.Deploy.Planned
import Nflambda.Deploy.Route
import Nflambda.Runtime.MessageLoop
import Nflambda.Runtime.Frequency
import Nflambda.Runtime.GenericMono
import Nflambda.Runtime.Reconfigure
import Nflambda.Runtime.FlowTable
import Nflambda.Director.Merge
import Nflambda.Runtime.FlowMapper
import Nflambda.Chain.Executions
import Nflambda.Chain.Composition
import Nflambda.Chain.Connected
import Nflambda.Chain.Composed
import Nflambda.Chain.StateExecutions
import Nflambda.Chain.Registered
import Nflambda.Chain.Uniform
import Nflambda.Chain.Routes
import Nflambda.Deploy.ChainRoutes
import Nflambda.Runtime.DecomposedLb
import Nflambda.Deploy.Functions
import Nflambda.Deploy.Planners
import Nflambda.Base.Periodic
import Nflambda.Deploy.Probability
import Nflambda.Runtime.RoundRobin
import Nflambda.Runtime.Transmit
import Nflambda.Runtime.FlowCounters
import Nflambda.Runtime.SsLb
import Nflambda.Runtime.MonoLb
import Nflambda.Runtime.StateInit
import Nflambda.Runtime.Dispatch
import Nflambda.Runtime.PacketOut
import Nflambda.Runtime.Modulus
import Nflambda.Runtime.CliSafety
import Nflambda.Runtime.FlowKeys
import Nflambda.Deploy.Resend
import Nflambda.Base.Padded
import Nflambda.Deploy.PathLists
import Nflambda.Base.Blocks
import Nflambda.Runtime.ElementSet
import Nflambda.Runtime.SetSplit
import Nflambda.Runtime.CoreAssignment
import Nflambda.Runtime.ExecutionModel
import Nflambda.Director.RuntimeTables
import Nflambda.Base.Dealing
import Nflambda.Chain.NfInstanceExecution
import Nflambda.Chain.LayerConnection
import Nflambda.Chain.Placement
import Nflambda.Base.Stations
import Nflambda.Base.Overtaking
import Nflambda.Base.Service
import Nflambda.Runtime.Overtaking
import Nflambda.Runtime.Draining
import Nflambda.Runtime.Exhaustion
import Nflambda.Base.Streams
import Nflambda.Runtime.Conn
import Nflambda.Deploy.Session
import Nflambda.Deploy.Requests
import Nflambda.Deploy.Environment
import Nflambda.Base.Rounds
import Nflambda.Deploy.Delivery
import Nflambda.Runtime.Trapped
import Nflambda.Runtime.Crossing
import Nflambda.Deploy.Processing
import Nflambda.Deploy.Blocked
