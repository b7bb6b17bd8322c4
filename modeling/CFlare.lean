import CFlare.Library.Machine
import CFlare.Library.Runs
import CFlare.Network.Socket
import CFlare.Network.SocketStream
import CFlare.Storage.LinkedList
import CFlare.Library.Keyed
import CFlare.Storage.Hashtable
import CFlare.Storage.LinkedListCells
import CFlare.Storage.HashtableEntries
import CFlare.Storage.HashtableMap
import CFlare.Hooks.Hook
import CFlare.Library.StableOrder
import CFlare.Hooks.HookOrder
import CFlare.Http.Headers
import CFlare.Http.Response
import CFlare.Http.ResponseBuffer
import CFlare.Http.Integer
import CFlare.Http.Request
import CFlare.Http.RequestBody
import CFlare.Http.RequestScan
import CFlare.Library.Simulation
import CFlare.Http.RequestHeaders
import CFlare.Http.RequestArrival
import CFlare.Http.RequestExtension
import CFlare.Http.RequestIndependence
import CFlare.Storage.LinkedListSequence
import CFlare.Storage.HashtableClients
import CFlare.Http.HeaderIdentity
import CFlare.Hooks.HookStack
import CFlare.Hooks.LogHook
import CFlare.Threads.RwMutex
import CFlare.Threads.Workers
import CFlare.Handles.Handle
import CFlare.Handles.HandleLifecycle
import CFlare.Http.QueryDecoding
import CFlare.Hooks.ConcurrentAdds
import CFlare.Http.ConnectionHeader
import CFlare.Http.ResponseText
import CFlare.Http.HandlerRun
import CFlare.Http.Persistence
import CFlare.Http.KeepAlive
import CFlare.Http.RequestShape
import CFlare.Http.RequestText
import CFlare.Http.RequestRoundTrip
import CFlare.Http.HeaderLines
import CFlare.Http.HeaderBlock
import CFlare.Http.HeaderValues
import CFlare.Http.DerivedFields
import CFlare.Http.HeaderContinuation
import CFlare.Http.ContentLength
import CFlare.Http.HeadDecoding
import CFlare.Http.AnnouncedBody
import CFlare.Http.SocketReads
import CFlare.Http.AbsoluteTarget
import CFlare.Http.ParserSteps
import CFlare.Http.SingleResponse
import CFlare.Storage.HashtableLoad
import CFlare.Storage.HashtableOwnership
import CFlare.Storage.LinkedListPositions
import CFlare.Storage.LinkedListTraversal
import CFlare.Network.SocketLines
import CFlare.Network.SocketWrites
import CFlare.Http.HttpStatus
import CFlare.Http.StatusLine
import CFlare.Storage.LinkedListDirections
import CFlare.Hooks.HookNames
import CFlare.Hooks.HookReentry
import CFlare.Hooks.HookStackReads
import CFlare.Handles.OwnedHandles
import CFlare.Http.ConcurrentEnsure
import CFlare.CommandLine.Options
import CFlare.CommandLine.OptionParsing
import CFlare.CommandLine.OptionValues
import CFlare.Http.IntegerGrammar
import CFlare.Http.IntegerValue
import CFlare.Http.UrlEscapes
import CFlare.Http.QueryBuffers
import CFlare.Http.QueryParameters
import CFlare.Http.HeaderFiles
import CFlare.Http.StatusLookup
import CFlare.Http.Hosts
import CFlare.Http.HostBookkeeping
import CFlare.System.Filesystem
import CFlare.System.FilesystemListing
import CFlare.Threads.LockSlots
import CFlare.Library.Framing
import CFlare.Library.Termination
import CFlare.Threads.Shutdown
import CFlare.Network.SocketLifetime
import CFlare.Network.Descriptors
import CFlare.Http.ResponseReading
import CFlare.Http.Connection
import CFlare.Http.PipelinedArrival
import CFlare.Http.Pipelining
import CFlare.Library.SharedLock
import CFlare.Storage.HashtableLocks
import CFlare.Http.RequestDispatch
import CFlare.Http.ServerLoad
import CFlare.Storage.PartBuffer
import CFlare.Handles.ConcurrentHandles
import CFlare.Storage.BucketPlacement
import CFlare.Hooks.HookUnload
import CFlare.Handles.HandleUnload
import CFlare.Library.Amortized
import CFlare.Storage.HashtableCost
