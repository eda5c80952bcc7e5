import NervFS.Lib.Transitions
import NervFS.Lib.Programs
import NervFS.Sections
import NervFS.NameLocks
import NervFS.FailedUploads
import NervFS.Serialization
import NervFS.WholeFiles
import NervFS.RecordLocks
import NervFS.SharedDirectory
import NervFS.OneOwner
import NervFS.IdleClients
import NervFS.LoopReads
import NervFS.FdSets
import NervFS.Parsers
import NervFS.PendingWriters
import NervFS.Wakeups
import NervFS.BridgeFrames
import NervFS.BridgeReader
import NervFS.Listings
import NervFS.CommandFrames
import NervFS.Replies
import NervFS.LargeFiles
import NervFS.BridgeNames
import NervFS.Existence
import NervFS.ResponseShapes
import NervFS.Signals
import NervFS.Resolver
import NervFS.ExitPaths
import NervFS.ShortWrites
import NervFS.CutResponses
import NervFS.BridgeStreams
import NervFS.Framing
import NervFS.CommandSafety
import NervFS.HeaderCodecs
import NervFS.UploadForm
import NervFS.FailedAcquires
import NervFS.Downloads
import NervFS.AdminTokens
import NervFS.Completion
import NervFS.ConcurrentCatalog
import NervFS.Conversations
import NervFS.Contents
import NervFS.ConcurrentListings
import NervFS.Frontend
import NervFS.Terminal
