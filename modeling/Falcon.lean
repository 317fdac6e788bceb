import Falcon.Lib.Loop
import Falcon.Lib.Dag
import Falcon.Graph.Core
import Falcon.Graph.Links
import Falcon.Lib.Count
import Falcon.Build.Plan
import Falcon.Graph.Hash
import Falcon.Graph.Depfile
import Falcon.Build.Finish
import Falcon.Build.Builder
import Falcon.Build.Ongoing
import Falcon.Build.Run
import Falcon.Build.Scheduling
import Falcon.Build.LazyCache
import Falcon.Graph.Rehash
import Falcon.Graph.SelfDepfile
import Falcon.Build.LazyBuild
import Falcon.Graph.Anchored
import Falcon.Daemon.SetDirty
import Falcon.Daemon.HalfDirty
import Falcon.Parser.Makefile
import Falcon.Parser.WellFormed
import Falcon.Parser.Cycle
import Falcon.Stream.Server
import Falcon.Stream.Delivery
import Falcon.Graph.Coherent
import Falcon.Build.CleanBuild
import Falcon.Cache.Keys
import Falcon.Build.Incremental
import Falcon.Daemon.Incremental
import Falcon.Cache.GitDirectory
import Falcon.Cache.GitRefs
import Falcon.Cache.Retention
import Falcon.Build.Complete
import Falcon.Stream.Bookkeeping
import Falcon.Graph.Scan
import Falcon.Graph.Checker
import Falcon.Graph.Stale
import Falcon.Daemon.Startup
import Falcon.Daemon.Reloader
import Falcon.Daemon.Unchanged
import Falcon.Graph.Loads
import Falcon.Graph.Settled
import Falcon.Graph.Terminates
import Falcon.Daemon.Acyclic
import Falcon.Daemon.Scratch
import Falcon.Build.Failure
import Falcon.Cache.Separation
import Falcon.Lib.JsonString
import Falcon.Stream.Payload
import Falcon.Stream.Chunks
import Falcon.Lib.Json
import Falcon.Stream.Document
import Falcon.Lib.Trace
import Falcon.Daemon.Admission
import Falcon.Build.SubProcesses
import Falcon.Daemon.External
import Falcon.Graph.Explicit
import Falcon.Graph.ScanHashes
import Falcon.Daemon.DepfileKey
import Falcon.Daemon.SourcesMissing
import Falcon.Build.Targets
import Falcon.Graph.Counted
import Falcon.Graph.Recount
import Falcon.Graph.Installs
import Falcon.Build.Topmost
import Falcon.Build.Consistent
import Falcon.Build.Progress
import Falcon.Daemon.ExactScan
import Falcon.Daemon.StaleTargets
import Falcon.Graph.Visits
import Falcon.Daemon.ScanCalls
import Falcon.Daemon.ImplicitInputs
import Falcon.Parser.Entries
import Falcon.Graph.Rejected
import Falcon.Graph.Roots
import Falcon.Parser.Grammar
import Falcon.Cache.FileSystem
import Falcon.Stream.Shutdown
import Falcon.Graph.CheckerSound
import Falcon.Graph.Reloads
import Falcon.Graph.LiveParents
import Falcon.Daemon.Watchman
import Falcon.Stream.Event
import Falcon.Lib.Feed
import Falcon.Parser.Libjson
import Falcon.Parser.Boundaries
import Falcon.Daemon.WatchmanClient
import Falcon.Daemon.WatchmanRequest
import Falcon.Daemon.WatchmanSession
import Falcon.Graph.DepfileNames
import Falcon.Graph.DepfileText
import Falcon.Build.BuildThread
import Falcon.Build.ThreadWrites
import Falcon.Lib.JsonEvents
import Falcon.Stream.BuildOutput
import Falcon.Stream.Polling
import Falcon.Stream.Archive
import Falcon.Daemon.Builds
