import Rustorr.Cache.Accounting
import Rustorr.Cache.ByteMap
import Rustorr.Cache.Demand
import Rustorr.Cache.DemandRuns
import Rustorr.Cache.Disk
import Rustorr.Cache.Eviction
import Rustorr.Cache.Extents
import Rustorr.Cache.FileSystem
import Rustorr.Cache.InFlight
import Rustorr.Cache.InFlightRuns
import Rustorr.Cache.InFlightWrites
import Rustorr.Cache.Layout
import Rustorr.Cache.Manifest
import Rustorr.Cache.Memory
import Rustorr.Cache.Pinned
import Rustorr.Cache.Recency
import Rustorr.Cache.Recovery
import Rustorr.Cache.Refinement
import Rustorr.Cache.Registry
import Rustorr.Cache.Removal
import Rustorr.Cache.RoundTrip
import Rustorr.Cache.SharedDisk
import Rustorr.Cache.Store
import Rustorr.Cache.Tally
import Rustorr.Discovery.Dns
import Rustorr.Discovery.DnsGrammar
import Rustorr.Discovery.DnsNames
import Rustorr.Discovery.DnsRoundTrip
import Rustorr.Domain
import Rustorr.Fuse.ReadAt
import Rustorr.Gst.Cue
import Rustorr.Gst.CueTimes
import Rustorr.Gst.Ebml
import Rustorr.Gst.InitInfo
import Rustorr.Gst.InitTracks
import Rustorr.Gst.Mp4.AudioCut
import Rustorr.Gst.Mp4.Boxes
import Rustorr.Gst.Mp4.Chunks
import Rustorr.Gst.Mp4.Cutting
import Rustorr.Gst.Mp4.EndOfStream
import Rustorr.Gst.Mp4.Fragment
import Rustorr.Gst.Mp4.Halves
import Rustorr.Gst.Mp4.Inferred
import Rustorr.Gst.Mp4.Ledger
import Rustorr.Gst.Mp4.Parsed
import Rustorr.Gst.Mp4.Passages
import Rustorr.Gst.Mp4.Queues
import Rustorr.Gst.Mp4.Reader
import Rustorr.Gst.Mp4.Runs
import Rustorr.Gst.Mp4.SeekReset
import Rustorr.Gst.Mp4.SegmentRead
import Rustorr.Gst.Mp4.Segments
import Rustorr.Gst.Mp4.Whole
import Rustorr.Gst.Mp4.Written
import Rustorr.Gst.Playlist
import Rustorr.Gst.PlaylistSeconds
import Rustorr.Gst.Settings
import Rustorr.Gst.SettingsRuns
import Rustorr.Gst.Subtitles
import Rustorr.Gst.Task
import Rustorr.Gst.TaskInfo
import Rustorr.Gst.TaskRuns
import Rustorr.Gst.TaskTable
import Rustorr.Gst.TaskTableRuns
import Rustorr.Http.Access
import Rustorr.Http.AccessLog
import Rustorr.Http.AccessRules
import Rustorr.Http.Conditional
import Rustorr.Http.DavPool
import Rustorr.Http.DavRelease
import Rustorr.Http.Didl
import Rustorr.Http.Discovery
import Rustorr.Http.DiscoveryRuns
import Rustorr.Http.Dlna
import Rustorr.Http.DlnaAddresses
import Rustorr.Http.DlnaListing
import Rustorr.Http.DlnaPaths
import Rustorr.Http.EntityTags
import Rustorr.Http.FileServer
import Rustorr.Http.GoDecode
import Rustorr.Http.GoJson
import Rustorr.Http.GoScan
import Rustorr.Http.GoSteps
import Rustorr.Http.GstRequests
import Rustorr.Http.IfParser
import Rustorr.Http.LockCalls
import Rustorr.Http.LockInvariant
import Rustorr.Http.LockTable
import Rustorr.Http.M3u
import Rustorr.Http.MappedPeer
import Rustorr.Http.MediaType
import Rustorr.Http.Multipart
import Rustorr.Http.Range
import Rustorr.Http.RawPlayback
import Rustorr.Http.SearchQuery
import Rustorr.Http.ServeContent
import Rustorr.Http.Share
import Rustorr.Http.ShareFrame
import Rustorr.Http.ShareRuns
import Rustorr.Http.ViewedPool
import Rustorr.Http.ViewedRuns
import Rustorr.Http.WebDav
import Rustorr.Lib.BigEndian
import Rustorr.Lib.Binary64
import Rustorr.Lib.Binary64Range
import Rustorr.Lib.Buffer
import Rustorr.Lib.Calendar
import Rustorr.Lib.Casing
import Rustorr.Lib.DomainName
import Rustorr.Lib.EditDistance
import Rustorr.Lib.Fallible
import Rustorr.Lib.Json
import Rustorr.Lib.Machine
import Rustorr.Lib.Mealy
import Rustorr.Lib.Moment
import Rustorr.Lib.OsPath
import Rustorr.Lib.Percent
import Rustorr.Lib.Prog
import Rustorr.Lib.Radix
import Rustorr.Lib.Reads
import Rustorr.Lib.Recency
import Rustorr.Lib.Replace
import Rustorr.Lib.Scanner
import Rustorr.Lib.Signed
import Rustorr.Lib.SortedMap
import Rustorr.Lib.Spans
import Rustorr.Lib.Table
import Rustorr.Lib.Text
import Rustorr.Lib.Trace
import Rustorr.Lib.Trim
import Rustorr.Lib.UrlQuery
import Rustorr.Lib.Utf8
import Rustorr.Lib.Utf8Slice
import Rustorr.Lifecycle.Agreement
import Rustorr.Lifecycle.AgreementRuns
import Rustorr.Lifecycle.Autoload
import Rustorr.Lifecycle.Client
import Rustorr.Lifecycle.Coordinator
import Rustorr.Lifecycle.FailedDeletes
import Rustorr.Lifecycle.Guard
import Rustorr.Lifecycle.Links
import Rustorr.Lifecycle.MagnetTrackers
import Rustorr.Lifecycle.Playback
import Rustorr.Lifecycle.Pool
import Rustorr.Lifecycle.ReadOnly
import Rustorr.Lifecycle.Registration
import Rustorr.Lifecycle.Restarts
import Rustorr.Lifecycle.Service
import Rustorr.Lifecycle.SettingsPool
import Rustorr.Lifecycle.SettingsRuns
import Rustorr.Lifecycle.SoftCap
import Rustorr.Lifecycle.TorrsHash
import Rustorr.Lifecycle.TorrsRoundTrip
import Rustorr.Lifecycle.World
import Rustorr.Search.Civil
import Rustorr.Search.Conversions
import Rustorr.Search.Dates
import Rustorr.Search.EditRows
import Rustorr.Search.Found
import Rustorr.Search.Index
import Rustorr.Search.Numbers
import Rustorr.Search.PubDates
import Rustorr.Search.Rutor
import Rustorr.Server.Backup
import Rustorr.Server.Restore
import Rustorr.State.Catalog
import Rustorr.State.Migrations
import Rustorr.Vfs.Addresses
import Rustorr.Vfs.CleanPath
import Rustorr.Vfs.Path
import Rustorr.Vfs.TorrentFs
