import SnapshotCatalog.Text.Bytes
import SnapshotCatalog.Text.Hidden
import SnapshotCatalog.Text.Blank
import SnapshotCatalog.Text.Quoted
import SnapshotCatalog.Text.Numeral
import SnapshotCatalog.TextMap
import SnapshotCatalog.Hash
import SnapshotCatalog.Uuid
import SnapshotCatalog.TransactionId
import SnapshotCatalog.Wire.Varint
import SnapshotCatalog.Wire.Field
import SnapshotCatalog.Definition.Basic
import SnapshotCatalog.Definition.Codec
import SnapshotCatalog.Path.Root
import SnapshotCatalog.Path.Definition
import SnapshotCatalog.Path.Segments
import SnapshotCatalog.Path.Check
import SnapshotCatalog.Node.File
import SnapshotCatalog.Node.Layout
import SnapshotCatalog.Node.Codec
import SnapshotCatalog.Error
import SnapshotCatalog.Key
import SnapshotCatalog.Root
import SnapshotCatalog.Transaction
import SnapshotCatalog.Storage.Call
import SnapshotCatalog.Storage.Memory
import SnapshotCatalog.Storage.Tracing
import SnapshotCatalog.Storage.Bucket
import SnapshotCatalog.Storage.Folder
import SnapshotCatalog.Storage.Backend
import SnapshotCatalog.Measurement
import SnapshotCatalog.Program
import SnapshotCatalog.Host
import SnapshotCatalog.Site
import SnapshotCatalog.Definition.Store
import SnapshotCatalog.Hint
import SnapshotCatalog.Chain.Latest
import SnapshotCatalog.Chain.Link
import SnapshotCatalog.Chain.Search
import SnapshotCatalog.Chain.History
import SnapshotCatalog.Lakehouse.Publishing
import SnapshotCatalog.Lakehouse.Reading
import SnapshotCatalog.Lakehouse.Changing
import SnapshotCatalog.Json.Basic
import SnapshotCatalog.Json.Number
import SnapshotCatalog.Json.Reader
import SnapshotCatalog.Config.Basic
import SnapshotCatalog.Config.Variables
import SnapshotCatalog.Config.Document
import SnapshotCatalog.Config.Opening
import SnapshotCatalog.Proofs.RootPaths
import SnapshotCatalog.Proofs.Paths
import SnapshotCatalog.Proofs.TextMaps
import SnapshotCatalog.Proofs.NodeCodec
import SnapshotCatalog.Proofs.DefinitionCodec
import SnapshotCatalog.Proofs.Contracts
import SnapshotCatalog.Proofs.Operations
import SnapshotCatalog.Proofs.System
import SnapshotCatalog.Proofs.Mutations
import SnapshotCatalog.Proofs.Publications
import SnapshotCatalog.Proofs.Reading
import SnapshotCatalog.Proofs.Looking
import SnapshotCatalog.Proofs.Effects
import SnapshotCatalog.Proofs.Duties
import SnapshotCatalog.Proofs.Invariant
import SnapshotCatalog.Proofs.StoredReads
import SnapshotCatalog.Proofs.StillStore
import SnapshotCatalog.Proofs.Alone
import SnapshotCatalog.Proofs.Sessions
import SnapshotCatalog.Proofs.ChainIntegrity
import SnapshotCatalog.Proofs.Serialization
import SnapshotCatalog.Proofs.HintIndependence
import SnapshotCatalog.Proofs.Names
import SnapshotCatalog.Proofs.Keys
import SnapshotCatalog.Proofs.NamePaths
import SnapshotCatalog.Proofs.Catalog
import SnapshotCatalog.Proofs.Depiction
import SnapshotCatalog.Proofs.Questions
import SnapshotCatalog.Proofs.Refinement
import SnapshotCatalog.Proofs.Timeline
import SnapshotCatalog.Proofs.HeadLookup
import SnapshotCatalog.Proofs.HintBound
import SnapshotCatalog.Proofs.LookupCost
import SnapshotCatalog.Proofs.Origins
import SnapshotCatalog.Proofs.Snapshots
import SnapshotCatalog.Proofs.References
import SnapshotCatalog.Proofs.RowTable
import SnapshotCatalog.Proofs.ChainVerification
import SnapshotCatalog.Proofs.Exchanges
import SnapshotCatalog.Proofs.Courses
import SnapshotCatalog.Proofs.Atomicity
import SnapshotCatalog.Proofs.Calls
import SnapshotCatalog.Proofs.Schedules
import SnapshotCatalog.Proofs.ReturnedRoots
import SnapshotCatalog.Proofs.Freshness
import SnapshotCatalog.Proofs.Initialization
import SnapshotCatalog.Proofs.NodeAcceptance
import SnapshotCatalog.Proofs.Requests
import SnapshotCatalog.Proofs.CreationTimes
import SnapshotCatalog.Proofs.Territory
import SnapshotCatalog.Proofs.Isolation
import SnapshotCatalog.Proofs.Probes
import SnapshotCatalog.Proofs.Normalization
import SnapshotCatalog.Proofs.Interchange
import SnapshotCatalog.Proofs.KeyCodec
import SnapshotCatalog.Proofs.KeyOrder
import SnapshotCatalog.Proofs.Objects
import SnapshotCatalog.Proofs.FlatStore
import SnapshotCatalog.Proofs.Readback
import SnapshotCatalog.Proofs.RootReads
import SnapshotCatalog.Proofs.Rejections
import SnapshotCatalog.Proofs.Searches
import SnapshotCatalog.Proofs.Listings
import SnapshotCatalog.Proofs.Placement
import SnapshotCatalog.Proofs.Streaming
import SnapshotCatalog.Proofs.VersionPaths
import SnapshotCatalog.Proofs.TransactionStates
import SnapshotCatalog.Proofs.Confinement
import SnapshotCatalog.Proofs.Refusals
import SnapshotCatalog.Proofs.RangeScans
import SnapshotCatalog.Proofs.TransactionIds
import SnapshotCatalog.Proofs.GeneratedPaths
import SnapshotCatalog.Proofs.FileNames
