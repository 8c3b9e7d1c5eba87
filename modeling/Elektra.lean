import Elektra.Sorted.Bisect
import Elektra.Sorted.Array
import Elektra.Sorted.Run
import Elektra.Sorted.BinaryHeap
import Elektra.Search.Choice
import Elektra.Search.Dependency
import Elektra.Search.Kept
import Elektra.Search.Buffer
import Elektra.Trie.Longest
import Elektra.Name.Level
import Elektra.Name.Escape
import Elektra.Name.Path
import Elektra.Name.Key
import Elektra.Name.Canonical
import Elektra.Name.Rename
import Elektra.Name.BaseName
import Elektra.Name.Run
import Elektra.Name.Below
import Elektra.Name.Dangling
import Elektra.Name.Removal
import Elektra.Name.Checked
import Elektra.Name.Fold
import Elektra.KeySet.Order
import Elektra.KeySet.Model
import Elektra.KeySet.Cursor
import Elektra.KeySet.Map
import Elektra.KeySet.Cut
import Elektra.KeySet.CutExact
import Elektra.KeySet.CutCursor
import Elektra.KeySet.Counted
import Elektra.KeySet.Compare
import Elektra.KeySet.Relation
import Elektra.Trie.Model
import Elektra.Mount.Model
import Elektra.Mount.Route
import Elektra.Lookup.Model
import Elektra.Lookup.Resolution
import Elektra.Lookup.Search
import Elektra.Lookup.Frame
import Elektra.Lookup.Vheap
import Elektra.Lookup.Vstack
import Elektra.Lookup.Refine
import Elektra.Lookup.Resolve
import Elektra.Lookup.Namespaces
import Elektra.Lookup.Linear
import Elektra.Lookup.Value
import Elektra.Lookup.Pop
import Elektra.Lookup.References
import Elektra.Store.Model
import Elektra.Store.Run
import Elektra.Store.References
import Elektra.Split.Model
import Elektra.Split.Buildup
import Elektra.Split.Divide
import Elektra.Kdb.Set
import Elektra.Kdb.TwoPhase
import Elektra.Kdb.SyncState
import Elektra.Meta.Topology
import Elektra.Meta.Resolve
import Elektra.Meta.Sort
import Elektra.Plugin.Base64
import Elektra.Plugin.Boolean
import Elektra.Plugin.Ccode
import Elektra.Tools.Placement
import Elektra.Meta.Array
import Elektra.Meta.Order
import Elektra.Tools.Builder
import Elektra.Tools.Deps
import Elektra.Tools.Star
import Elektra.Tools.Ordering
import Elektra.Tools.Failure
import Elektra.Tools.MergingKDB
import Elektra.Meta.KeyMeta
import Elektra.Meta.Memory
import Elektra.Meta.Compare
import Elektra.Meta.Copy
import Elektra.Meta.Remove
import Elektra.Resolver.Model
import Elektra.Resolver.Cycle
import Elektra.Resolver.Protocol
import Elektra.Resolver.Wresolver
import Elektra.Resolver.Filename
import Elektra.Resolver.Gitresolver
import Elektra.Resolver.Blockresolver
import Elektra.Context.Layers
import Elektra.Context.Threads
import Elektra.Context.Evaluate
import Elektra.Context.Parts
import Elektra.Context.Values
import Elektra.Context.Bound
import Elektra.Context.Current
import Elektra.Context.Reads
import Elektra.Sync.Lightswitch
import Elektra.Sync.Timer
import Elektra.Plugin.Semlock
import Elektra.Plugin.Yajl
import Elektra.Plugin.Line
import Elektra.Plugin.Csvstorage
import Elektra.Plugin.CsvTable
import Elektra.Plugin.CsvRead
import Elektra.Plugin.CsvWrite
import Elektra.Plugin.CsvRoundTrip
import Elektra.Plugin.Records
import Elektra.Plugin.Hosts
import Elektra.Plugin.HostsComments
import Elektra.Plugin.HostsFile
import Elektra.Plugin.HostsRead
import Elektra.KeySet.Payload
import Elektra.Plugin.Cachefilter
import Elektra.Plugin.List
import Elektra.Ease.RelativeName
import Elektra.Plugin.Profile
import Elektra.Plugin.Regexstore
import Elektra.Plugin.Enum
import Elektra.Plugin.Fstab
import Elektra.Plugin.Validation
import Elektra.Plugin.Simpleini
import Elektra.Search.Loop
import Elektra.Tools.Database
import Elektra.Tools.Needs
import Elektra.Search.Moves
import Elektra.Search.Pieces
import Elektra.Lookup.Take
import Elektra.Plugin.Rename
import Elektra.Meta.CmpOrder
import Elektra.Split.Values
import Elektra.Split.Flags
import Elektra.Split.Appoint
import Elektra.Split.Region
import Elektra.Kdb.Committed
import Elektra.Lookup.Course
import Elektra.Lookup.Iterate
import Elektra.Lookup.Return
import Elektra.Kdb.Postprocess
import Elektra.Kdb.GlobalKS
import Elektra.Kdb.Get
import Elektra.Kdb.Retains
import Elektra.Ease.Array
import Elektra.Ease.Index
import Elektra.Ease.Filter
import Elektra.Ease.MetaArray
import Elektra.Bindings.NameIterator
import Elektra.Bindings.Getenv
import Elektra.KeySet.Duplicate
import Elektra.Dynamic.Model
import Elektra.Dynamic.KeyCopy
import Elektra.Search.Strings
import Elektra.Backend.Process
import Elektra.Plugin.Padding
import Elektra.Plugin.Dump
import Elektra.Plugin.Hexcode
import Elektra.Search.OrderedMap
import Elektra.Tools.Provides
import Elektra.Tools.Arguments
import Elektra.Search.Nested
import Elektra.Tools.SpecReader
import Elektra.Tools.Serialize
