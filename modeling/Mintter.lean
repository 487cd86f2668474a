import Mintter.Crdt.List
import Mintter.Crdt.ListRuns
import Mintter.Crdt2.Forgotten
import Mintter.Crdt2.Journal
import Mintter.Crdt2.ListChunks
import Mintter.Crdt2.Map
import Mintter.Crdt2.Merging
import Mintter.Crdt2.Shallow
import Mintter.Crdt2.Value
import Mintter.Crdt2.Versions
import Mintter.Docmodel.Asked
import Mintter.Docmodel.Cleanup
import Mintter.Docmodel.Commit
import Mintter.Docmodel.Committed
import Mintter.Docmodel.Contents
import Mintter.Docmodel.Convergence
import Mintter.Docmodel.Document
import Mintter.Docmodel.Drafts
import Mintter.Docmodel.Edits
import Mintter.Docmodel.Hydrated
import Mintter.Docmodel.Integrate
import Mintter.Docmodel.LastWrites
import Mintter.Docmodel.Moves
import Mintter.Docmodel.Patches
import Mintter.Docmodel.Placement
import Mintter.Docmodel.Rendered
import Mintter.Docmodel.Replay
import Mintter.Docmodel.Reported
import Mintter.Docmodel.Representation
import Mintter.Docmodel.Runs
import Mintter.Docmodel.SampleKeys
import Mintter.Docmodel.SavedDrafts
import Mintter.Docmodel.ShownTree
import Mintter.Docmodel.VisibleTree
import Mintter.Foundation.Arrangements
import Mintter.Foundation.Attempt
import Mintter.Foundation.Base58
import Mintter.Foundation.CausalInsertion
import Mintter.Foundation.Climb
import Mintter.Foundation.Closure
import Mintter.Foundation.Feed
import Mintter.Foundation.FeedReaders
import Mintter.Foundation.Forest
import Mintter.Foundation.HeapOrder
import Mintter.Foundation.Interleaving
import Mintter.Foundation.JoinedTexts
import Mintter.Foundation.KeyedList
import Mintter.Foundation.Latest
import Mintter.Foundation.NestedMaps
import Mintter.Foundation.OrderedTree
import Mintter.Foundation.Outcome
import Mintter.Foundation.Pages
import Mintter.Foundation.Pieces
import Mintter.Foundation.Reaches
import Mintter.Foundation.Rearranged
import Mintter.Foundation.Reduction
import Mintter.Foundation.Search
import Mintter.Foundation.Slices
import Mintter.Foundation.Walks
import Mintter.Frontend.CapturedChanges
import Mintter.Frontend.DecodedContent
import Mintter.Frontend.DraftDiff
import Mintter.Frontend.DraftMachine
import Mintter.Frontend.EntityLinks
import Mintter.Frontend.ExtractedContent
import Mintter.Frontend.InlineContent
import Mintter.Frontend.LinkRoundTrips
import Mintter.Frontend.Navigation
import Mintter.Hyper.Accepted
import Mintter.Hyper.Authorship
import Mintter.Hyper.Blobs
import Mintter.Hyper.Causality
import Mintter.Hyper.Clock
import Mintter.Hyper.Collected
import Mintter.Hyper.Cursors
import Mintter.Hyper.DecodedPrincipals
import Mintter.Hyper.Deletions
import Mintter.Hyper.DraftListings
import Mintter.Hyper.Entity
import Mintter.Hyper.Graph
import Mintter.Hyper.GroupMembers
import Mintter.Hyper.GroupSites
import Mintter.Hyper.Growth
import Mintter.Hyper.Handshakes
import Mintter.Hyper.HeadDeps
import Mintter.Hyper.Indexed
import Mintter.Hyper.Indexing
import Mintter.Hyper.Kept
import Mintter.Hyper.Lifecycle
import Mintter.Hyper.Listings
import Mintter.Hyper.Loadable
import Mintter.Hyper.Loading
import Mintter.Hyper.Membership
import Mintter.Hyper.Mentions
import Mintter.Hyper.NamedContents
import Mintter.Hyper.Outgoing
import Mintter.Hyper.Ownership
import Mintter.Hyper.Panics
import Mintter.Hyper.Principal
import Mintter.Hyper.Rebuilt
import Mintter.Hyper.Reindex
import Mintter.Hyper.Rejected
import Mintter.Hyper.Replacement
import Mintter.Hyper.Replicas
import Mintter.Hyper.Requests
import Mintter.Hyper.SampleFormats
import Mintter.Hyper.SiteSync
import Mintter.Hyper.Sites
import Mintter.Hyper.Skew
import Mintter.Hyper.SmallSet
import Mintter.Hyper.Store
import Mintter.Hyper.Threads
import Mintter.Hyper.TidyDrafts
import Mintter.Hyper.Timeline
import Mintter.Hyper.TimelineListing
import Mintter.Hyper.TimelineRows
import Mintter.Hyper.Tombstones
import Mintter.Hyper.UniqueIndexes
import Mintter.Hyper.VersionLoads
import Mintter.Pkg.Heap
import Mintter.Pkg.IndexedHeap
import Mintter.Pkg.Object
import Mintter.Syncing.SavedCursors
import Mintter.Syncing.Worker
