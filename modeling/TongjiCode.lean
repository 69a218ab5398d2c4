import TongjiCode.Async.ThrottlerRuns
import TongjiCode.Base.ByteSearch
import TongjiCode.BracketPairs.Length
import TongjiCode.Editor.EditStack
import TongjiCode.Editor.IntervalRuns
import TongjiCode.EditorGroup.Stickiness
import TongjiCode.Folding.SanitizeAndMerge
import TongjiCode.IndexTree.VisibleChildCounts
import TongjiCode.Ipc.ChannelServer
import TongjiCode.Ipc.ExactlyOnce
import TongjiCode.Ipc.SerializeRoundTrip
import TongjiCode.Keybinding.Complement
import TongjiCode.Keybinding.Lookup
import TongjiCode.Keybinding.ScannerRuns
import TongjiCode.ListView.RangeMap
import TongjiCode.MergeEditor.DiffRuns
import TongjiCode.Persistence.SharedStorage
import TongjiCode.PieceTree.Chunking
import TongjiCode.PieceTree.LineRuns
import TongjiCode.PieceTree.RangeValues
import TongjiCode.PieceTree.Snapshot
import TongjiCode.Ranges.FaithfulSets
import TongjiCode.SearchTree.Runs
import TongjiCode.Settings.ChangeEvent
import TongjiCode.Settings.ConfigurationRuns
import TongjiCode.Settings.LanguageOverrides
import TongjiCode.Sync.Convergence
import TongjiCode.Tokens.BlockEdits
import TongjiCode.Tokens.ContiguousRuns
import TongjiCode.Tokens.Deliveries
import TongjiCode.Tokens.WithInserted
import TongjiCode.UndoRedo.Consistent
import TongjiCode.ViewLayout.ViewportRuns
import TongjiCode.ViewModel.LineProjection
import TongjiCode.ViewModel.PrefixSumRuns
import TongjiCode.ViewModel.ViewLineEvents
import TongjiCode.ViewModel.WrappedLines
