import RowIndex.Session.Basic
import RowIndex.Proofs.NodeImage
import RowIndex.Proofs.ExactPages
import RowIndex.Proofs.PageReads
import RowIndex.Proofs.Subtrees
import RowIndex.Proofs.OrderedTrees
import RowIndex.Proofs.LeafChain
import RowIndex.Proofs.Audits
import RowIndex.Proofs.Simulations
import RowIndex.Proofs.OpenFiles
import RowIndex.Proofs.Lookups
import RowIndex.Proofs.TreeGrowth
import RowIndex.Proofs.Insertions
import RowIndex.Proofs.Deletions
import RowIndex.Proofs.Calls
import RowIndex.Proofs.StableTrees
import RowIndex.Proofs.Histories
import RowIndex.Proofs.PageStore
import RowIndex.Proofs.Reopening
import RowIndex.Proofs.FailedInsertions
import RowIndex.Proofs.PageOwners
import RowIndex.Proofs.StoredTexts
import RowIndex.Proofs.RowIdScans
import RowIndex.Proofs.Occupancy
import RowIndex.Proofs.SharedClients
import RowIndex.Proofs.TreeShapes
import RowIndex.Proofs.DanglingChildren
import RowIndex.Proofs.CommutingDeletions
import RowIndex.Proofs.Walks
import RowIndex.Proofs.CarefulOperations
import RowIndex.Proofs.RecordChecksum
import RowIndex.Proofs.FailedCalls
import RowIndex.Proofs.FileGrowth
import RowIndex.Proofs.ExactDeletions
import RowIndex.Proofs.EqualKeys
import RowIndex.Proofs.StoredBeginnings
import RowIndex.Proofs.DecimalTexts
import RowIndex.Proofs.KeySpellings
