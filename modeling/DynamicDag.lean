import DynamicDag.Proofs.InPlace
import DynamicDag.Proofs.RefusedSort
import DynamicDag.Proofs.Placement
import DynamicDag.Proofs.PlainInsertion
import DynamicDag.Proofs.Progress
import DynamicDag.Proofs.SharedMemory
import DynamicDag.Proofs.Series
import DynamicDag.Proofs.Sessions
import DynamicDag.Proofs.SortAgain
import DynamicDag.Proofs.NonDag
import DynamicDag.Proofs.Anchors
import DynamicDag.Proofs.Locality
import DynamicDag.Proofs.WorstCase
import DynamicDag.Proofs.Shuffled
