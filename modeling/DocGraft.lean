import DocGraft.Grammar
import DocGraft.Main
import DocGraft.Proofs.AnnotationElements
import DocGraft.Proofs.BraceMatching
import DocGraft.Proofs.CommentReplacement
import DocGraft.Proofs.DefusedMarkup
import DocGraft.Proofs.DocumentOrder
import DocGraft.Proofs.DocumentedTags
import DocGraft.Proofs.LibraryAgreement
import DocGraft.Proofs.MaskedSegments
import DocGraft.Proofs.MergedSources
import DocGraft.Proofs.NoteIndependence
import DocGraft.Proofs.PreformattedBlocks
import DocGraft.Proofs.ResolvedReferences
import DocGraft.Proofs.ScannerEdits
import DocGraft.Proofs.WorkerPool
import DocGraft.Proofs.WrapRegions
