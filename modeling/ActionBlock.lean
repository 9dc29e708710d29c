import ActionBlock.Main
import ActionBlock.Proofs.BitRuns
import ActionBlock.Proofs.Concatenation
import ActionBlock.Proofs.Confinement
import ActionBlock.Proofs.Derived
import ActionBlock.Proofs.Editing
import ActionBlock.Proofs.EqualBlocks
import ActionBlock.Proofs.FailedReads
import ActionBlock.Proofs.FloatValues
import ActionBlock.Proofs.Framing
import ActionBlock.Proofs.Misfits
import ActionBlock.Proofs.PushTexts
import ActionBlock.Proofs.Recovery
import ActionBlock.Proofs.Registration
import ActionBlock.Proofs.Relocation
import ActionBlock.Proofs.Removal
import ActionBlock.Proofs.Resolution
import ActionBlock.Proofs.Sharing
import ActionBlock.Proofs.SingleLines
import ActionBlock.Proofs.SliceEdits
import ActionBlock.Proofs.Standalone
import ActionBlock.Proofs.Strictness
import ActionBlock.Proofs.Strings
import ActionBlock.Proofs.Tiling
import ActionBlock.Proofs.Totality
import ActionBlock.Proofs.TypedFields
import ActionBlock.Workspace.Build
import ActionBlock.Workspace.Field
import ActionBlock.Workspace.ListBody
