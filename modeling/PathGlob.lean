import PathGlob.FileSystem.Build
import PathGlob.Main
import PathGlob.Tree.Paths
import PathGlob.Walk.Listener
import PathGlob.Proofs.Pattern.Segmentation
import PathGlob.Proofs.Pattern.Separators
import PathGlob.Proofs.Pattern.TrailingSeparator
import PathGlob.Proofs.Walk.Agreement
import PathGlob.Proofs.Walk.Faults
import PathGlob.Proofs.Walk.Order
import PathGlob.Proofs.Walk.Candid
import PathGlob.Proofs.Pattern.Cuts
import PathGlob.Proofs.Walk.FailedTwice
import PathGlob.Proofs.Pattern.LateFaults
import PathGlob.Proofs.Walk.Malformed
import PathGlob.Proofs.Walk.Calls
import PathGlob.Proofs.Walk.Moved
import PathGlob.Proofs.Walk.Collapse
import PathGlob.Proofs.Walk.LeadingSeparator
import PathGlob.Proofs.Walk.Escaped
import PathGlob.Proofs.Lexical.NormalForm
import PathGlob.Proofs.Walk.Descent
import PathGlob.Proofs.Mask.Meaning
import PathGlob.Proofs.Lexical.Stack
import PathGlob.Proofs.Tree.Directories
import PathGlob.Proofs.Tree.Lookup
import PathGlob.Proofs.Mask.SpelledOut
import PathGlob.Proofs.Mask.Cursor
import PathGlob.Proofs.Pattern.Width
