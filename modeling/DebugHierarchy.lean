import DebugHierarchy.Workspace
import DebugHierarchy.Design.Visit
import DebugHierarchy.Extraction.Trace
import DebugHierarchy.Proofs.Linking
import DebugHierarchy.Proofs.Diagnosing
import DebugHierarchy.Proofs.Registry
import DebugHierarchy.Proofs.ScopeChains
import DebugHierarchy.Proofs.Wrapping
import DebugHierarchy.Proofs.Reordering
import DebugHierarchy.Proofs.Numbering
import DebugHierarchy.Proofs.Permanence
import DebugHierarchy.Proofs.PlaceTexts
import DebugHierarchy.Proofs.Sharing
import DebugHierarchy.Proofs.Placing
import DebugHierarchy.Proofs.BuildLog
import DebugHierarchy.Proofs.Leniency
import DebugHierarchy.Proofs.BodyWalks
import DebugHierarchy.Proofs.PortBinding
import DebugHierarchy.Proofs.EnumLinks
import DebugHierarchy.Proofs.Mentions
import DebugHierarchy.Proofs.Roots
import DebugHierarchy.Proofs.PortLabels
