import Dynarec.Arena
import Dynarec.Engine.Reference
import Dynarec.Guest.Program
import Dynarec.Guest.Routines
import Dynarec.HostWord
import Dynarec.Placement
import Dynarec.X86.Templates
import Dynarec.Proofs.Bytes
import Dynarec.Proofs.BlockExecution
import Dynarec.Proofs.ChainInvariant
import Dynarec.Proofs.Transparency
import Dynarec.Proofs.Staleness
import Dynarec.Proofs.CodeImage
import Dynarec.Proofs.Depletion
import Dynarec.Proofs.Interruption
import Dynarec.Proofs.Course
import Dynarec.Proofs.Coherence
import Dynarec.Proofs.Punctuality
import Dynarec.Proofs.Conversation
import Dynarec.Proofs.Renewal
import Dynarec.Proofs.Roster
import Dynarec.Proofs.Outline
import Dynarec.Proofs.Twins
import Dynarec.Proofs.Accounting
import Dynarec.Proofs.Totality
import Dynarec.Proofs.Convergence
import Dynarec.Proofs.Resumption
import Dynarec.Proofs.Backing
import Dynarec.Proofs.Accesses
import Dynarec.Proofs.Addressing
import Dynarec.Proofs.Coverage
import Dynarec.Proofs.Regions
import Dynarec.Proofs.Imprint
import Dynarec.Proofs.Canonical
import Dynarec.Proofs.Completion
import Dynarec.Proofs.Landing
import Dynarec.Proofs.Calling
import Dynarec.Proofs.OpenExits
import Dynarec.Proofs.Overlap
import Dynarec.Proofs.Cursors
import Dynarec.Proofs.Probing
import Dynarec.Proofs.DirectMapping
import Dynarec.Proofs.Fields
import Dynarec.Proofs.Pending
