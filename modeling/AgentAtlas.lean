import AgentAtlas.Main
import AgentAtlas.Proofs.Artifact.Placement
import AgentAtlas.Proofs.Inheritance.Lineage
import AgentAtlas.Proofs.Artifact.Closure
import AgentAtlas.Proofs.Artifact.View
import AgentAtlas.Proofs.Pattern.Slots
import AgentAtlas.Proofs.Pattern.Names
import AgentAtlas.Proofs.Pattern.Folding
import AgentAtlas.Proofs.Pattern.Variants
import AgentAtlas.Proofs.Pattern.Expansion
import AgentAtlas.Proofs.Pattern.Lookups
import AgentAtlas.Proofs.Pattern.Scanning
import AgentAtlas.Proofs.Artifact.PatternTable
import AgentAtlas.Proofs.Pattern.Reading
import AgentAtlas.Proofs.Pattern.Matching
import AgentAtlas.Proofs.Artifact.Flavors
import AgentAtlas.Proofs.Inheritance.Filtering
import AgentAtlas.Proofs.Inheritance.Headers
import AgentAtlas.Proofs.Build.Agreement
import AgentAtlas.Proofs.Sequencing
import AgentAtlas.Proofs.Repetition
import AgentAtlas.Proofs.ResourceTree.Loading
import AgentAtlas.Proofs.ResourceTree.Definitions
import AgentAtlas.Proofs.ResourceTree.Roots
import AgentAtlas.Proofs.Artifact.RowOrder
import AgentAtlas.Proofs.Artifact.Reordering
import AgentAtlas.Proofs.Json.Reading
import AgentAtlas.Proofs.Document.Decoding
import AgentAtlas.Proofs.Disk.Changes
import AgentAtlas.Proofs.Disk.Beside
import AgentAtlas.Proofs.Delivery.Replacement
import AgentAtlas.Proofs.Session.Ends
import AgentAtlas.Proofs.Session.Output
import AgentAtlas.Proofs.Markup.Entities
import AgentAtlas.Proofs.Document.Formats
import AgentAtlas.Proofs.Disk.Listing
import AgentAtlas.Proofs.ResourceTree.Ordering
import AgentAtlas.Proofs.ResourceTree.Spreading
import AgentAtlas.Proofs.Build.Respelling
import AgentAtlas.Proofs.Pattern.Globbing
import AgentAtlas.Proofs.Collection.Adding
import AgentAtlas.Proofs.Collection.Ledger
import AgentAtlas.Proofs.Text.Replacing
import AgentAtlas.Proofs.Inheritance.Orphans
import AgentAtlas.Proofs.Division.Origins
import AgentAtlas.Proofs.Division.Expansion
import AgentAtlas.Proofs.Division.Interruption
import AgentAtlas.Proofs.Inheritance.Acceptance
import AgentAtlas.Proofs.Inheritance.Minimality
import AgentAtlas.Proofs.Inheritance.Ancestry
import AgentAtlas.Proofs.Inheritance.Rebuilding
