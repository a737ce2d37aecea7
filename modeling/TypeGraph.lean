import TypeGraph.History
import TypeGraph.WideMask
import TypeGraph.Graph.Index
import TypeGraph.Graph.Unfolding
import TypeGraph.Graph.Printing
import TypeGraph.Graph.Lemmas
import TypeGraph.Graph.Reachability
import TypeGraph.Graph.Bisimulation
import TypeGraph.Proofs.Meaning
import TypeGraph.Proofs.Identity
import TypeGraph.Proofs.Abstractness
import TypeGraph.Proofs.Coherence
import TypeGraph.Proofs.Watchers
import TypeGraph.Proofs.Attendance
import TypeGraph.Proofs.Observers
import TypeGraph.Proofs.Progress
import TypeGraph.Proofs.Safety
import TypeGraph.Proofs.Termination
import TypeGraph.Proofs.Permanence
import TypeGraph.Proofs.Frame
import TypeGraph.Proofs.Attributes
import TypeGraph.Proofs.Requests
import TypeGraph.Proofs.Growth
import TypeGraph.Proofs.HashConsing
import TypeGraph.Proofs.Concreteness
import TypeGraph.Proofs.Trees
import TypeGraph.Proofs.Templates
import TypeGraph.Proofs.Commutation
import TypeGraph.Proofs.Homomorphisms
import TypeGraph.Proofs.Cycles
import TypeGraph.Proofs.Stories
import TypeGraph.Proofs.Unheard
import TypeGraph.Proofs.Sizes
import TypeGraph.Proofs.Masks
import TypeGraph.Proofs.Indexing
import TypeGraph.Proofs.Indexes
import TypeGraph.Proofs.Rendering
import TypeGraph.Proofs.TermTexts
import TypeGraph.Proofs.Texts
