import Stencil.Config.Json
import Stencil.Compilation.Register
import Stencil.Compilation.Resolve
import Stencil.Compilation.Mount
import Stencil.Proofs.Remembering
import Stencil.Proofs.Expansion
import Stencil.Proofs.Composition
import Stencil.Proofs.Flattening
import Stencil.Proofs.Requests
import Stencil.Proofs.RequestOrder
import Stencil.Proofs.Kinds
import Stencil.Proofs.Registration
import Stencil.Proofs.Emission
import Stencil.Proofs.Following
import Stencil.Proofs.Overlay
import Stencil.Proofs.Coupling
import Stencil.Proofs.Heir
import Stencil.Proofs.Hygiene
import Stencil.Proofs.Tables
import Stencil.Proofs.Lookup
import Stencil.Proofs.Updates
import Stencil.Proofs.Steps
import Stencil.Proofs.Import
import Stencil.Proofs.Answering
import Stencil.Proofs.Termination
import Stencil.Proofs.Denials
import Stencil.Proofs.Paths
import Stencil.Proofs.Opening
import Stencil.Proofs.Mounting
import Stencil.Proofs.Union
import Stencil.Proofs.Mismatch
import Stencil.Proofs.Integrity
import Stencil.Proofs.Confinement
import Stencil.Proofs.Counterparts
import Stencil.Proofs.Transport
import Stencil.Proofs.Transplant
import Stencil.Proofs.Commutation
import Stencil.Proofs.Warnings
import Stencil.Proofs.Recording
import Stencil.Proofs.Trie
import Stencil.Proofs.Strategies
import Stencil.Proofs.Admission
import Stencil.Proofs.Blocks
import Stencil.Proofs.Spelling
import Stencil.Proofs.Sparing
import Stencil.Proofs.Retrieval
import Stencil.Proofs.Contexts
import Stencil.Proofs.Scoping
import Stencil.Proofs.Gaps
import Stencil.Proofs.Payload
import Stencil.Proofs.Splices
import Stencil.Proofs.Overriding
import Stencil.Proofs.Exclusion
import Stencil.Proofs.Circles
import Stencil.Proofs.Nesting
import Stencil.Proofs.Linearization
import Stencil.Proofs.Placement
import Stencil.Proofs.Accounting
import Stencil.Proofs.Alphabets
import Stencil.Proofs.Offsets
import Stencil.Proofs.Occurrences
import Stencil.Proofs.Variables
import Stencil.Proofs.Visibility
import Stencil.Proofs.Selectors
import Stencil.Proofs.Phrases
import Stencil.Proofs.Clauses
import Stencil.Proofs.Closing
import Stencil.Proofs.Layering
import Stencil.Proofs.Ancestry
import Stencil.Proofs.Copying
import Stencil.Proofs.Memory
import Stencil.Proofs.Scanning
