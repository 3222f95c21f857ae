import Clausal.Dimacs.Printer
import Clausal.Dimacs.Reader
import Clausal.Engine.Search
import Clausal.Pool.Graphviz
import Clausal.Problem
import Clausal.Proofs.Assertion
import Clausal.Proofs.Compilation
import Clausal.Proofs.Generators
import Clausal.Proofs.Numbering
import Clausal.Proofs.Readings
import Clausal.Proofs.Cubes
import Clausal.Proofs.Solving
import Clausal.Proofs.OpenBits
import Clausal.Proofs.Sessions
import Clausal.Proofs.Enumeration
import Clausal.Proofs.Grammars
import Clausal.Proofs.Locality
import Clausal.Proofs.Results
import Clausal.Proofs.Formulas
import Clausal.Proofs.NormalForms
import Clausal.Proofs.Trees
import Clausal.Proofs.Ordering
import Clausal.Proofs.BuildAgreement
import Clausal.Proofs.Derivations
import Clausal.Proofs.Evolution
import Clausal.Proofs.Confluence
import Clausal.Proofs.Independence
import Clausal.Proofs.TypeSoundness
import Clausal.Proofs.Parsing
import Clausal.Proofs.RoundTrip
import Clausal.Proofs.Variations
import Clausal.Proofs.Tolerance
import Clausal.Proofs.Settled
import Clausal.Proofs.OperandOrder
import Clausal.Proofs.HashConsing
import Clausal.Proofs.Arithmetic
import Clausal.Proofs.Domains
import Clausal.Proofs.Fixpoints
import Clausal.Proofs.Renumbering
import Clausal.Proofs.Blame
import Clausal.Proofs.Descents
import Clausal.Proofs.Traversals
import Clausal.Proofs.Ascents
import Clausal.Proofs.Comparison
import Clausal.Proofs.ClauseHistories
import Clausal.Proofs.Pairing
import Clausal.Proofs.Brackets
import Clausal.Proofs.Demand
