import Subdomain.Domain.Basic
import Subdomain.Document.Codec
import Subdomain.Mesh.Grid
import Subdomain.Predicate.Printer
import Subdomain.Region.Marking
import Subdomain.Proofs.Selection.Agreement
import Subdomain.Proofs.Selection.Faults
import Subdomain.Proofs.Selection.Printing
import Subdomain.Proofs.Evaluation.Connectives
import Subdomain.Proofs.Evaluation.Substitution
import Subdomain.Proofs.Definition.Planning
import Subdomain.Proofs.Domain.Facets
import Subdomain.Proofs.Domain.Faults
import Subdomain.Proofs.Predicate.Precedence
import Subdomain.Proofs.Predicate.Typing
import Subdomain.Proofs.Predicate.Coordinates
import Subdomain.Proofs.Predicate.Deepest
import Subdomain.Proofs.Region.Failures
import Subdomain.Proofs.Topology.Numbering
import Subdomain.Proofs.Evaluation.Indices
import Subdomain.Proofs.Evaluation.Numbering
import Subdomain.Proofs.Region.Promotion
import Subdomain.Proofs.Region.Marking
import Subdomain.Proofs.Evaluation.Completeness
import Subdomain.Proofs.Domain.Precheck
import Subdomain.Proofs.Region.Distribution
import Subdomain.Proofs.Topology.Ownership
import Subdomain.Proofs.Lexical.Munch
import Subdomain.Proofs.Domain.EmptyGroups
import Subdomain.Proofs.Domain.Grids
import Subdomain.Proofs.Mesh.Construction
import Subdomain.Proofs.Region.Listing
import Subdomain.Proofs.Mesh.Lookup
import Subdomain.Proofs.Selection.Balance
