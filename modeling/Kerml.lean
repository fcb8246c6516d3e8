import Kerml.Check
import Kerml.Resolution
import Kerml.Specialization.Store
import Kerml.SupertypeTable.File
import Kerml.Proofs.Forest.Preorder
import Kerml.Proofs.Forest.OwnerChain
import Kerml.Proofs.QualifiedName.RoundTrip
import Kerml.Proofs.Import.Reading
import Kerml.Proofs.Distinct
import Kerml.Proofs.Link.Steps
import Kerml.Proofs.Reachable
import Kerml.Proofs.Classification.Visit
import Kerml.Proofs.Classification.Answers
import Kerml.Proofs.Link.Linked
import Kerml.Proofs.Lookup.Visible
import Kerml.Proofs.Import.Exposed
import Kerml.Proofs.Import.Visible
import Kerml.Proofs.Import.Active
import Kerml.Proofs.Scope.Explored
import Kerml.Proofs.Scope.Entries
import Kerml.Proofs.Forest.Content
import Kerml.Proofs.Link.Content
import Kerml.Proofs.Link.Bound
import Kerml.Proofs.Relink.Restored
import Kerml.Proofs.Relink.Revised
import Kerml.Proofs.Containment
import Kerml.Proofs.Import.Preorder
import Kerml.Proofs.Import.Exclusive
import Kerml.Proofs.QualifiedName.Remembered
import Kerml.Proofs.Scope.Lookup
import Kerml.Proofs.Resolution.Canonical
import Kerml.Proofs.Resolution.Visible
import Kerml.Proofs.Scope.Distance
import Kerml.Proofs.Scope.Redefinition
import Kerml.Proofs.Guarded.Lookup
import Kerml.Proofs.Guarded.Categories
import Kerml.Proofs.Guarded.Link
import Kerml.Proofs.Guarded.Imported
import Kerml.Proofs.Guarded.Scope
import Kerml.Proofs.Guarded.Resolution
import Kerml.Proofs.Handles
import Kerml.Proofs.Scope.Contested
import Kerml.Proofs.Link.Generals
import Kerml.Proofs.Scope.Supertype
import Kerml.Proofs.Link.Chains
import Kerml.Proofs.Classification.Memos
import Kerml.Proofs.Relink.Others
import Kerml.Proofs.Classification.Learned
import Kerml.Proofs.Relink.Again
import Kerml.Proofs.Link.Supplied
import Kerml.Proofs.Link.Roles
import Kerml.Proofs.Specialization.Store
import Kerml.Proofs.Resolution.Innermost
import Kerml.Proofs.Check
import Kerml.Proofs.Scope.NewName
import Kerml.Proofs.OrderedMap
import Kerml.Proofs.SupertypeTable.Entries
import Kerml.Proofs.QualifiedName.Pieces
import Kerml.Proofs.SupertypeTable.JsonText
import Kerml.Proofs.QualifiedName.Spacing
