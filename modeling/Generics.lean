import Generics.Ancestry
import Generics.BoundTable
import Generics.ClassRef
import Generics.Env
import Generics.Erasure
import Generics.Fault
import Generics.Formation
import Generics.GenericForm
import Generics.Guard
import Generics.Limits
import Generics.LogFormat
import Generics.Primitive
import Generics.Registry
import Generics.Search
import Generics.Substitution.Basic
import Generics.Substitution.Covariant
import Generics.Substitution.Matching
import Generics.Subtyping
import Generics.SupertypeView
import Generics.Text.Blank
import Generics.Token.Basic
import Generics.Token.Closure
import Generics.Token.Navigation
import Generics.Token.Shared
import Generics.Ty.Basic
import Generics.Ty.Build
import Generics.Ty.Equality
import Generics.Ty.Text
import Generics.Visit.Basic
import Generics.Visit.Occurrence
import Generics.Visit.RawTypes
import Generics.Visit.Trace
import Generics.Proofs.Equality
import Generics.Proofs.Search
import Generics.Proofs.Substitution
import Generics.Proofs.Ancestry
import Generics.Proofs.View
import Generics.Proofs.Vocabulary
import Generics.Proofs.Rules
import Generics.Proofs.Checking
import Generics.Proofs.Kinds
import Generics.Proofs.Climb
import Generics.Proofs.Ground
import Generics.Proofs.Order
import Generics.Proofs.Assignability
import Generics.Proofs.Matching
import Generics.Proofs.Uses
import Generics.Proofs.RoundTrip
import Generics.Proofs.Guard
import Generics.Proofs.Visiting
import Generics.Proofs.Shapes
import Generics.Proofs.Covariant
import Generics.Proofs.Bounds
import Generics.Proofs.RawTypes
import Generics.Proofs.Navigation
import Generics.Proofs.Collecting
import Generics.Proofs.Elements
import Generics.Proofs.Descent
import Generics.Proofs.Closure
import Generics.Proofs.Heights
import Generics.Proofs.Levels
import Generics.Proofs.Merging
import Generics.Proofs.Resolvers
import Generics.Proofs.Resolving
import Generics.Proofs.Ascent
import Generics.Proofs.Places
import Generics.Proofs.Validity
import Generics.Proofs.Plans
import Generics.Proofs.Widening
import Generics.Proofs.Bracketing
import Generics.Proofs.Reuse
import Generics.Proofs.Composition
import Generics.Proofs.Inclusion
import Generics.Proofs.Canonical
import Generics.Proofs.Session
import Generics.Proofs.Frames
import Generics.Proofs.Descendants
import Generics.Proofs.Regions
import Generics.Proofs.Locality
import Generics.Proofs.Containment
import Generics.Proofs.Lifting
import Generics.Proofs.Replacing
import Generics.Proofs.Scopes
import Generics.Proofs.Conflicts
import Generics.Proofs.Captures
import Generics.Proofs.DirectSupertypes
import Generics.Proofs.Reachability
import Generics.Proofs.BoundSets
import Generics.Proofs.Bindings
import Generics.Proofs.BoundCycles
import Generics.Proofs.Formation
import Generics.Proofs.Budgets
import Generics.Proofs.Congruence
