import PastTime.Main
import PastTime.Proofs.Formula.Completeness
import PastTime.Proofs.Meaning
import PastTime.Proofs.Session.Shadowing
import PastTime.Proofs.Formula.Keywords
import PastTime.Proofs.Formula.Rooms
import PastTime.Proofs.Formula.Locality
import PastTime.Proofs.Formula.Rereading
import PastTime.Proofs.Formula.Parentheses
import PastTime.Proofs.Names.Alike
import PastTime.Proofs.Formula.Drawing
import PastTime.Proofs.Formula.Identities
import PastTime.Proofs.Names.History
import PastTime.Proofs.Session.Uniqueness
import PastTime.Proofs.Compilation.Atomicity
import PastTime.Proofs.Formula.Levels
import PastTime.Proofs.Formula.Heights
import PastTime.Proofs.Formula.Unlimited
import PastTime.Proofs.Formula.Attempts
import PastTime.Proofs.Formula.Exactness
import PastTime.Proofs.Formula.Places
import PastTime.Proofs.Predicate.Reading
import PastTime.Proofs.Predicate.Nesting
import PastTime.Proofs.Formula.Cuts
import PastTime.Proofs.Formula.Leftovers
import PastTime.Proofs.Formula.Openings
import PastTime.Proofs.Predicate.Normalization
import PastTime.Proofs.Formula.Erasure
import PastTime.Proofs.Names.Counting
import PastTime.Proofs.Predicate.Records
import PastTime.Proofs.Predicate.Application
import PastTime.Proofs.Predicate.Representation
import PastTime.Proofs.Formula.Fragments
import PastTime.Proofs.Formula.Calls
import PastTime.Proofs.Text.Identifiers
