import DataContract.Credential
import DataContract.Query.Check
import DataContract.Query.Derivation
import DataContract.Settings.Load
import DataContract.Trial
import DataContract.Proofs.Guarded
import DataContract.Proofs.Acceptance
import DataContract.Proofs.Rounding
import DataContract.Proofs.WellPosed
import DataContract.Proofs.Drawing
import DataContract.Proofs.RoundTrip
import DataContract.Proofs.Derives
import DataContract.Proofs.Refinement
import DataContract.Proofs.Candidates
import DataContract.Proofs.Reentry
import DataContract.Proofs.SameData
import DataContract.Proofs.Comparison
import DataContract.Proofs.Coverage
import DataContract.Proofs.Merging
import DataContract.Proofs.OneField
import DataContract.Proofs.Rejection
import DataContract.Proofs.Spared
import DataContract.Proofs.Wording
import DataContract.Proofs.Escape
import DataContract.Proofs.Departure
import DataContract.Proofs.Expansion
import DataContract.Proofs.Decision
import DataContract.Proofs.Halting
import DataContract.Proofs.Locality
import DataContract.Proofs.ScalarCover
import DataContract.Proofs.Termination
import DataContract.Proofs.QueryVerdict
import DataContract.Proofs.ReadingBack
import DataContract.Proofs.Parameters
import DataContract.Proofs.QueryNegation
import DataContract.Proofs.Transitivity
import DataContract.Proofs.UnionParameter
import DataContract.Proofs.Capping
import DataContract.Proofs.NullMutants
import DataContract.Proofs.UnionMutants
import DataContract.Proofs.Productivity
import DataContract.Proofs.Reflexivity
import DataContract.Proofs.Retracing
import DataContract.Proofs.Calls
import DataContract.Proofs.SingleValue
import DataContract.Proofs.Specialisation
import DataContract.Proofs.Alternatives
import DataContract.Proofs.TwoRuns
import DataContract.Proofs.Divergence
import DataContract.Proofs.Relaxation
import DataContract.Proofs.KeyOrder
import DataContract.Proofs.ParameterOrder
import DataContract.Proofs.WholeNumbers
import DataContract.Proofs.IntegerLiterals
import DataContract.Proofs.CrashPaths
import DataContract.Proofs.Templates
import DataContract.Proofs.Credentials
import DataContract.Proofs.KeySets
import DataContract.Proofs.Leaves
import DataContract.Proofs.Chains
