import ThunkLisp.Message
import ThunkLisp.Proofs.Agreement
import ThunkLisp.Proofs.Clauses
import ThunkLisp.Proofs.Comparisons
import ThunkLisp.Proofs.EmptyBodies
import ThunkLisp.Proofs.EqualTrees
import ThunkLisp.Proofs.EvaluatedCode
import ThunkLisp.Proofs.KeptValues
import ThunkLisp.Proofs.LookAhead
import ThunkLisp.Proofs.MalformedForms
import ThunkLisp.Proofs.ParameterLists
import ThunkLisp.Proofs.Parsing
import ThunkLisp.Proofs.Quotients
import ThunkLisp.Proofs.ReadBack
import ThunkLisp.Proofs.RecursionLimit
import ThunkLisp.Proofs.RecursiveScopes
import ThunkLisp.Proofs.ScopeLaws
import ThunkLisp.Proofs.SessionGrowth
import ThunkLisp.Proofs.ShortCircuit
import ThunkLisp.Proofs.SourceText
import ThunkLisp.Proofs.SuspensionStates
import ThunkLisp.Proofs.Tiling
import ThunkLisp.Proofs.Unannotated
import ThunkLisp.Proofs.Unassigned
import ThunkLisp.Proofs.UnreadArguments
import ThunkLisp.Session
