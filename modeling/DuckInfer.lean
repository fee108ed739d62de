import DuckInfer.Ty.Unify
import DuckInfer.Flow.Narrowing
import DuckInfer.Store.Published
import DuckInfer.Main
import DuckInfer.Proofs.Store.AncestorSearch
import DuckInfer.Proofs.Store.LookupOrder
import DuckInfer.Proofs.Store.Memory
import DuckInfer.Proofs.Signature.Completion
import DuckInfer.Proofs.Store.Listing
import DuckInfer.Proofs.Store.Specialization
import DuckInfer.Proofs.Flow.Narrowing
import DuckInfer.Proofs.Ty.ReadBack
import DuckInfer.Proofs.Infer.Termination
import DuckInfer.Proofs.Infer.Steady
import DuckInfer.Proofs.Infer.Problems
import DuckInfer.Proofs.Flow.Conditions
import DuckInfer.Proofs.Flow.Locality
import DuckInfer.Proofs.Flow.Belonging
import DuckInfer.Proofs.Infer.Calls
import DuckInfer.Proofs.Infer.Placeholders
import DuckInfer.Proofs.Infer.EdgeValues
import DuckInfer.Proofs.Flow.Cascade
import DuckInfer.Proofs.Ty.Unions
import DuckInfer.Proofs.Infer.Unions
import DuckInfer.Proofs.Flow.Composition
import DuckInfer.Proofs.Ty.Tags
import DuckInfer.Proofs.Signature.Arguments
import DuckInfer.Proofs.Store.DanglingEdges
import DuckInfer.Proofs.Store.NearestMethods
import DuckInfer.Proofs.Infer.Misfits
import DuckInfer.Proofs.Ty.Recovery
import DuckInfer.Proofs.Ty.Marks
import DuckInfer.Proofs.Store.Receivers
import DuckInfer.Proofs.Decl.Edges
import DuckInfer.Proofs.Signature.Places
import DuckInfer.Proofs.Infer.ClassObjects
import DuckInfer.Proofs.Doc.WrittenTypes
import DuckInfer.Proofs.Doc.Spellings
import DuckInfer.Proofs.Infer.Instances
import DuckInfer.Proofs.Ty.BracketForms
import DuckInfer.Proofs.Flow.Tested
import DuckInfer.Proofs.Flow.Visits
import DuckInfer.Proofs.Flow.Shadows
import DuckInfer.Proofs.Ty.Rewriting
import DuckInfer.Proofs.Ty.Compact
import DuckInfer.Proofs.Text.EditScripts
import DuckInfer.Proofs.Decl.RootedEdges
import DuckInfer.Proofs.Infer.Templates
