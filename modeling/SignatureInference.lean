import SignatureInference.Analysis
import SignatureInference.CommandLine.Run
import SignatureInference.Main
import SignatureInference.Proofs.CommandLine.Run
import SignatureInference.Proofs.Decision.Growth
import SignatureInference.Proofs.Decision.Order
import SignatureInference.Proofs.DocEvidence
import SignatureInference.Proofs.Editing.DryRun
import SignatureInference.Proofs.Editing.Effect
import SignatureInference.Proofs.Editing.Order
import SignatureInference.Proofs.Editing.Repetition
import SignatureInference.Proofs.Php.DocComments
import SignatureInference.Proofs.Registry.Order
import SignatureInference.Proofs.Report.Instructions
import SignatureInference.Proofs.Report.Repetition
import SignatureInference.Proofs.Source.FunctionHeads
import SignatureInference.Proofs.Source.Namespaces
import SignatureInference.Proofs.Trace.Batches
import SignatureInference.Proofs.Trace.Doubles
import SignatureInference.Proofs.Trace.Reading
import SignatureInference.Proofs.Index
import SignatureInference.Proofs.Editing.Account
import SignatureInference.Proofs.Edits.Simultaneous
import SignatureInference.Proofs.Registry.DepthFirst
import SignatureInference.Proofs.Editing.Hints
import SignatureInference.Proofs.Placement.FormalParameters
import SignatureInference.Proofs.Placement.ParameterIndex
import SignatureInference.Proofs.Source.HiddenContents
import SignatureInference.Proofs.Decision.Widening
import SignatureInference.Proofs.DocType
import SignatureInference.Proofs.Source.MethodSearch
import SignatureInference.Proofs.Php.UseClauses
import SignatureInference.Proofs.Php.UseStatements
import SignatureInference.Proofs.Trace.Merging
import SignatureInference.Proofs.PathFilter
import SignatureInference.Proofs.Trace.FunctionNames
import SignatureInference.Proofs.Trace.ObjectDumps
import SignatureInference.Proofs.DocTags
import SignatureInference.Proofs.Trace.Intake
import SignatureInference.Proofs.Source.Brackets
import SignatureInference.Proofs.ClassIdentity
import SignatureInference.Proofs.Text.Positions
