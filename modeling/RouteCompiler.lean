import RouteCompiler.Build.FaultyStore
import RouteCompiler.Files.Inventory
import RouteCompiler.Main
import RouteCompiler.Proofs.Build.Coherence
import RouteCompiler.Proofs.Build.Confluence
import RouteCompiler.Proofs.Build.Exclusion
import RouteCompiler.Proofs.Build.Refusal
import RouteCompiler.Proofs.Build.Transitions
import RouteCompiler.Proofs.CommandLine.Agreement
import RouteCompiler.Proofs.Document.NormalForm
import RouteCompiler.Proofs.Document.Rereading
import RouteCompiler.Proofs.Build.Staging
import RouteCompiler.Proofs.Generation.Answers
import RouteCompiler.Proofs.Generation.Idempotence
import RouteCompiler.Proofs.Generation.Noninterference
import RouteCompiler.Proofs.Generation.Packages
import RouteCompiler.Proofs.Generation.Preservation
import RouteCompiler.Proofs.Generation.Rejection
import RouteCompiler.Proofs.Generation.Validated
import RouteCompiler.Proofs.Build.Replacement
import RouteCompiler.Proofs.Build.Isolation
import RouteCompiler.Proofs.Build.Delivery
import RouteCompiler.Proofs.Model.Storage
import RouteCompiler.Proofs.Build.Configuration
import RouteCompiler.Proofs.Build.Retrieval
import RouteCompiler.Proofs.Build.Confinement
import RouteCompiler.Proofs.Model.Resources
import RouteCompiler.Proofs.Generation.Advice
import RouteCompiler.Proofs.Generation.Declarations
import RouteCompiler.Proofs.Generation.Splicing
import RouteCompiler.Proofs.Model.Coordinates
import RouteCompiler.Proofs.Build.Outcomes
import RouteCompiler.Proofs.Document.CharacterData
import RouteCompiler.Proofs.Generation.Faults
import RouteCompiler.Proofs.Generation.Requests
import RouteCompiler.Proofs.Model.Query
import RouteCompiler.Proofs.Generation.Performing
