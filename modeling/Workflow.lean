import Workflow.Main
import Workflow.Json.Reader
import Workflow.Proofs.DistributedIsolation
import Workflow.Proofs.Reachability
import Workflow.Proofs.ClosedGraph
import Workflow.Proofs.AdjacencyEntries
import Workflow.Proofs.AddressAgreement
import Workflow.Proofs.KeyPaths
import Workflow.Proofs.OrderIndependence
import Workflow.Proofs.UnseenChanges
import Workflow.Proofs.ServiceHistory
import Workflow.Proofs.CheckedGenerations
import Workflow.Proofs.FindingRoutes
import Workflow.Proofs.ScopeBlocks
import Workflow.Proofs.ScopeAgreement
import Workflow.Proofs.UncheckedAccess
import Workflow.Proofs.UncheckedDocuments
import Workflow.Proofs.JsonNumerals
import Workflow.Proofs.LoadingFaults
import Workflow.Proofs.OfferedNames
import Workflow.Proofs.FieldContexts
import Workflow.Proofs.JsonLoading
import Workflow.Proofs.StoppedVisits
import Workflow.Proofs.DescendantStates
import Workflow.Proofs.SessionHistory
import Workflow.Proofs.SessionFaults
import Workflow.Proofs.MergeLaws
import Workflow.Proofs.EndingWalks
import Workflow.Proofs.ScopeShapes
import Workflow.Proofs.FirstDeclarations
import Workflow.Proofs.PathLookup
import Workflow.Proofs.LenientChecks
import Workflow.Proofs.DeclarationOrder
import Workflow.Proofs.ExclusiveOperators
import Workflow.Proofs.SupportedFields
import Workflow.Proofs.DynamicFields
import Workflow.Proofs.FindingPlaces
import Workflow.Proofs.Unrolling
import Workflow.Proofs.SurrogatePairs
import Workflow.Proofs.TypedPaths
import Workflow.Proofs.Pointers
import Workflow.Proofs.EndingChecks
import Workflow.Proofs.StrippedReports
import Workflow.Proofs.NestedSpans
import Workflow.Proofs.TypedReferences
import Workflow.Proofs.InnermostParts
import Workflow.Proofs.DrawnOutlines
