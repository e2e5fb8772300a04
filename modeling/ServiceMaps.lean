import ServiceMaps.Number.Shortest
import ServiceMaps.Number.Literal
import ServiceMaps.Value.Text
import ServiceMaps.Yaml.Stream
import ServiceMaps.Json.Reading
import ServiceMaps.Toml.Reading
import ServiceMaps.Identifier
import ServiceMaps.Settings
import ServiceMaps.ServiceMap.Basic
import ServiceMaps.Document.Inspection
import ServiceMaps.Document.Reading
import ServiceMaps.Document.Writing
import ServiceMaps.ServiceMap.Text
import ServiceMaps.ServiceMap.Fresh
import ServiceMaps.References.Within
import ServiceMaps.Lineage
import ServiceMaps.TaskFlow
import ServiceMaps.Session
import ServiceMaps.Proofs.RoundTrip
import ServiceMaps.Proofs.TaskFlow.Order
import ServiceMaps.Proofs.TaskFlow.Distance
import ServiceMaps.Proofs.Creation
import ServiceMaps.Proofs.Lineage
import ServiceMaps.Proofs.Editing
import ServiceMaps.Proofs.TaskFlow.Accounting
import ServiceMaps.Proofs.SingleDocuments
import ServiceMaps.Proofs.Renaming.Results
import ServiceMaps.Proofs.NormalForm
import ServiceMaps.Proofs.SameDocuments
import ServiceMaps.Proofs.Reordering
import ServiceMaps.Proofs.Extending
import ServiceMaps.Proofs.References.Duplicates
import ServiceMaps.Proofs.Versions
import ServiceMaps.Proofs.Paths
import ServiceMaps.Proofs.Reports
import ServiceMaps.Proofs.Unseen
import ServiceMaps.Proofs.NewOutcome
import ServiceMaps.Proofs.Lookups
import ServiceMaps.Proofs.IdentifierParts
import ServiceMaps.Proofs.KeptEntries
import ServiceMaps.Proofs.References.Unset
import ServiceMaps.Proofs.Yaml.Keys
import ServiceMaps.Proofs.Yaml.Mappings
import ServiceMaps.Proofs.Session
