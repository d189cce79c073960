import OpenApi.Main
import OpenApi.Proofs.Parameter.Acceptance
import OpenApi.Proofs.Parameter.Decoding
import OpenApi.Proofs.PathItem.AcrossDocuments
import OpenApi.Proofs.PathItem.Overrides
import OpenApi.Proofs.Registration
import OpenApi.Proofs.Route.Parameters
import OpenApi.Proofs.Schema.DynamicScope
import OpenApi.Proofs.Schema.Pointer
import OpenApi.Proofs.Schema.Reload
import OpenApi.Proofs.Schema.Resource
import OpenApi.Proofs.Schema.Types
import OpenApi.PathItem.Table
import OpenApi.Proofs.Json.Fields
import OpenApi.Proofs.Parameter.Written
import OpenApi.Proofs.Operation
import OpenApi.Proofs.PathMap
import OpenApi.Proofs.Parameter.Refusal
import OpenApi.Proofs.PathItem.Resolver
import OpenApi.Proofs.Route.Containment
import OpenApi.Proofs.Schema.ValueTypes
import OpenApi.Proofs.Schema.Held
import OpenApi.Proofs.Schema.Modern
import OpenApi.Proofs.Schema.Normalization
import OpenApi.Proofs.Schema.Insertion
import OpenApi.Proofs.Schema.Reordering
import OpenApi.Proofs.Parameter.Expansion
import OpenApi.Proofs.Command.OnDemand
import OpenApi.Proofs.Schema.Stacks
import OpenApi.Proofs.Schema.Strays
import OpenApi.Proofs.Parameter.Reserved
import OpenApi.Proofs.RelativeResolution
import OpenApi.Proofs.Schema.Anchor
import OpenApi.Proofs.Schema.Subschemas
import OpenApi.Proofs.PointerSegment
import OpenApi.Proofs.Schema.Faults
import OpenApi.Proofs.Schema.Placement
import OpenApi.Proofs.Schema.Inference
import OpenApi.Proofs.Parameter.Chain
import OpenApi.Proofs.Parameter.Consistency
import OpenApi.Proofs.ComponentReference
import OpenApi.Proofs.Command.Anchors
