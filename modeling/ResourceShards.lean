import ResourceShards.Main
import ResourceShards.Markup.Cursor
import ResourceShards.Pipeline.Context
import ResourceShards.Pipeline.Queue
import ResourceShards.Proofs.Archive.ArrivalOrder
import ResourceShards.Proofs.Archive.Sharding
import ResourceShards.Proofs.Listing.ArrivalOrder
import ResourceShards.Proofs.Listing.Declared
import ResourceShards.Proofs.Payload.Extraction
import ResourceShards.Proofs.Payload.SelfContained
import ResourceShards.Proofs.Resource.FullForm
import ResourceShards.Proofs.Archive.Reclosing
import ResourceShards.Proofs.Pipeline.Deliveries
import ResourceShards.Proofs.Pipeline.Progress
import ResourceShards.Proofs.Causes
import ResourceShards.Proofs.Completeness
import ResourceShards.Proofs.Markup.Strictness
import ResourceShards.Proofs.Agreement
import ResourceShards.Proofs.Markup.WrittenNames
import ResourceShards.Proofs.Markup.Undo
import ResourceShards.Proofs.Markup.UnknownNamespace
import ResourceShards.Proofs.Archive.Surviving
import ResourceShards.Proofs.Archive.FreshName
import ResourceShards.Proofs.Archive.Noting
import ResourceShards.Proofs.Archive.EntryNames
import ResourceShards.Proofs.Archive.Overriding
import ResourceShards.Markup.Stream
import ResourceShards.Proofs.Markup.Stream
import ResourceShards.Proofs.Markup.Cursor
import ResourceShards.Proofs.Truncation
import ResourceShards.Proofs.Archive.ShardKey
import ResourceShards.Pipeline.Stages
import ResourceShards.Proofs.Pipeline.Failures
import ResourceShards.Proofs.Pipeline.Stages
import ResourceShards.Proofs.Pipeline.Gathering
import ResourceShards.Proofs.Listing.Stages
import ResourceShards.Proofs.Listing.MadeIds
import ResourceShards.Proofs.Markup.LenientText
import ResourceShards.Archive.Offer
import ResourceShards.Proofs.Archive.Conflicts
import ResourceShards.Proofs.FirstBlock
import ResourceShards.Proofs.Resource.Grammar
import ResourceShards.Proofs.Resource.TypeDirectory
import ResourceShards.Proofs.Markup.Indentation
import ResourceShards.Proofs.Refusal
import ResourceShards.Proofs.Archive.Readback
import ResourceShards.Proofs.Files.Order
import ResourceShards.Proofs.Archive.Resharding
import ResourceShards.Proofs.Files.Walk
import ResourceShards.Proofs.Archive.Numbering
