import ContentGraph.Cancellation
import ContentGraph.Consumer
import ContentGraph.Main
import ContentGraph.Store.Faulty
import ContentGraph.Store.Memory
import ContentGraph.Proofs.Utf8Text
import ContentGraph.Proofs.AddressForms
import ContentGraph.Proofs.Wire
import ContentGraph.Proofs.WireWalk
import ContentGraph.Proofs.NodeWire
import ContentGraph.Proofs.WireReading
import ContentGraph.Proofs.CanonicalBytes
import ContentGraph.Proofs.StoreGates
import ContentGraph.Proofs.EncodingRuns
import ContentGraph.Proofs.Links
import ContentGraph.Proofs.LinkOrder
import ContentGraph.Proofs.StoredShape
import ContentGraph.Proofs.ElementPaths
import ContentGraph.Proofs.StoredObjects
import ContentGraph.Proofs.MatchingStore
import ContentGraph.Proofs.Retrieval
import ContentGraph.Proofs.Authentication
import ContentGraph.Proofs.PutOrder
import ContentGraph.Proofs.PutThenGet
import ContentGraph.Proofs.PrefixFreedom
import ContentGraph.Proofs.Schedules
import ContentGraph.Proofs.ContextPrecedence
import ContentGraph.Proofs.Ingestion
import ContentGraph.Proofs.Publication
import ContentGraph.Proofs.AsciiText
import ContentGraph.Proofs.AddressText
import ContentGraph.Proofs.Escaping
import ContentGraph.Proofs.PathWalk
import ContentGraph.Proofs.PutSequences
import ContentGraph.Proofs.WrittenDocument
import ContentGraph.Proofs.MarkupPieces
import ContentGraph.Proofs.TagAttributes
import ContentGraph.Proofs.NamespaceScope
import ContentGraph.Proofs.DocumentReading
import ContentGraph.Proofs.DocumentRoundTrip
import ContentGraph.Proofs.StoreHistory
import ContentGraph.Proofs.StableAnswers
import ContentGraph.Proofs.StreamHistory
import ContentGraph.Proofs.DiskPlaces
import ContentGraph.Proofs.DirectoryEntries
import ContentGraph.Proofs.DirectoryRefinement
import ContentGraph.Proofs.ContextPublication
import ContentGraph.Proofs.Reingestion
import ContentGraph.Proofs.WalkAgreement
import ContentGraph.Proofs.WalkStages
import ContentGraph.Proofs.WalkBounds
import ContentGraph.Proofs.StoredFields
import ContentGraph.Proofs.FieldNames
import ContentGraph.Proofs.LinkCrossing
import ContentGraph.Proofs.DividedPaths
import ContentGraph.Proofs.FirstViolation
import ContentGraph.Proofs.EncodedTrees
import ContentGraph.Proofs.SameContent
import ContentGraph.Proofs.PutTrace
import ContentGraph.Proofs.NestingLimit
import ContentGraph.Proofs.ParsedElements
import ContentGraph.Proofs.ShapeParts
import ContentGraph.Proofs.ShapeReading
import ContentGraph.Proofs.ShapeRoundTrip
import ContentGraph.Proofs.NearestDouble
import ContentGraph.Proofs.Rendering
import ContentGraph.Proofs.MapOrder
import ContentGraph.Proofs.ConsumerPrefix
import ContentGraph.Proofs.GrowingDisk
import ContentGraph.Proofs.CommandGrowth
import ContentGraph.Proofs.ImportRuns
import ContentGraph.Proofs.BatchImport
import ContentGraph.Proofs.WrittenPaths
