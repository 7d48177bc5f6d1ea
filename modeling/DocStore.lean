import DocStore.Bytes
import DocStore.Collection.Documents
import DocStore.Collection.Sequence
import DocStore.Collection.Table
import DocStore.Concurrent.Task
import DocStore.Concurrent.Turns
import DocStore.Database
import DocStore.Demo.CommandLine
import DocStore.Demo.Help
import DocStore.Demo.PlainText
import DocStore.Demo.Program
import DocStore.Document.Codec
import DocStore.Document.Order
import DocStore.Document.Value
import DocStore.Hex
import DocStore.Json.Number
import DocStore.Json.Record
import DocStore.Json.Token
import DocStore.Json.Tree
import DocStore.Main
import DocStore.Number.Decimal
import DocStore.Number.Double
import DocStore.Number.Rounding
import DocStore.Number.Shortest
import DocStore.Pattern
import DocStore.Query.Expression
import DocStore.Query.Match
import DocStore.Query.Parse
import DocStore.Ranked
import DocStore.SequenceKey
import DocStore.Session.Command
import DocStore.Session.Run
import DocStore.Store.ByteMap
import DocStore.Store.Cursor
import DocStore.Store.Engine
import DocStore.Store.Image
import DocStore.Store.Namespace
import DocStore.Store.Scan
import DocStore.Time.Calendar
import DocStore.Time.Text
import DocStore.Time.Timestamp
import DocStore.World
import DocStore.Proofs.ByteOrder
import DocStore.Proofs.Series
import DocStore.Proofs.SequenceKey
import DocStore.Proofs.IssuedKeys
import DocStore.Proofs.Store.ByteMap
import DocStore.Proofs.Store.Scan
import DocStore.Proofs.Store.Ranges
import DocStore.Proofs.Store.View
import DocStore.Proofs.Store.Isolation
import DocStore.Proofs.Store.Calls
import DocStore.Proofs.Store.Paging
import DocStore.Proofs.Collection.Clearing
import DocStore.Proofs.Collection.Documents
import DocStore.Proofs.Collection.ListRefinement
import DocStore.Proofs.Concurrent.Deliveries
import DocStore.Proofs.Concurrent.Exclusive
import DocStore.Proofs.Concurrent.Overlap
import DocStore.Proofs.Number.Decimal
import DocStore.Proofs.Number.Rounding
import DocStore.Proofs.Number.Integers
import DocStore.Proofs.Number.Shortest
import DocStore.Proofs.Json.Number
import DocStore.Proofs.Json.Token
import DocStore.Proofs.Json.Tree
import DocStore.Proofs.Time.Calendar
import DocStore.Proofs.Pattern
import DocStore.Proofs.Time.Reading
import DocStore.Proofs.Time.Stages
import DocStore.Proofs.Time.Text
import DocStore.Proofs.Time.Moment
import DocStore.Proofs.Document.RoundTrip
import DocStore.Proofs.Document.ReadBack
import DocStore.Proofs.Document.Numbers
import DocStore.Proofs.Document.Alike
import DocStore.Proofs.Document.Equality
import DocStore.Proofs.Document.Order
import DocStore.Proofs.Document.Settled
import DocStore.Proofs.Time.Spelling
import DocStore.Proofs.Query.Operator
import DocStore.Proofs.Query.Representation
import DocStore.Proofs.Query.Membership
import DocStore.Proofs.Query.Remainder
import DocStore.Proofs.Query.Parse
import DocStore.Proofs.Query.Rendering
import DocStore.Proofs.Query.Grammar
import DocStore.Proofs.Query.Conjunction
import DocStore.Proofs.Collection.Readable
import DocStore.Proofs.Collection.Stream
import DocStore.Proofs.Collection.MapRefinement
import DocStore.Proofs.Collection.LastingKeys
import DocStore.Proofs.Collection.Failure
import DocStore.Proofs.Collection.Agreement
import DocStore.Proofs.Collection.Ledger
