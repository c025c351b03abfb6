import ThreadedForth.Host.Batch
import ThreadedForth.Main
import ThreadedForth.Proofs.Dictionary.Agreement
import ThreadedForth.Proofs.Dictionary.Header
import ThreadedForth.Proofs.Dictionary.Definition
import ThreadedForth.Proofs.Dictionary.Code
import ThreadedForth.Proofs.Dictionary.Chained
import ThreadedForth.Proofs.Dictionary.Input
import ThreadedForth.Proofs.Dictionary.History
import ThreadedForth.Proofs.Program
import ThreadedForth.Proofs.Dictionary.Room
import ThreadedForth.Proofs.Machine.Run
import ThreadedForth.Proofs.Dictionary.Extends
import ThreadedForth.Proofs.Machine.Compile
import ThreadedForth.Proofs.Machine.Words
import ThreadedForth.Proofs.Machine.Reset
import ThreadedForth.Proofs.Machine.Visible
import ThreadedForth.Proofs.Machine.Semicolon
import ThreadedForth.Proofs.Machine.Unlinked
import ThreadedForth.Proofs.Machine.AppendOnly
import ThreadedForth.Proofs.Machine.Sealed
import ThreadedForth.Proofs.Machine.Binding
import ThreadedForth.Proofs.Machine.Reaches
import ThreadedForth.Proofs.Machine.Evaluate
import ThreadedForth.Proofs.Machine.Fuel
import ThreadedForth.Proofs.Machine.Nested
import ThreadedForth.Proofs.Machine.Returns
import ThreadedForth.Proofs.Machine.Keywords
import ThreadedForth.Proofs.Machine.Structured
import ThreadedForth.Proofs.Machine.Control
import ThreadedForth.Proofs.Dictionary.Draft
import ThreadedForth.Proofs.Dictionary.Settled
import ThreadedForth.Proofs.Machine.Straight
import ThreadedForth.Proofs.Machine.Abreast
import ThreadedForth.Proofs.Machine.Session
import ThreadedForth.Proofs.Machine.Typed
import ThreadedForth.Proofs.Machine.Recovery
import ThreadedForth.Proofs.Dictionary.Image
import ThreadedForth.Proofs.Terminal.Images
import ThreadedForth.Proofs.Terminal.Loading
import ThreadedForth.Proofs.Dictionary.Parallel
import ThreadedForth.Proofs.Machine.Stocked
import ThreadedForth.Proofs.Machine.Twins
import ThreadedForth.Proofs.Machine.Phrases
import ThreadedForth.Proofs.Machine.LineBreaks
import ThreadedForth.Proofs.Dictionary.Book
import ThreadedForth.Proofs.Machine.Making
import ThreadedForth.Proofs.Machine.Recorded
import ThreadedForth.Proofs.Machine.Holdings
import ThreadedForth.Proofs.Memory.Storage
import ThreadedForth.Proofs.Dictionary.Linking
import ThreadedForth.Proofs.Dictionary.Stuck
import ThreadedForth.Proofs.Machine.Aborted
import ThreadedForth.Proofs.Dictionary.Scanned
import ThreadedForth.Proofs.Dictionary.Tokens
import ThreadedForth.Proofs.Dictionary.Zeros
import ThreadedForth.Proofs.Dictionary.Requests
import ThreadedForth.Proofs.Numeral
import ThreadedForth.Proofs.Machine.MovedHere
import ThreadedForth.Proofs.Machine.Atomic
import ThreadedForth.Proofs.Arithmetic
import ThreadedForth.Proofs.Numeral.Canonical
import ThreadedForth.Proofs.Machine.Arithmetic
import ThreadedForth.Proofs.Machine.StackWords
import ThreadedForth.Proofs.Machine.Allotting
import ThreadedForth.Proofs.Memory.PastEnd
import ThreadedForth.Proofs.Dictionary.NextWord
import ThreadedForth.Proofs.Dictionary.Rounds
import ThreadedForth.Proofs.Dictionary.Uncommented
import ThreadedForth.Proofs.Machine.Comments
import ThreadedForth.Proofs.Machine.SourceFree
import ThreadedForth.Proofs.Machine.Beside
import ThreadedForth.Proofs.Machine.Commented
import ThreadedForth.Proofs.Walks
import ThreadedForth.Proofs.Dictionary.Circular
import ThreadedForth.Proofs.Dictionary.CodeWalk
import ThreadedForth.Proofs.Terminal.Tiled
import ThreadedForth.Proofs.Terminal.Decoded
import ThreadedForth.Proofs.Dictionary.Refilled
import ThreadedForth.Proofs.Machine.Refetched
import ThreadedForth.Proofs.Machine.Failing
import ThreadedForth.Proofs.Machine.Ended
import ThreadedForth.Proofs.Encoding
import ThreadedForth.Proofs.Dictionary.Missed
import ThreadedForth.Proofs.Machine.Course
import ThreadedForth.Proofs.Terminal.Marked
