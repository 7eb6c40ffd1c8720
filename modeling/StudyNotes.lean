import StudyNotes.Heap.Program
import StudyNotes.Heap.Triple
import StudyNotes.Heap.Relational
import StudyNotes.Heap.Bytes
import StudyNotes.Heap.Variants
import StudyNotes.Heap.Mirror
import StudyNotes.Heap.Placement
import StudyNotes.Heap.Outcome
import StudyNotes.Words.CommonPrefix
import StudyNotes.Words.Suffixes
import StudyNotes.Words.BreadthFirst
import StudyNotes.Words.GreedyCut
import StudyNotes.Words.Seams
import StudyNotes.Words.Leftmost
import StudyNotes.Words.BasicString
import StudyNotes.Words.Collapse
import StudyNotes.Words.Outline
import StudyNotes.Words.CLanguage
import StudyNotes.Lists.SublistSums
import StudyNotes.Lists.Overwrite
import StudyNotes.Lists.Latest
import StudyNotes.Systems.Transition
import StudyNotes.Systems.Interaction
import StudyNotes.Systems.Refinement
import StudyNotes.Systems.TestAndSet
import StudyNotes.Systems.Shares
import StudyNotes.Codes.Base64
import StudyNotes.Codes.Decimal
import StudyNotes.Codes.LittleEndian
import StudyNotes.Codes.HttpRequest
import StudyNotes.Codes.Hexadecimal
import StudyNotes.Shell.Tokens
import StudyNotes.Shell.Accounting
import StudyNotes.Shell.Quoting
import StudyNotes.Shell.Templates
import StudyNotes.Dates.BusinessDays
import StudyNotes.Dates.Gregorian
import StudyNotes.Radix.Refine
import StudyNotes.Radix.Runs
import StudyNotes.Radix.MultisetBehaviour
import StudyNotes.Radix.HeapShape
import StudyNotes.Radix.Traversal
import StudyNotes.Radix.ReachableHeaps
import StudyNotes.Radix.Assertions
import StudyNotes.Radix.Canonical
import StudyNotes.Radix.KeyLength
import StudyNotes.Radix.Erasing
import StudyNotes.Radix.LongestMatch
import StudyNotes.Radix.Enumeration
import StudyNotes.Radix.InPlaceEdits
import StudyNotes.Radix.ByteRuns
import StudyNotes.Radix.Printing
import StudyNotes.Automaton.Runs
import StudyNotes.Automaton.Counting
import StudyNotes.Automaton.Coverage
import StudyNotes.Automaton.Indices
import StudyNotes.Receipt.Plan
import StudyNotes.UvAsync.Handoff
import StudyNotes.UvAsync.Spinning
import StudyNotes.UvAsync.Completion
import StudyNotes.Zsock.Waking
import StudyNotes.Workers.Tasks
import StudyNotes.Workers.Ticks
import StudyNotes.Epoll.Backlog
import StudyNotes.Epoll.Reading
import StudyNotes.Epoll.Starving
import StudyNotes.Echo.Routing
import StudyNotes.Echo.Capacity
import StudyNotes.Echo.Sizes
import StudyNotes.Cluster.Lifecycle
import StudyNotes.Cluster.Leaving
import StudyNotes.Cluster.Agreement
import StudyNotes.Cluster.Handlers
import StudyNotes.Cluster.Creation
import StudyNotes.Cluster.Reconnect
import StudyNotes.Cluster.Ancestors
import StudyNotes.Mail.Encoding
import StudyNotes.Mail.Sending
import StudyNotes.Mail.Attachment
import StudyNotes.Mail.Transparency
import StudyNotes.Mail.Wrapper
import StudyNotes.Exchange.Calendars
import StudyNotes.Exchange.PledgeRepo
import StudyNotes.Exchange.CashBond
import StudyNotes.Exchange.Settlement
import StudyNotes.Exchange.ClosedRuns
import StudyNotes.Charset.CodeConvert
import StudyNotes.Http.UriParts
import StudyNotes.Http.Posting
import StudyNotes.Http.Sending
import StudyNotes.Http.Serialisation
import StudyNotes.Http.InFlight
import StudyNotes.Curl.Delivery
import StudyNotes.NodeZk.Session
import StudyNotes.NodeZk.Lifecycle
import StudyNotes.Exchange.OutrightRepo
import StudyNotes.ThreadEcho.Program
import StudyNotes.ThreadEcho.Serving
import StudyNotes.ThreadEcho.Echoing
