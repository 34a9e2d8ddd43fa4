import NetProg.Lib.FdTable
import NetProg.ForkSpec
import NetProg.Shell.Model
import NetProg.Shell.Schedule
import NetProg.Shell.Combine
import NetProg.Lib.Naming
import NetProg.Shell.Countdown
import NetProg.Shell.Line
import NetProg.Shell.Refinement
import NetProg.Shell.NumberPipes
import NetProg.Shell.PipeEnds
import NetProg.Shell.Removal
import NetProg.Shell.StandardError
import NetProg.Shell.Descriptors
import NetProg.Socks.Relay
import NetProg.Socks.Transparency
import NetProg.Socks.Firewall
import NetProg.Socks.Teardown
import NetProg.Socks.SockSession
import NetProg.Lib.Pieces
import NetProg.Server.Framing
import NetProg.Lib.BoundedPipe
import NetProg.Shell.Waiting
import NetProg.Wiring
import NetProg.Console.Model
import NetProg.Lib.Cover
import NetProg.Console.Pacing
import NetProg.Lib.Html
import NetProg.Lib.JavaScript
import NetProg.Console.Script
import NetProg.Console.Handshake
import NetProg.Server.Call
import NetProg.Server.Rejection
import NetProg.Server.Leaving
import NetProg.Server.Users
import NetProg.Server.Holding
import NetProg.Server.Identity
import NetProg.Server.Environment
import NetProg.Server.Reuse
import NetProg.Socks.Segmentation
import NetProg.Lib.Run
import NetProg.Multi.Clisem
import NetProg.Multi.Names
import NetProg.Multi.Signals
import NetProg.Multi.Mailbox
import NetProg.Multi.Lifecycle
import NetProg.Multi.UserPipes
import NetProg.Server.Concurrent
import NetProg.Lib.Ledger
import NetProg.Server.UserLine
import NetProg.Server.Posting
import NetProg.Server.Matching
import NetProg.Server.Waiting
import NetProg.Lib.Population
import NetProg.PathSearch
import NetProg.OneShell
import NetProg.Lib.Log
import NetProg.Batch.Model
import NetProg.Batch.Typing
import NetProg.Batch.Equality
import NetProg.Batch.Difference
import NetProg.OpenedFiles
import NetProg.ArgumentVectors
import NetProg.Lib.Scan
import NetProg.Shell.Access
import NetProg.Server.Access
import NetProg.Socks.RoundTrip
import NetProg.Lib.Escaping
import NetProg.Console.Lossless
import NetProg.Lib.Directory
import NetProg.Server.Names
import NetProg.Lib.Slots
import NetProg.Multi.Model
import NetProg.Admission
import NetProg.Multi.Line
import NetProg.Multi.Subscripts
import NetProg.Multi.Refusal
import NetProg.Lib.StdString
import NetProg.Http.Request
import NetProg.Lib.Regex
import NetProg.Http.QueryString
import NetProg.Shell.Input
import NetProg.Lib.Format
import NetProg.Server.Notices
import NetProg.Multi.Notices
import NetProg.Notices
import NetProg.Lib.Buffered
import NetProg.Server.Untouched
import NetProg.Server.Output
import NetProg.Socks.RuleLines
import NetProg.Server.Accounting
import NetProg.Server.Conservation
import NetProg.Lib.SemSet
import NetProg.Multi.Semaphore
import NetProg.Multi.SemaphoreRuns
import NetProg.Lib.Network
import NetProg.Shell.Flow
import NetProg.Shell.Delivery
import NetProg.Shell.Transcript
import NetProg.Shell.Progress
import NetProg.Lib.Quiescence
import NetProg.Server.Flow
import NetProg.Server.Children
import NetProg.Server.Delivery
import NetProg.Server.Transcripts
import NetProg.Console.Page
import NetProg.Console.Form
