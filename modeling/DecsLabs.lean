import DecsLabs.Core.Transition
import DecsLabs.Core.Pthread
import DecsLabs.Core.Discipline
import DecsLabs.Core.Block
import DecsLabs.Core.Pieces
import DecsLabs.Core.CString
import DecsLabs.Core.Window
import DecsLabs.Shell.Commands
import DecsLabs.Shell.Removal
import DecsLabs.Shell.Parsing
import DecsLabs.Shell.Stages
import DecsLabs.Shell.Redirections
import DecsLabs.Shell.Survival
import DecsLabs.Shell.Spills
import DecsLabs.Shell.Starts
import DecsLabs.Shell.Lines
import DecsLabs.Race.Sequential
import DecsLabs.Race.Repositioning
import DecsLabs.Race.Threads
import DecsLabs.Race.Steps
import DecsLabs.Race.Handshake
import DecsLabs.Race.Startup
import DecsLabs.Race.Refinement
import DecsLabs.Race.Deadlock
import DecsLabs.Barrier.Threads
import DecsLabs.Barrier.Accounting
import DecsLabs.Barrier.Rendezvous
import DecsLabs.Barrier.Phases
import DecsLabs.Barrier.Progress
import DecsLabs.Barrier.Alternation
import DecsLabs.Malloc.Heap
import DecsLabs.Malloc.Requests
import DecsLabs.Malloc.Blocks
import DecsLabs.Race.Termination
import DecsLabs.Race.Sleep
import DecsLabs.Core.Scanf
import DecsLabs.Race.Format
import DecsLabs.Shell.Input
import DecsLabs.Shell.Pipeline
import DecsLabs.Race.Checks
import DecsLabs.Shell.Process
import DecsLabs.Shell.Prompt
import DecsLabs.Shell.Descriptors
import DecsLabs.Shell.Sequencing
import DecsLabs.Shell.Arrays
import DecsLabs.Shell.Operators
import DecsLabs.Shell.Locality
import DecsLabs.Shell.Batch
import DecsLabs.Shell.Quotes
import DecsLabs.Shell.QuotedTokens
import DecsLabs.Shell.QuotedFiles
import DecsLabs.Cpu.Statistics
import DecsLabs.Cpu.Times
import DecsLabs.Shell.Children
import DecsLabs.Shell.Vectors
import DecsLabs.Shell.Preparation
import DecsLabs.Shell.Bounds
import DecsLabs.Shell.Tokenizer
import DecsLabs.Race.Cursor
import DecsLabs.Race.Locks
import DecsLabs.Malloc.Contents
import DecsLabs.Race.Arrival
import DecsLabs.Race.FirstTick
import DecsLabs.Core.Intervals
import DecsLabs.Malloc.Ranges
import DecsLabs.Malloc.Driver
import DecsLabs.Malloc.Tracking
import DecsLabs.Malloc.Verdict
import DecsLabs.Malloc.Honest
import DecsLabs.Malloc.Replays
import DecsLabs.Malloc.Utilisation
import DecsLabs.Malloc.TraceFile
import DecsLabs.Malloc.TraceReplays
import DecsLabs.Malloc.Session
import DecsLabs.Core.Outline
import DecsLabs.Core.Commute
import DecsLabs.Hello.Workers
import DecsLabs.Hello.Counters
import DecsLabs.Barrier.Teams
import DecsLabs.Barrier.Memory
import DecsLabs.Barrier.Routines
import DecsLabs.Barrier.Testcases
import DecsLabs.Core.Rounds
import DecsLabs.Race.Report
import DecsLabs.Race.Completion
import DecsLabs.Race.Runner
import DecsLabs.Core.Smallest
import DecsLabs.Timing.Sampler
import DecsLabs.Timing.Clock
