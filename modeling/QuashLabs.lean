import QuashLabs.Transition.Reachable
import QuashLabs.Transition.Occupancy
import QuashLabs.Transition.LockOrder
import QuashLabs.Transition.Endless
import QuashLabs.Ring.Window
import QuashLabs.Lexing.Pattern
import QuashLabs.Lexing.Munch
import QuashLabs.Checked.Outcome
import QuashLabs.Checked.Run
import QuashLabs.Checked.Results
import QuashLabs.Memory.Malloc
import QuashLabs.Memory.Ownership
import QuashLabs.Linked.Segment
import QuashLabs.Sorting.StableInsertion
import QuashLabs.Environment.Store
import QuashLabs.Streams.Lines
import QuashLabs.Descriptors.Table
import QuashLabs.Descriptors.Pipes
import QuashLabs.ProducerConsumer.Core
import QuashLabs.ProducerConsumer.Tokens
import QuashLabs.ProducerConsumer.Schedules
import QuashLabs.ProducerConsumer.Bounds
import QuashLabs.ProducerConsumer.Buffer
import QuashLabs.ProducerConsumer.Order
import QuashLabs.ProducerConsumer.Overwrites
import QuashLabs.ProducerConsumer.Progress
import QuashLabs.ProducerConsumer.Termination
import QuashLabs.PtCount.Termination
import QuashLabs.Fifo.Transfer
import QuashLabs.DiningPhilosophers.Table
import QuashLabs.DiningPhilosophers.Waiter.Core
import QuashLabs.DiningPhilosophers.Waiter.Wakeups
import QuashLabs.DiningPhilosophers.Waiter.Exclusion
import QuashLabs.DiningPhilosophers.Waiter.Termination
import QuashLabs.DiningPhilosophers.Asymmetric.Core
import QuashLabs.DiningPhilosophers.Asymmetric.Ownership
import QuashLabs.DiningPhilosophers.Asymmetric.Progress
import QuashLabs.DiningPhilosophers.Asymmetric.Shutdown
import QuashLabs.DiningPhilosophers.Asymmetric.Termination
import QuashLabs.PriorityQueue.Core
import QuashLabs.PriorityQueue.Links
import QuashLabs.PriorityQueue.Runs
import QuashLabs.PriorityQueue.Drain
import QuashLabs.PriorityQueue.Contract
import QuashLabs.QuashProject.Redirections
import QuashLabs.QuashProject.Alignment
import QuashLabs.QuashProject.OwnFiles
import QuashLabs.QuashProject.Commands
import QuashLabs.QuashProject.Waits
import QuashLabs.QuashProject.CmdParser
import QuashLabs.QuashProject.Main
import QuashLabs.QuashProject.ArgumentArrays
import QuashLabs.QuashProject.Execution
import QuashLabs.QuashProject.Connections
import QuashLabs.QuashProject.Pipelines
import QuashLabs.QuashProject.Variables
import QuashLabs.QuashProject.Echo
import QuashLabs.QuashProject.Export
import QuashLabs.QuashProject.Kill
import QuashLabs.QuashProject.Builtins
import QuashLabs.QuashProj.Jobs
import QuashLabs.QuashProj.Announcements
import QuashLabs.QuashProj.JobIds
import QuashLabs.QuashProj.ParseArgs
import QuashLabs.QuashProj.Interpret
import QuashLabs.QuashProj.ExecStatement
import QuashLabs.QuashProj.Segments
import QuashLabs.Quash.Machine
import QuashLabs.Quash.Deque.Core
import QuashLabs.Quash.Deque.Represents
import QuashLabs.Quash.Deque.Specs
import QuashLabs.Quash.Deque.Runs
import QuashLabs.Quash.Deque.Bounds
import QuashLabs.Quash.MemoryPool.Core
import QuashLabs.Quash.MemoryPool.Invariant
import QuashLabs.Quash.MemoryPool.Regions
import QuashLabs.Quash.MemoryPool.AtExit
import QuashLabs.Quash.MemoryPool.Release
import QuashLabs.Quash.Parsing.Strings
import QuashLabs.Quash.Parsing.Template
import QuashLabs.Quash.Parsing.AnyString
import QuashLabs.Quash.Parsing.Quotes
import QuashLabs.Quash.Parsing.Expansion
import QuashLabs.Quash.Parsing.Concatenation
import QuashLabs.Bison.Skeleton
import QuashLabs.Bison.Steps
import QuashLabs.Bison.Automaton
import QuashLabs.Bison.Lines
import QuashLabs.Bison.Completeness
import QuashLabs.Bison.Climb
import QuashLabs.Quash.Parsing.Tables
import QuashLabs.Quash.Parsing.Scanner
import QuashLabs.Quash.Parsing.Literals
import QuashLabs.Quash.Parsing.Command
import QuashLabs.Quash.Parsing.BareWords
import QuashLabs.Quash.Parsing.Numerals
import QuashLabs.Quash.Parsing.Actions
import QuashLabs.Quash.Parsing.Types
import QuashLabs.Quash.Parsing.Grammar
import QuashLabs.Quash.Parsing.Phases
import QuashLabs.Quash.Parsing.Prefixes
import QuashLabs.Quash.Parsing.Accepted
import QuashLabs.Quash.Parsing.Calls
import QuashLabs.Quash.Parsing.Heights
import QuashLabs.Quash.Parsing.Session
import QuashLabs.Quash.Parsing.Holders
import QuashLabs.Quash.Parsing.Redirections
import QuashLabs.Quash.Parsing.Entries
import QuashLabs.Quash.Parsing.BuiltinNames
import QuashLabs.Quash.Parsing.Arguments
import QuashLabs.Quash.Parsing.Stringify
import QuashLabs.Quash.Parsing.Condense
import QuashLabs.Quash.Parsing.Listing
import QuashLabs.Quash.Parsing.Home
import QuashLabs.Quash.Main
import QuashLabs.Quash.MemoryPool.Alignment
import QuashLabs.Quash.Parsing.Rereading.Script
