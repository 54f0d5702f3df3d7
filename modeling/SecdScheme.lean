import SecdScheme.Lib.SortedAssoc
import SecdScheme.Lib.OrderedMap
import SecdScheme.Lib.ChainedMap
import SecdScheme.Lib.Llrb
import SecdScheme.Lib.LlrbBalance
import SecdScheme.Lib.Cmd
import SecdScheme.Lib.CmdCongruence
import SecdScheme.RbTree.Code
import SecdScheme.RbTree.Refine
import SecdScheme.RbTree.Repair
import SecdScheme.RbTree.Descent
import SecdScheme.RbTree.Runs
import SecdScheme.RbTree.Handle
import SecdScheme.RbTree.Validate
import SecdScheme.HashTable.Code
import SecdScheme.HashTable.Buckets
import SecdScheme.HashTable.Tables
import SecdScheme.HashTable.Runs
import SecdScheme.HashTable.Collections
import SecdScheme.Lib.CmdGhost
import SecdScheme.Lib.CmdErrors
import SecdScheme.Lib.CmdAlike
import SecdScheme.RbCal.Code
import SecdScheme.RbCal.Api
import SecdScheme.RbCal.Confined
import SecdScheme.RbCal.Updates
import SecdScheme.RbCal.Sessions
import SecdScheme.RbCal.Ledger
import SecdScheme.RbCal.Snapshots
import SecdScheme.RbCal.Trees
import SecdScheme.RbCal.Validation
import SecdScheme.RbCal.Bulk
import SecdScheme.RbCal.Repairs
import SecdScheme.RbCal.Descents
import SecdScheme.RbCal.Upkeep
import SecdScheme.RbCal.OrderStatistics
import SecdScheme.Scheme14.Values
import SecdScheme.Scheme14.Syntax
import SecdScheme.Scheme14.Primitives
import SecdScheme.Scheme14.Arithmetic
import SecdScheme.RbTree.Comparators
import SecdScheme.Lib.EventRuns
import SecdScheme.SystemLib.Promise
import SecdScheme.SystemLib.Queue
import SecdScheme.Scheme14.Compiler
import SecdScheme.Scheme14.Machine
import SecdScheme.Scheme14.Calls
import SecdScheme.Scheme14.CallsRelated
import SecdScheme.Scheme14.Growth
import SecdScheme.Scheme14.OrdinaryHost
import SecdScheme.Scheme14.Lists
import SecdScheme.Scheme14.Forms
import SecdScheme.Scheme14.FormCode
import SecdScheme.Scheme14.Operands
import SecdScheme.Scheme14.Expansion
import SecdScheme.Scheme14.Scope
import SecdScheme.Scheme14.Undisturbed
import SecdScheme.Scheme14.Internal
import SecdScheme.Scheme14.NamedLet
import SecdScheme.Scheme14.Temporaries
import SecdScheme.Scheme14.Renaming
import SecdScheme.Scheme14.Capture
import SecdScheme.Scheme14.TailCode
import SecdScheme.Scheme14.Activations
import SecdScheme.Scheme14.Reported
import SecdScheme.Scheme14.Dotted
import SecdScheme.Scheme14.Mistakes
import SecdScheme.Scheme14.Frozen
import SecdScheme.Scheme14.Accessors
import SecdScheme.Scheme14.CodeTyping
import SecdScheme.Scheme14.Certified
import SecdScheme.Scheme14.CompilerSound
import SecdScheme.Scheme14.MachineSound
import SecdScheme.Scheme14.Safety
import SecdScheme.Scheme14.TailCalls
import SecdScheme.Scheme14.ProperTailCalls
import SecdScheme.Scheme14.Depth
import SecdScheme.Scheme14.Reader
import SecdScheme.Scheme14.Grammar
import SecdScheme.Scheme14.Pieces
import SecdScheme.Scheme14.Sources
import SecdScheme.Scheme14.PortReader
import SecdScheme.Scheme14.Balance
import SecdScheme.Scheme14.Boxes
import SecdScheme.Scheme14.Printer
import SecdScheme.Scheme14.Printing
import SecdScheme.Scheme14.WriteRead
import SecdScheme.Scheme14.Radix
import SecdScheme.Scheme14.RoundTrip
import SecdScheme.Scheme14.Handlers
import SecdScheme.Scheme14.Loading
import SecdScheme.Scheme14.MultipleValues
import SecdScheme.Scheme14.ListWalks
import SecdScheme.Scheme14.Endless
import SecdScheme.Scheme14.Numeric
import SecdScheme.Scheme14.CommandLine
import SecdScheme.Scheme14.Ports
import SecdScheme.Scheme14.ClosedPorts
import SecdScheme.Lib.Stepping
import SecdScheme.Scheme14.Reference
import SecdScheme.Scheme14.CoreCode
import SecdScheme.Lib.CmdPaired
import SecdScheme.Scheme14.CoreSteps
import SecdScheme.Scheme14.CoreRefinement
import SecdScheme.Scheme14.CoreForms
import SecdScheme.Scheme14.Winds
import SecdScheme.RbTree.Databases
import SecdScheme.SystemLib.Primes
