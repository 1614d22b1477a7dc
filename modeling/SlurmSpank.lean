import SlurmSpank.Foundation.Run
import SlurmSpank.Foundation.Pool
import SlurmSpank.Foundation.Block
import SlurmSpank.Foundation.Decimal
import SlurmSpank.Foundation.Hexadecimal
import SlurmSpank.Foundation.Hierarchy
import SlurmSpank.Foundation.Separation
import SlurmSpank.Foundation.Regex
import SlurmSpank.Foundation.Scanner
import SlurmSpank.Lib.List
import SlurmSpank.Lib.CpuSet
import SlurmSpank.Cpuset.Bitmask
import SlurmSpank.Cpuset.Conf
import SlurmSpank.Cpuset.Nodemap
import SlurmSpank.Cpuset.NodemapStep
import SlurmSpank.Cpuset.NodemapTraversal
import SlurmSpank.Cpuset.NodemapAllocate
import SlurmSpank.Cpuset.NodemapCreate
import SlurmSpank.Cpuset.NodemapRun
import SlurmSpank.Cpuset.NodemapLayout
import SlurmSpank.Cpuset.Path
import SlurmSpank.Cpuset.Tree
import SlurmSpank.Cpuset.Slurm
import SlurmSpank.Cpuset.Create
import SlurmSpank.Cpuset.UserCpuset
import SlurmSpank.Cpuset.CreateOutcome
import SlurmSpank.Cpuset.Atomicity
import SlurmSpank.Cpuset.Counts
import SlurmSpank.Cpuset.Canonical
import SlurmSpank.Cpuset.Update
import SlurmSpank.Cpuset.Clean
import SlurmSpank.Cpuset.CleanLoops
import SlurmSpank.Cpuset.Operations
import SlurmSpank.Cpuset.Isolation
import SlurmSpank.Cpuset.NoLeak
import SlurmSpank.Cpuset.Pam
import SlurmSpank.Cpuset.LoginSafety
import SlurmSpank.UseEnv.Condition
import SlurmSpank.UseEnv.Grammar
import SlurmSpank.UseEnv.Conditional
import SlurmSpank.UseEnv.TaskBlock
import SlurmSpank.UseEnv.Symbol
import SlurmSpank.UseEnv.SymbolLayers
import SlurmSpank.UseEnv.Item
import SlurmSpank.UseEnv.Parser
import SlurmSpank.UseEnv.ParserSafety
import SlurmSpank.UseEnv.Lexer
import SlurmSpank.UseEnv.Machine
import SlurmSpank.UseEnv.Session
import SlurmSpank.UseEnv.Evaluation
import SlurmSpank.UseEnv.LexerStep
import SlurmSpank.UseEnv.IncludeStack
import SlurmSpank.UseEnv.Termination
import SlurmSpank.UseEnv.Balance
import SlurmSpank.UseEnv.FileIsolation
import SlurmSpank.UseEnv.Alike
import SlurmSpank.UseEnv.Boundary
import SlurmSpank.UseEnv.Replacement
import SlurmSpank.UseEnv.TextEnd
import SlurmSpank.UseEnv.StatementEnd
import SlurmSpank.UseEnv.Inlining
import SlurmSpank.UseEnv.Continuation
import SlurmSpank.UseEnv.IncludeInPlace
import SlurmSpank.AutoAffinity.Mask
import SlurmSpank.AutoAffinity.Assignment
import SlurmSpank.AutoAffinity.Sharing
import SlurmSpank.LuaSchedutils.CpusetStr
import SlurmSpank.LuaSchedutils.Convert
import SlurmSpank.LuaSchedutils.RoundTrip
import SlurmSpank.LuaSchedutils.HexMask
import SlurmSpank.Foundation.Interleaving
import SlurmSpank.Overcommit.Shared
import SlurmSpank.Overcommit.Process
import SlurmSpank.Overcommit.Places
import SlurmSpank.Overcommit.InitializationStep
import SlurmSpank.Overcommit.Semaphore
import SlurmSpank.Overcommit.PolicyStep
import SlurmSpank.Overcommit.Table
import SlurmSpank.Overcommit.RestoreStep
import SlurmSpank.Overcommit.Initialization
import SlurmSpank.Overcommit.Policy
import SlurmSpank.Overcommit.Restore
import SlurmSpank.Foundation.Reader
import SlurmSpank.SystemSafe.Wire
import SlurmSpank.SystemSafe.Fidelity
import SlurmSpank.SystemSafe.Delivery
import SlurmSpank.SystemSafe.World
import SlurmSpank.SystemSafe.Change
import SlurmSpank.SystemSafe.Callers
import SlurmSpank.SystemSafe.Stream
import SlurmSpank.SystemSafe.Replies
import SlurmSpank.SystemSafe.Session
import SlurmSpank.SystemSafe.Concurrency
import SlurmSpank.SystemSafe.Framing
import SlurmSpank.Foundation.Environ
import SlurmSpank.PreserveEnv.Preserve
import SlurmSpank.PreserveEnv.RoundTrip
import SlurmSpank.LuaSchedutils.Stack
import SlurmSpank.LuaSchedutils.Methods
import SlurmSpank.LuaSchedutils.MethodSteps
import SlurmSpank.LuaSchedutils.Calls
import SlurmSpank.LuaSchedutils.Pairs
import SlurmSpank.LuaSchedutils.Accumulation
import SlurmSpank.LuaSchedutils.AllOrNothing
import SlurmSpank.Foundation.LuaNumbers
import SlurmSpank.Foundation.ValueStack
import SlurmSpank.SpankLua.Script
import SlurmSpank.SpankLua.Callback
import SlurmSpank.SpankLua.Process
import SlurmSpank.SpankLua.Registry
import SlurmSpank.SpankLua.Balance
import SlurmSpank.Foundation.Greedy
import SlurmSpank.Cpuset.NodemapGreedy
import SlurmSpank.Cpuset.NodemapWorstFit
import SlurmSpank.Cpuset.NodemapIdle
import SlurmSpank.Foundation.Tokens
import SlurmSpank.Cpuset.Setting
import SlurmSpank.Cpuset.ConfLexer
import SlurmSpank.Cpuset.ConfParser
import SlurmSpank.Cpuset.ConfGrammar
import SlurmSpank.Cpuset.ConfOptions
import SlurmSpank.Cpuset.ConfIdle
import SlurmSpank.Cpuset.ConfLines
import SlurmSpank.Cpuset.ConfLayout
import SlurmSpank.UseEnv.Comparison
import SlurmSpank.UseEnv.TestExpr
import SlurmSpank.UseEnv.Assignment
import SlurmSpank.Foundation.CharBuffer
import SlurmSpank.UseEnv.TokenBuffer
import SlurmSpank.AutoAffinity.FastPath
import SlurmSpank.Foundation.Progression
import SlurmSpank.AutoAffinity.CpuList
import SlurmSpank.AutoAffinity.CpuListEnd
import SlurmSpank.AutoAffinity.CpuListIndex
import SlurmSpank.AutoAffinity.Options
import SlurmSpank.AutoAffinity.CpuListRefused
import SlurmSpank.AutoAffinity.OptionErrors
import SlurmSpank.AutoAffinity.StoredList
import SlurmSpank.AutoAffinity.TaskInit
import SlurmSpank.AutoAffinity.TaskBounds
import SlurmSpank.AutoAffinity.UserInit
import SlurmSpank.Foundation.Separated
import SlurmSpank.LuaSchedutils.HexDigits
import SlurmSpank.LuaSchedutils.HexGrammar
import SlurmSpank.LuaSchedutils.ListElement
import SlurmSpank.LuaSchedutils.ListGrammar
import SlurmSpank.Overcommit.Slots
import SlurmSpank.SpankLua.OptionTable
import SlurmSpank.SpankLua.RegisterOption
import SlurmSpank.SpankLua.Registrations
import SlurmSpank.SpankLua.Dispatch
import SlurmSpank.Foundation.Chain
import SlurmSpank.Foundation.FreeList
import SlurmSpank.Lib.ListMemory
import SlurmSpank.Lib.ListCursor
import SlurmSpank.Lib.ListPlaces
import SlurmSpank.Lib.ListNodes
import SlurmSpank.Lib.ListSorting
import SlurmSpank.Lib.ListIterators
import SlurmSpank.Lib.ListLoops
import SlurmSpank.Lib.ListDeletion
import SlurmSpank.Lib.ListCalls
import SlurmSpank.Lib.ListIteration
import SlurmSpank.Lib.ListConservation
import SlurmSpank.Foundation.Holdings
import SlurmSpank.Foundation.AdvisoryLock
import SlurmSpank.Cpuset.Holdings
import SlurmSpank.Cpuset.Daemons
import SlurmSpank.Cpuset.DaemonSteps
import SlurmSpank.Cpuset.DaemonRuns
import SlurmSpank.Foundation.Sweep
import SlurmSpank.LuaSchedutils.Functions
import SlurmSpank.LuaSchedutils.Iterator
import SlurmSpank.LuaSchedutils.Frame
import SlurmSpank.LuaSchedutils.Expand
import SlurmSpank.PrivateMount.Mount
import SlurmSpank.PrivateMount.Runs
import SlurmSpank.PrivateMount.Directories
