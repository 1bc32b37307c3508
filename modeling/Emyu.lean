import Emyu.Lib.Run
import Emyu.Lib.Fifo
import Emyu.Lib.Mealy
import Emyu.Lib.Polling
import Emyu.Lib.Combinators
import Emyu.Lib.Behaviour
import Emyu.Lib.Adapters
import Emyu.Lib.Delay
import Emyu.Lib.Interleave
import Emyu.Lib.Select
import Emyu.Lib.Polled
import Emyu.Lib.Feed
import Emyu.Lib.Channels
import Emyu.Lib.Named
import Emyu.Lib.RefCell
import Emyu.Lib.Serial
import Emyu.Lib.RwLock
import Emyu.Lib.Tokens
import Emyu.Lib.Groups
import Emyu.Lib.Options
import Emyu.Command
import Emyu.Command.Monad
import Emyu.Command.Chain
import Emyu.Command.Map
import Emyu.Command.Collect
import Emyu.Command.Concat
import Emyu.Command.Fallible
import Emyu.Command.Batch
import Emyu.Command.Feed
import Emyu.Host
import Emyu.Host.Step
import Emyu.Host.Linear
import Emyu.Host.Tasks
import Emyu.Host.Stop
import Emyu.Host.Progress
import Emyu.Host.Builder
import Emyu.Host.Zoom
import Emyu.Command.Shortcut
import Emyu.Macro.Syntax
import Emyu.Macro.Attr
import Emyu.Macro.Parser
import Emyu.Macro.Shape
import Emyu.Macro.Generator
import Emyu.Macro.Panic
import Emyu.Macro.Routing
import Emyu.Macro.Signature
import Emyu.Macro.Calls
import Emyu.Macro.Frb
import Emyu.Macro.Entries
import Emyu.Macro.Fields
import Emyu.Macro.Interface
import Emyu.Macro.Names
import Emyu.Macro.Getters
import Emyu.Macro.Spellings
import Emyu.Host.Generated
import Emyu.Signal
import Emyu.Signal.History
import Emyu.Signal.Destroyed
import Emyu.Signal.Changed
import Emyu.Signal.Subscribers
import Emyu.Signal.Marking
import Emyu.Signal.Interleaving
import Emyu.Signal.Progress
import Emyu.Signal.Whole
import Emyu.Signal.Atomicity
import Emyu.Signal.Join
import Emyu.Signal.Joined
import Emyu.ModelTree
import Emyu.ModelTree.Flush
import Emyu.ModelTree.Hosted
import Emyu.ModelTree.Deferred
import Emyu.ModelTree.Borrows
import Emyu.ModelTree.Locks
import Emyu.ModelTree.Atomic
import Emyu.ModelTree.Poison
import Emyu.ModelTree.Zoom
import Emyu.World
import Emyu.World.Borrows
import Emyu.World.Sync
import Emyu.World.Poison
import Emyu.World.Waiting
import Emyu.ModelTree.Poison
