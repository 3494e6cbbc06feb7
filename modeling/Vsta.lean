import Vsta.Msg.QueueCount
import Vsta.Msg.Agreement
import Vsta.Msg.Release
import Vsta.Msg.Dangling
import Vsta.Msg.Registered
import Vsta.Perm.PermCtl
import Vsta.ResourceMap.Refinement
import Vsta.Vm.Faithful
import Vsta.Vas.Runs
import Vsta.Vstafs.Replies
import Vsta.Vstafs.FlatFile
import Vsta.Sema.ExitGroup
import Vsta.Sema.Protocol
import Vsta.Sema.UserSema
import Vsta.Pipe.Protocol
import Vsta.Swap.Accounting
import Vsta.Dos.FatRuns
import Vsta.Bfs.Contents
import Vsta.Bfs.Writers
import Vsta.Tmpfs.Contents
import Vsta.Tmpfs.Names
import Vsta.Env.Contents
import Vsta.Env.Refs
import Vsta.Env.Isolation
import Vsta.Namer.Tree
import Vsta.Mount.Runs
import Vsta.Exec.Survive
import Vsta.Selfs.Events
import Vsta.Pty.Protocol
import Vsta.Proc.Lifetime
import Vsta.Vstafs.CrashSafety
import Vsta.Sched.PickRun
import Vsta.Perm.Owner
import Vsta.Event.Delivery
import Vsta.Dos.Volume
import Vsta.Msg.CopyOut
import Vsta.Proc.Pids
import Vsta.Vstafs.Mapping
import Vsta.Fsck.Robust
import Vsta.Malloc.Sound
import Vsta.Vstafs.Leaks
import Vsta.Event.UserString
import Vsta.Dos.Chains
import Vsta.Dos.Prealloc
import Vsta.Dos.Slots
import Vsta.Dos.LongNames
import Vsta.Dos.NameSearch
import Vsta.Dos.ShortNames
import Vsta.Path.Dotdot
import Vsta.Path.Named
import Vsta.Path.Symlink
import Vsta.Library.Splice
import Vsta.Fdl.Balign
import Vsta.Fdl.BalignRead
import Vsta.Fdl.BalignWrite
import Vsta.Proc.OpenSlots
import Vsta.Perm.Wstat
import Vsta.Perm.Created
import Vsta.Selfs.Select
import Vsta.Selfs.Timer
import Vsta.Signal.Delivered
import Vsta.Vstafs.ReadDir
import Vsta.Wd.Partitions
import Vsta.Stdio.Refine
import Vsta.Abc.Refines
