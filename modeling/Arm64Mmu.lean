import Arm64Mmu.Lib.Bits
import Arm64Mmu.Lib.Bytes
import Arm64Mmu.Lib.Compare
import Arm64Mmu.Lib.Greedy
import Arm64Mmu.Lib.Lock
import Arm64Mmu.Lib.Numeral
import Arm64Mmu.Lib.Radix
import Arm64Mmu.Lib.Renaming
import Arm64Mmu.Lib.Return
import Arm64Mmu.Lib.Runs
import Arm64Mmu.Lib.Sweep
import Arm64Mmu.Lib.Tiling
import Arm64Mmu.Lib.While
import Arm64Mmu.Libc.Compare
import Arm64Mmu.Libc.Console
import Arm64Mmu.Libc.Copy
import Arm64Mmu.Libc.Directive
import Arm64Mmu.Libc.Format
import Arm64Mmu.Libc.Printed
import Arm64Mmu.Libc.Printf
import Arm64Mmu.Libc.Search
import Arm64Mmu.Libc.Snprintf
import Arm64Mmu.Libc.Strlcpy
import Arm64Mmu.Loop.Arith
import Arm64Mmu.Loop.Call
import Arm64Mmu.Loop.Count
import Arm64Mmu.Loop.Echo
import Arm64Mmu.Loop.Frame
import Arm64Mmu.Loop.Leaves
import Arm64Mmu.Loop.Run
import Arm64Mmu.Loop.Shadow
import Arm64Mmu.Loop.Trail
import Arm64Mmu.Loop.Turn
import Arm64Mmu.Model.AddMap
import Arm64Mmu.Model.Boot
import Arm64Mmu.Model.Calls
import Arm64Mmu.Model.Console
import Arm64Mmu.Model.Libc
import Arm64Mmu.Model.Macros
import Arm64Mmu.Model.Printf
import Arm64Mmu.Model.Spinlock
import Arm64Mmu.Model.Walk
import Arm64Mmu.Result.Alignment
import Arm64Mmu.Result.Attributes
import Arm64Mmu.Result.BaseIndex
import Arm64Mmu.Result.Boot
import Arm64Mmu.Result.History
import Arm64Mmu.Result.Levels
import Arm64Mmu.Result.Order
import Arm64Mmu.Result.Permissions
import Arm64Mmu.Result.Pool
import Arm64Mmu.Result.Progress
import Arm64Mmu.Result.Repeat
import Arm64Mmu.Result.Spinlock
import Arm64Mmu.Result.Split
import Arm64Mmu.Result.Starvation
import Arm64Mmu.Result.Stores
import Arm64Mmu.Result.Tiling
import Arm64Mmu.Result.Translation
import Arm64Mmu.Result.Tree
import Arm64Mmu.Table.Descriptor
import Arm64Mmu.Table.Slot
import Arm64Mmu.Table.Stores
import Arm64Mmu.Table.Update
import Arm64Mmu.Table.View
import Arm64Mmu.Table.Wf
