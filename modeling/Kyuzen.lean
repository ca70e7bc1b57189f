import Kyuzen.Lib.Bitmap
import Kyuzen.Lib.Memory
import Kyuzen.Pmm.Model
import Kyuzen.Pmm.Init
import Kyuzen.Pmm.Alloc
import Kyuzen.Pmm.Reserved
import Kyuzen.Pmm.Account
import Kyuzen.Pmm.Boot
import Kyuzen.Heap.Model
import Kyuzen.Heap.Blocks
import Kyuzen.Heap.Refinement
import Kyuzen.Heap.Expand
import Kyuzen.Heap.Alloc
import Kyuzen.Heap.Tiling
import Kyuzen.Heap.Coalesce
import Kyuzen.Heap.Frame
import Kyuzen.Heap.Sizes
import Kyuzen.Kfs.Model
import Kyuzen.Lib.Chain
import Kyuzen.Kfs.Layout
import Kyuzen.Kfs.Tree
import Kyuzen.Kfs.Represents
import Kyuzen.Kfs.Walks
import Kyuzen.Kfs.Calls
import Kyuzen.Kfs.Effects
import Kyuzen.Kfs.Runs
import Kyuzen.Kfs.Persistence
import Kyuzen.Kfs.Paths
import Kyuzen.Kfs.Files
import Kyuzen.Lib.Radix
import Kyuzen.Paging.Model
import Kyuzen.Paging.Tables
import Kyuzen.Paging.Translate
import Kyuzen.Paging.Spaces
import Kyuzen.Paging.System
import Kyuzen.Paging.Map
import Kyuzen.Paging.Frames
import Kyuzen.Paging.Owner
import Kyuzen.Paging.KernelHalf
import Kyuzen.Paging.Conserve
import Kyuzen.Paging.Elsewhere
import Kyuzen.Paging.Leak
import Kyuzen.Paging.Room
import Kyuzen.Elf.Model
import Kyuzen.Elf.Confined
import Kyuzen.Lib.Places
import Kyuzen.Sched.Model
import Kyuzen.Sched.Fits
import Kyuzen.Sched.Queues
import Kyuzen.Sched.Aging
import Kyuzen.Lib.Ledger
import Kyuzen.Sched.Cpus
import Kyuzen.Sched.Stacks
import Kyuzen.Sched.Teardown
import Kyuzen.Sched.Ticks
import Kyuzen.Lib.Run
import Kyuzen.Sched.Sleep
import Kyuzen.Sched.Runnable
import Kyuzen.Ping.Model
import Kyuzen.Ping.Safe
import Kyuzen.Ping.Pbuf
import Kyuzen.Sync.Model
import Kyuzen.Sync.Waits
import Kyuzen.Sync.Wakeups
import Kyuzen.Kfs.View
import Kyuzen.Vfs.Model
import Kyuzen.Vfs.Effects
import Kyuzen.Vfs.WriteBack
import Kyuzen.Vfs.Snapshot
import Kyuzen.Vfs.Source
import Kyuzen.Proc.Model
import Kyuzen.Proc.Spaces
import Kyuzen.Proc.Runs
import Kyuzen.Proc.Exit
import Kyuzen.Proc.Exec
import Kyuzen.Lib.Virtual
import Kyuzen.Lib.Writes
import Kyuzen.Paging.Bytes
import Kyuzen.Proc.Pages
import Kyuzen.Proc.UserHeap
import Kyuzen.Proc.Contents
import Kyuzen.Kwm.Model
import Kyuzen.Kwm.Focus
import Kyuzen.Kwm.Stacking
import Kyuzen.Kwm.AltTab
import Kyuzen.Kwm.Normalize
import Kyuzen.Lib.Painter
import Kyuzen.Lib.Decimal
import Kyuzen.Lib.Numeral
import Kyuzen.Shell.Numbers
import Kyuzen.E1000.Send
import Kyuzen.E1000.Netif
import Kyuzen.E1000.Poll
import Kyuzen.Ui.TreeView
import Kyuzen.Lib.Lines
import Kyuzen.Ui.TextEdit
import Kyuzen.Ui.TextClick
import Kyuzen.Lib.LineEnds
import Kyuzen.Desktop.Manifest
import Kyuzen.Ui.Painter
import Kyuzen.Ui.Window
import Kyuzen.Kwm.Compositor
import Kyuzen.Kwm.Repaint
import Kyuzen.Kwm.HitTest
import Kyuzen.Kwm.Damage
import Kyuzen.Kwm.Flush
import Kyuzen.Kwm.DamageRuns
import Kyuzen.Display.Model
import Kyuzen.Display.Blit
import Kyuzen.Display.Dirty
import Kyuzen.Lib.Ring
import Kyuzen.Gpu.Virtqueue
import Kyuzen.Gpu.Protocol
import Kyuzen.Gpu.Surface
import Kyuzen.Gpu.Backing
import Kyuzen.Gpu.Capabilities
import Kyuzen.Gpu.Present
import Kyuzen.Ghal.Model
import Kyuzen.Ghal.Agree
import Kyuzen.Net.Socket
import Kyuzen.Net.Send
import Kyuzen.Net.Stream
import Kyuzen.Net.Table
import Kyuzen.Net.Incarnations
import Kyuzen.Kwm.Syscalls
import Kyuzen.Kwm.Owners
import Kyuzen.Event.Model
import Kyuzen.Event.Addressee
import Kyuzen.Event.Fifo
import Kyuzen.Usercopy.Model
import Kyuzen.Usercopy.Exact
import Kyuzen.Lib.Image
import Kyuzen.Loader.Model
import Kyuzen.Loader.Image
import Kyuzen.Loader.Enough
import Kyuzen.Loader.Files
import Kyuzen.Loader.Loaded
import Kyuzen.Loader.Correct
import Kyuzen.Loader.Disclosed
import Kyuzen.Loader.Premapped
import Kyuzen.Loader.Reads
import Kyuzen.Loader.Leaks
import Kyuzen.Loader.Frames
import Kyuzen.Proc.Spawn
import Kyuzen.Kfs.Listing
import Kyuzen.Kfs.Lookups
import Kyuzen.Kfs.Touched
import Kyuzen.Kfs.AnyDisk
import Kyuzen.Kfs.ReadBounds
import Kyuzen.Kfs.Loops
import Kyuzen.Kfs.Malformed
import Kyuzen.Usercopy.Listings
import Kyuzen.Kfs.Capacity
import Kyuzen.Kfs.Space
import Kyuzen.Kfs.Backed
import Kyuzen.Kfs.Trace
import Kyuzen.Kfs.Replace
import Kyuzen.Vfs.Lossless
import Kyuzen.Vfs.Checked
import Kyuzen.Vfs.Bounds
import Kyuzen.Vfs.Reference
import Kyuzen.Vfs.Refinement
import Kyuzen.Tty.Model
import Kyuzen.Tty.Painting
import Kyuzen.Tty.Scrollback
import Kyuzen.Timer.Clock
import Kyuzen.Print.Num
import Kyuzen.Input.Keyboard
import Kyuzen.Input.Modifiers
import Kyuzen.Input.Typed
import Kyuzen.Input.Mouse
import Kyuzen.Input.Packets
import Kyuzen.Smp.Spinlock
import Kyuzen.Smp.Exclusion
import Kyuzen.Input.Shared
import Kyuzen.Smp.BringUp
import Kyuzen.Smp.Online
import Kyuzen.Login.Model
import Kyuzen.Login.RoundTrip
import Kyuzen.Ata.Model
import Kyuzen.Ata.Store
import Kyuzen.Ui.Layout
import Kyuzen.Ui.Pieces
import Kyuzen.Ui.Settings
import Kyuzen.Zen.Model
import Kyuzen.Zen.Session
import Kyuzen.Desktop.Launcher
