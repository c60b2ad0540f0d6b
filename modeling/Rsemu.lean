import Rsemu.Base.Word
import Rsemu.Base.Forest
import Rsemu.Base.Sweep
import Rsemu.Base.SortedMap
import Rsemu.Base.Codec
import Rsemu.Base.Blocks
import Rsemu.Base.Rounding
import Rsemu.Clock.Rational
import Rsemu.Clock.Forest
import Rsemu.Clock.Recompute
import Rsemu.Clock.Invariant
import Rsemu.Clock.Topology
import Rsemu.Clock.Reparent
import Rsemu.Clock.Ticks
import Rsemu.Clock.Timeline
import Rsemu.Space.Region
import Rsemu.Space.Flat
import Rsemu.Space.Point
import Rsemu.Space.Decode
import Rsemu.Space.Build
import Rsemu.Space.Topology
import Rsemu.Space.Sharing
import Rsemu.Space.Refresh
import Rsemu.Space.Rebase
import Rsemu.Space.Coherence
import Rsemu.State.Wire
import Rsemu.State.Shape
import Rsemu.State.Snapshot
import Rsemu.State.Canonical
import Rsemu.Record.Log
import Rsemu.Record.Recorder
import Rsemu.Record.Rewind
import Rsemu.Sched.Queue
import Rsemu.Sched.Wheel
import Rsemu.Sched.Fire
import Rsemu.Sched.Deadline
import Rsemu.Ir.Block
import Rsemu.Ir.Liveness
import Rsemu.Ir.Regalloc
import Rsemu.Ir.Residence
import Rsemu.Ir.Interp
import Rsemu.Ir.Publish
import Rsemu.Jit.Plan
import Rsemu.Base.Slab
import Rsemu.Jit.Cache
import Rsemu.Jit.CacheInvariant
import Rsemu.Jit.CacheOps
import Rsemu.Jit.CacheRuns
import Rsemu.Float.Format
import Rsemu.Float.Kernel
import Rsemu.Float.Settle
import Rsemu.Float.Flags
import Rsemu.Float.Arith
import Rsemu.Float.Exact
import Rsemu.Float.Fused
import Rsemu.Float.Encoding
import Rsemu.Float.Correct
import Rsemu.Float.Remainder
import Rsemu.Float.Reduction
import Rsemu.Float.Enclosure
import Rsemu.Virtio.Queue
import Rsemu.Virtio.Walk
import Rsemu.Virtio.Sums
import Rsemu.Base.Overlay
import Rsemu.Virtio.Blk
import Rsemu.Virtio.Cuts
import Rsemu.Virtio.Mmio
import Rsemu.Virtio.Board
import Rsemu.Virtio.Doorbell
import Rsemu.Virtio.Reset
import Rsemu.Virtio.Rings
import Rsemu.Virtio.InOrder
import Rsemu.Gdb.Packet
import Rsemu.Riscv.Csr
import Rsemu.Riscv.Trap
import Rsemu.Riscv.Modes
import Rsemu.Riscv.Isolation
import Rsemu.Riscv.Pmp
import Rsemu.Riscv.Tlb
import Rsemu.Pic.Setup
import Rsemu.Mac.Decode
import Rsemu.Amiga.Turned
import Rsemu.Usermode.Wake
import Rsemu.Usermode.Turns
import Rsemu.Plic.Gateway
import Rsemu.Vnc.Cuts
import Rsemu.Vnc.Screen
import Rsemu.Clock.Locked
import Rsemu.Clock.Line
import Rsemu.Space.Dispatch
import Rsemu.Space.Monitor
import Rsemu.Ir.Panics
import Rsemu.Ir.Widths
import Rsemu.Ir.Assigned
import Rsemu.Base.Pairing
import Rsemu.State.Diff
import Rsemu.Sched.Cancel
import Rsemu.Jit.Bounds
import Rsemu.Machine.Rational
import Rsemu.Machine.Ast
import Rsemu.Machine.Value
import Rsemu.Machine.Expand
import Rsemu.Machine.Lexical
import Rsemu.Machine.Resolver
import Rsemu.Machine.Finish
import Rsemu.Machine.Distinct
import Rsemu.Machine.Bindings
import Rsemu.Gdb.Resync
import Rsemu.Amiga.Ends
import Rsemu.Machine.Agree
import Rsemu.Base.Search
import Rsemu.Machine.Order
import Rsemu.Virtio.Honest
import Rsemu.Pic.Nesting
import Rsemu.Props.Scalar
import Rsemu.Props.Syntax
import Rsemu.Props.Exact
import Rsemu.Fdt.Tree
import Rsemu.Fdt.Writer
import Rsemu.Fdt.Reader
import Rsemu.Fdt.Written
import Rsemu.Mac.Turned
import Rsemu.Riscv.Pages
import Rsemu.Clock.Nanos
import Rsemu.Usermode.Journal
import Rsemu.Sched.Grid
import Rsemu.Usermode.Placement
import Rsemu.Acpi.Recovered
import Rsemu.Nvme.Blocks
import Rsemu.Nvme.Rings
import Rsemu.Nvme.Recovery
import Rsemu.Float.Monotone
