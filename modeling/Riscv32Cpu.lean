import Riscv32Cpu.Rvmini.Tables
import Riscv32Cpu.Rvmini.Blocks
import Riscv32Cpu.Rvmini.Logic
import Riscv32Cpu.Rvmini.Compare
import Riscv32Cpu.Rvmini.Shift
import Riscv32Cpu.Rvmini.Equality
import Riscv32Cpu.Rvmini.Branch
import Riscv32Cpu.Lib.Effect
import Riscv32Cpu.Nemu.Memory
import Riscv32Cpu.Nemu.Cpu
import Riscv32Cpu.Nemu.Refinement
import Riscv32Cpu.Nemu.Monitor
import Riscv32Cpu.Nemu.Confinement
import Riscv32Cpu.Lib.Trees
import Riscv32Cpu.X86Vme.Config
import Riscv32Cpu.X86Vme.Model
import Riscv32Cpu.X86Vme.Tables
import Riscv32Cpu.X86Vme.Walk
import Riscv32Cpu.X86Vme.Setup
import Riscv32Cpu.X86Vme.Refinement
import Riscv32Cpu.Lib.Chains
import Riscv32Cpu.NativeVme.Lists
import Riscv32Cpu.NativeVme.Remap
import Riscv32Cpu.Nemu.Split
import Riscv32Cpu.Nemu.Sdb
import Riscv32Cpu.Nemu.Keyboard
import Riscv32Cpu.Nemu.Invalid
import Riscv32Cpu.Nemu.ByteMemory
import Riscv32Cpu.Nemu.Mmio
import Riscv32Cpu.Nemu.DeviceSpace
import Riscv32Cpu.Nemu.Patterns
import Riscv32Cpu.Nemu.HexPatterns
import Riscv32Cpu.NemuX86.Registers
import Riscv32Cpu.NemuX86.Operands
import Riscv32Cpu.Rvmini.SubWord
import Riscv32Cpu.Rvmini.Assembly
import Riscv32Cpu.Rvmini.Lines
import Riscv32Cpu.Rvmini.Simulation
import Riscv32Cpu.Rvmini.Assembler
import Riscv32Cpu.Lib.Division
import Riscv32Cpu.Libgcc.Div
import Riscv32Cpu.Libgcc.Mul
import Riscv32Cpu.Nemu.Difftest
import Riscv32Cpu.Nemu.Skips
import Riscv32Cpu.Lib.Trace
import Riscv32Cpu.NativeAudio.Model
import Riscv32Cpu.NativeAudio.Fifo
import Riscv32Cpu.Lib.Ring
import Riscv32Cpu.NativeInput.Queue
import Riscv32Cpu.Sdcard.Model
import Riscv32Cpu.Sdcard.BlockStore
import Riscv32Cpu.ThreadOs.Scheduler
import Riscv32Cpu.Lib.Slots
import Riscv32Cpu.RiscvTrap.Model
import Riscv32Cpu.RiscvTrap.Frame
import Riscv32Cpu.X86Trap.Model
import Riscv32Cpu.X86Trap.Stack
import Riscv32Cpu.X86Trap.Entry
import Riscv32Cpu.X86Trap.Return
import Riscv32Cpu.X86Trap.Transparent
import Riscv32Cpu.Lib.Regexec
import Riscv32Cpu.Nemu.Expr
import Riscv32Cpu.QemuDiff.Protocol
import Riscv32Cpu.QemuDiff.Upload
import Riscv32Cpu.Lib.Rows
import Riscv32Cpu.QemuDiff.Registers
import Riscv32Cpu.Lib.Writes
import Riscv32Cpu.Lib.Loops
import Riscv32Cpu.X86Qemu.Fbdraw
import Riscv32Cpu.X86Qemu.Canvas
import Riscv32Cpu.X86Qemu.Render
import Riscv32Cpu.Lib.Calendar
import Riscv32Cpu.X86Qemu.Rtc
import Riscv32Cpu.NativeDisk.Disk
import Riscv32Cpu.X86Qemu.Boot
import Riscv32Cpu.X86Qemu.Load
import Riscv32Cpu.X86Qemu.MpTable
import Riscv32Cpu.Klib.Stdlib
import Riscv32Cpu.Klib.Atoi
import Riscv32Cpu.Lib.Mixing
import Riscv32Cpu.Microbench.Checksum
import Riscv32Cpu.Lib.Align
import Riscv32Cpu.Microbench.Alloc
import Riscv32Cpu.Lib.Bits
import Riscv32Cpu.Lib.Backtrack
import Riscv32Cpu.Microbench.Queen
import Riscv32Cpu.Kernels.SnakeGame
import Riscv32Cpu.Lib.Flow
import Riscv32Cpu.Microbench.Dinic.Model
import Riscv32Cpu.Microbench.Dinic.Residual
import Riscv32Cpu.Microbench.Dinic.Levels
import Riscv32Cpu.Microbench.Dinic.Augment
import Riscv32Cpu.Microbench.Dinic.Built
import Riscv32Cpu.Microbench.Dinic.Maxflow
import Riscv32Cpu.Lib.LoopCode
import Riscv32Cpu.Microbench.Brainfuck
import Riscv32Cpu.Klib.Int64
import Riscv32Cpu.Kernels.BfInterpreter
import Riscv32Cpu.QemuDiff.Wire
import Riscv32Cpu.QemuDiff.Session
import Riscv32Cpu.Lib.Rearrange
import Riscv32Cpu.Microbench.Qsort
import Riscv32Cpu.Microbench.Sieve
import Riscv32Cpu.Microbench.Fib
import Riscv32Cpu.Kconfig.Dependency
import Riscv32Cpu.Kconfig.Transform
