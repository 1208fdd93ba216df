import Xv6Riscv.Alarm.Safety
import Xv6Riscv.Alarm.Timer
import Xv6Riscv.Mlfq.Aging
import Xv6Riscv.Mlfq.Preempt
import Xv6Riscv.Log.Group
import Xv6Riscv.Dir.Orderly
import Xv6Riscv.Dir.LinkCounts
import Xv6Riscv.Dir.Paths
import Xv6Riscv.Proc.Inherit
import Xv6Riscv.Proc.Progress
import Xv6Riscv.Proc.RoundRobin
import Xv6Riscv.Slot.ByPid
import Xv6Riscv.Vm.Layout
import Xv6Riscv.Vm.Perms
import Xv6Riscv.File.Read
import Xv6Riscv.User.Memmove
import Xv6Riscv.User.Match
import Xv6Riscv.User.Bytes
import Xv6Riscv.Fork.Failed
import Xv6Riscv.PageTable.Map
import Xv6Riscv.Pipes.Fifo
import Xv6Riscv.Virtio.Protocol
import Xv6Riscv.Sched.Fcfs
import Xv6Riscv.Sched.Tickets
import Xv6Riscv.Proc.Clock
import Xv6Riscv.Sched.Accounts
import Xv6Riscv.Slot.Waitx
