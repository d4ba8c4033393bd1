import LinuxKernel.Proofs.Ida
import LinuxKernel.Proofs.Percpu
import LinuxKernel.Proofs.Timer
import LinuxKernel.Proofs.Swap
import LinuxKernel.Proofs.LockDeadlock
import LinuxKernel.Proofs.Utf
import LinuxKernel.Proofs.Kfifo
import LinuxKernel.Proofs.E820
import LinuxKernel.Proofs.PosixAcl
import LinuxKernel.Proofs.RadixGang
import LinuxKernel.Proofs.Slob
import LinuxKernel.Proofs.IpFragment
import LinuxKernel.Proofs.ExtentMap
import LinuxKernel.Proofs.TsnmapGabs
import LinuxKernel.Proofs.TraceFilter
import LinuxKernel.Proofs.IpTables
import LinuxKernel.Proofs.ResourceAlloc
import LinuxKernel.Proofs.IdrForEach
import LinuxKernel.Proofs.BtreePrev
import LinuxKernel.Proofs.PrioTreeNext
import LinuxKernel.Proofs.RbTreeAugment
import LinuxKernel.Proofs.LockFail
import LinuxKernel.Proofs.MemblockAlloc
import LinuxKernel.Proofs.BitmapArea
import LinuxKernel.Proofs.BitmapListRead
import LinuxKernel.Proofs.BitmapMap
import LinuxKernel.Proofs.BitmapShift
import LinuxKernel.Proofs.Range
import LinuxKernel.Proofs.RangeSort
import LinuxKernel.Proofs.FilterNlattr
import LinuxKernel.Proofs.KconfigCompare
import LinuxKernel.Proofs.RoundJiffies
import LinuxKernel.Proofs.SemUndo
import LinuxKernel.Proofs.CondExpr
import LinuxKernel.Proofs.EbitmapRead
import LinuxKernel.Proofs.PutDec
import LinuxKernel.Proofs.Rational
import LinuxKernel.Proofs.Sort
import LinuxKernel.Proofs.SndInterval
import LinuxKernel.Proofs.IntSqrt
import LinuxKernel.Proofs.TraceRegex
