import DepthOS.Proofs.Pmm
import DepthOS.Proofs.HeapBoot
import DepthOS.Proofs.Pipe
import DepthOS.Proofs.VmaMembers
import DepthOS.Proofs.VmSystem
import DepthOS.Proofs.Stack
import DepthOS.Proofs.Fault
import DepthOS.Proofs.SpaceRuns
import DepthOS.Proofs.Clone
import DepthOS.Proofs.MapAddr
import DepthOS.Proofs.Ext2Lookup
import DepthOS.Proofs.Ext2Holes
import DepthOS.Proofs.Multiboot
import DepthOS.Proofs.Fd
import DepthOS.Proofs.List
import DepthOS.Proofs.RootMount
import DepthOS.Proofs.Initrd
import DepthOS.Proofs.PipeEnds
import DepthOS.Proofs.Socket
import DepthOS.Proofs.Messages
import DepthOS.Proofs.Console
import DepthOS.Proofs.Format
import DepthOS.Proofs.SchedKernel
import DepthOS.Proofs.Stopped
import DepthOS.Proofs.AddressSpace
import DepthOS.Proofs.Reaping
import DepthOS.Proofs.Pids
import DepthOS.Proofs.SignalTarget
import DepthOS.Proofs.SignalReturn
import DepthOS.Proofs.SigKill
import DepthOS.Proofs.Bitmap
import DepthOS.Proofs.HeapAlign
import DepthOS.Proofs.Ext2Address
import DepthOS.Proofs.Ext2Exact
import DepthOS.Proofs.Ext2Errors
import DepthOS.Proofs.Ext2Scan
import DepthOS.Proofs.Ext2Walk
import DepthOS.Proofs.Unmap
import DepthOS.Proofs.Seek
import DepthOS.Proofs.Ksymbols
import DepthOS.Proofs.MmapFail
import DepthOS.Proofs.PagesAdded
import DepthOS.Proofs.Elf
import DepthOS.Proofs.ElfKernel
import DepthOS.Spec.NullStore
import DepthOS.Proofs.AnonFault
import DepthOS.Spec.InitStack
import DepthOS.Proofs.InitStack
import DepthOS.Spec.Ringbuffer
import DepthOS.Proofs.Ringbuffer
import DepthOS.Spec.Tty
import DepthOS.Proofs.Tty
import DepthOS.Proofs.PipeKeys
import DepthOS.Spec.PipeCall
import DepthOS.Proofs.PipeCall
import DepthOS.Spec.Readentry
import DepthOS.Proofs.Readentry
import DepthOS.Lib.Numeral
import DepthOS.Spec.Strconv
import DepthOS.Proofs.Digits
import DepthOS.Proofs.Itoa
import DepthOS.Spec.RichInt
import DepthOS.Proofs.RichInt
import DepthOS.Proofs.RichWidth
import DepthOS.Spec.FormatTrace
import DepthOS.Proofs.FormatTrace
import DepthOS.Proofs.FormatItems
import DepthOS.Proofs.FormatEcho
import DepthOS.Proofs.FormatSpelling
import DepthOS.Proofs.FormatArgs
import DepthOS.Proofs.BitVector
import DepthOS.Proofs.Recv
import DepthOS.Spec.Disk
import DepthOS.Proofs.Disk
import DepthOS.Spec.Gdt
import DepthOS.Proofs.Gdt
import DepthOS.Proofs.SignalMask
import DepthOS.Proofs.Framebuffer
import DepthOS.Proofs.Strsplt
import DepthOS.Lib.Lines
import DepthOS.Proofs.ConsoleText
import DepthOS.Proofs.Fairness
import DepthOS.Proofs.Storage
import DepthOS.Proofs.Terminal
import DepthOS.Proofs.UserFrames
import DepthOS.Proofs.UserMemory
import DepthOS.Proofs.PrivateMemory
import DepthOS.Proofs.ExitStatus
import DepthOS.Proofs.FileMap
import DepthOS.Proofs.OpenFile
import DepthOS.Proofs.ElfImage
