import InaneOS.Lib.Bytes
import InaneOS.Lib.Chain
import InaneOS.Lib.Trace
import InaneOS.Lib.Fold
import InaneOS.Lib.Pieces
import InaneOS.Lib.Ring
import InaneOS.Lib.Bitmap
import InaneOS.Lib.Checked
import InaneOS.Lib.Tab
import InaneOS.Lib.Radix
import InaneOS.Lib.NextFit
import InaneOS.Lib.Stack
import InaneOS.Lib.Orbit
import InaneOS.Lib.Lines
import InaneOS.Lib.Clear
import InaneOS.Lib.Poll
import InaneOS.Lib.Simulate
import InaneOS.Fat.Disk
import InaneOS.Fat.Names
import InaneOS.Fat.Volume
import InaneOS.Fat.Write
import InaneOS.Fat.Layout
import InaneOS.Fat.Table
import InaneOS.Fat.Tree
import InaneOS.Fat.TreeGrow
import InaneOS.Fat.TreePut
import InaneOS.Fat.Scan
import InaneOS.Fat.Paths
import InaneOS.Fat.Walk
import InaneOS.Fat.Read
import InaneOS.Fat.NewChain
import InaneOS.Fat.OldNew
import InaneOS.Fat.Store
import InaneOS.Fat.FatWrite
import InaneOS.Fat.Certify
import InaneOS.Fat.Guarantees
import InaneOS.Fat.Resolve
import InaneOS.Fat.Calls
import InaneOS.Fat.PathBuf
import InaneOS.Fat.Spelling
import InaneOS.Fat.Looping
import InaneOS.Fat.Endless
import InaneOS.Fat.Alloc
import InaneOS.Fat.Clusters
import InaneOS.Fat.Rollback
import InaneOS.Fat.Failing
import InaneOS.Fat.Leak
import InaneOS.Fat.Listing
import InaneOS.Fat.Cwd
import InaneOS.Fs.Nodes
import InaneOS.Fs.Invariant
import InaneOS.Fs.Reference
import InaneOS.Fs.Parts
import InaneOS.Fs.Refine
import InaneOS.Fs.Reopen
import InaneOS.Fs.Getcwd
import InaneOS.Fs.Mount
import InaneOS.Kernel.Emit
import InaneOS.Kernel.Partlist
import InaneOS.Kernel.PartScan
import InaneOS.Drivers.Keyboard
import InaneOS.Drivers.E1000
import InaneOS.Drivers.E1000Rx
import InaneOS.Drivers.Vga
import InaneOS.Drivers.Pci
import InaneOS.Drivers.VgaWrite
import InaneOS.Drivers.KeyPrefix
import InaneOS.Drivers.Ide
import InaneOS.Drivers.Ata
import InaneOS.Drivers.IdeRun
import InaneOS.Mem.Pmm
import InaneOS.Mem.Vmm
import InaneOS.Mem.Tables
import InaneOS.Mem.Grow
import InaneOS.Mem.Map
import InaneOS.Mem.Unmap
import InaneOS.Mem.Elf
import InaneOS.Mem.Load
import InaneOS.Mem.Loader
import InaneOS.Mem.Program
import InaneOS.Mem.Serve
import InaneOS.Mem.Image
import InaneOS.Mem.Memmap
import InaneOS.Mem.Boot
import InaneOS.Mem.Count
import InaneOS.Mem.Enter
import InaneOS.Mem.Run
import InaneOS.Mem.Ledger
import InaneOS.Mem.Direct
import InaneOS.Mem.Protect
import InaneOS.Mem.Bounds
import InaneOS.Mem.OnePage
import InaneOS.Mem.Clean
import InaneOS.Mem.Filled
import InaneOS.Mem.Loaded
import InaneOS.Mem.InPlace
import InaneOS.Mem.Args
import InaneOS.User.Expr
import InaneOS.User.Grammar
import InaneOS.User.Keo
import InaneOS.User.KeoKeys
import InaneOS.User.KeoText
import InaneOS.User.KeoLoad
import InaneOS.User.KeoEdit
import InaneOS.User.KeoPage
import InaneOS.User.KeoInv
import InaneOS.User.KeoFile
import InaneOS.User.KeoClean
import InaneOS.User.KeoScreen
import InaneOS.User.ShellHistory
import InaneOS.User.Moon
import InaneOS.User.KeoPending
import InaneOS.User.Divide
import InaneOS.User.PutDec
import InaneOS.Fat.ListOut
import InaneOS.Fat.Rounds
import InaneOS.Kernel.Syscall
import InaneOS.Kernel.System
import InaneOS.Kernel.Invariant
import InaneOS.Kernel.Confine
import InaneOS.Kernel.SysTree
import InaneOS.Fat.Catalog
import InaneOS.Fat.Files
import InaneOS.Kernel.SysFat
import InaneOS.Kernel.Durable
import InaneOS.Kernel.Reboot
