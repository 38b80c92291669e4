import Pintos.Kit.Run
import Pintos.Threads.Thread
import Pintos.Threads.Queues
import Pintos.Userprog.Descriptor
import Pintos.Userprog.Tables
import Pintos.Userprog.Dispatch
import Pintos.Userprog.Kernel
import Pintos.Userprog.Process
import Pintos.Userprog.Lifecycle
import Pintos.Lib.Bitmap
import Pintos.Threads.Palloc
import Pintos.Lib.Memory
import Pintos.Filesys.Inode
import Pintos.Filesys.InodeTable
import Pintos.Filesys.Directory
import Pintos.Lib.Bits
import Pintos.Userprog.Pagedir
import Pintos.Threads.Malloc
import Pintos.Threads.Synch
import Pintos.Lib.List
import Pintos.Kit.StableSort
import Pintos.Lib.ListSort
import Pintos.Lib.ListSystem
import Pintos.Kit.Buckets
import Pintos.Lib.Hash
import Pintos.Filesys.Create
import Pintos.Threads.Init
import Pintos.Lib.Ustar
import Pintos.Filesys.Fsutil
import Pintos.Userprog.Args
import Pintos.Kit.Fifo
import Pintos.Devices.Intq
import Pintos.Kit.Heap
import Pintos.Lib.Stdlib
import Pintos.Devices.Rtc
import Pintos.Devices.Vga
import Pintos.Devices.Partition
import Pintos.Kit.Division
import Pintos.Lib.Arithmetic
import Pintos.Devices.Serial
import Pintos.Userprog.Load
import Pintos.Lib.String
import Pintos.Lib.Stdio
import Pintos.Kit.Printf
import Pintos.Devices.Kbd
import Pintos.Lib.Random
import Pintos.Kit.Grouped
import Pintos.Lib.Console
import Pintos.Devices.Timer
import Pintos.Kit.Fields
import Pintos.Userprog.Gdt
import Pintos.Threads.Interrupt
import Pintos.Threads.Tick
import Pintos.Lib.BitmapWords
