import HgXv6.Base
import HgXv6.Console.CopyText
import HgXv6.Console.Cursor
import HgXv6.Console.Erase
import HgXv6.Console.Fifo
import HgXv6.Console.Input
import HgXv6.Console.Page
import HgXv6.Console.Rows
import HgXv6.Console.Safety
import HgXv6.Console.Screen
import HgXv6.Console.Unbuffered
import HgXv6.Editor.Append
import HgXv6.Editor.Command
import HgXv6.Editor.Display
import HgXv6.Editor.Effect
import HgXv6.Editor.FindBack
import HgXv6.Editor.FindChar
import HgXv6.Editor.FindString
import HgXv6.Editor.Fresh
import HgXv6.Editor.FullBuffer
import HgXv6.Editor.Holes
import HgXv6.Editor.Indent
import HgXv6.Editor.Insert
import HgXv6.Editor.Invariant
import HgXv6.Editor.Keys
import HgXv6.Editor.Layout
import HgXv6.Editor.LineEdits
import HgXv6.Editor.LineOrder
import HgXv6.Editor.LineStart
import HgXv6.Editor.Motion
import HgXv6.Editor.OpenLine
import HgXv6.Editor.Percentage
import HgXv6.Editor.Prompt
import HgXv6.Editor.Reach
import HgXv6.Editor.RoundTrip
import HgXv6.Editor.Run
import HgXv6.Editor.Save
import HgXv6.Editor.ScreenMoves
import HgXv6.Editor.Search
import HgXv6.Editor.State
import HgXv6.Editor.StatusLine
import HgXv6.Editor.Sync
import HgXv6.Editor.TextEnd
import HgXv6.Editor.TopLine
import HgXv6.Editor.Vertical
import HgXv6.Editor.Viewport
import HgXv6.Editor.Window
import HgXv6.Editor.Words
import HgXv6.Kernel.BlockOwnership
import HgXv6.Kernel.BufferCache
import HgXv6.Kernel.BufferCoherence
import HgXv6.Kernel.BufferInvariant
import HgXv6.Kernel.BufferList
import HgXv6.Kernel.BufferWaits
import HgXv6.Kernel.Calls
import HgXv6.Kernel.Consistency
import HgXv6.Kernel.Contents
import HgXv6.Kernel.Descriptors
import HgXv6.Kernel.Directory
import HgXv6.Kernel.DirectoryMaps
import HgXv6.Kernel.Disk
import HgXv6.Kernel.Exec
import HgXv6.Kernel.ExecMemory
import HgXv6.Kernel.Failure
import HgXv6.Kernel.File
import HgXv6.Kernel.FileBytes
import HgXv6.Kernel.FileRefinement
import HgXv6.Kernel.FileSystem
import HgXv6.Kernel.GrowProc
import HgXv6.Kernel.Image
import HgXv6.Kernel.Inodes
import HgXv6.Kernel.LinkCounts
import HgXv6.Kernel.Log
import HgXv6.Kernel.LogSpace
import HgXv6.Kernel.Lookup
import HgXv6.Kernel.MemoryOwners
import HgXv6.Kernel.MemoryRuns
import HgXv6.Kernel.MemorySafety
import HgXv6.Kernel.Mkfs
import HgXv6.Kernel.Mode
import HgXv6.Kernel.NameCalls
import HgXv6.Kernel.NameSpace
import HgXv6.Kernel.Ownership
import HgXv6.Kernel.PageTable
import HgXv6.Kernel.PhysLayout
import HgXv6.Kernel.PhysMem
import HgXv6.Kernel.PhysSpaces
import HgXv6.Kernel.Pipe
import HgXv6.Kernel.ProcessTable
import HgXv6.Kernel.ProcessTree
import HgXv6.Kernel.Processes
import HgXv6.Kernel.Recovery
import HgXv6.Kernel.References
import HgXv6.Kernel.Robust
import HgXv6.Kernel.Room
import HgXv6.Kernel.Scheduling
import HgXv6.Kernel.UserBuffer
import HgXv6.Kernel.VirtualMemory
import HgXv6.Lib.Circle
import HgXv6.Lib.Hoare
import HgXv6.Lib.Holders
import HgXv6.Lib.Lines
import HgXv6.Lib.Loop
import HgXv6.Lib.Memory
import HgXv6.Lib.Names
import HgXv6.Lib.Outcome
import HgXv6.Lib.Overlay
import HgXv6.Lib.Ownership
import HgXv6.Lib.Queue
import HgXv6.Lib.Redo
import HgXv6.Lib.Ring
import HgXv6.Lib.Segment
import HgXv6.Lib.Transition
import HgXv6.User.AllocRun
import HgXv6.User.Allocator
import HgXv6.User.CopyFile
import HgXv6.User.CopyPath
import HgXv6.User.FreeList
import HgXv6.User.Sbrk
import HgXv6.User.Umalloc
