import Sandflea.Ext2.AddDirEntry
import Sandflea.Ext2.InodeRoundTrip
import Sandflea.Fs.ReadLaw
import Sandflea.Fs.Sharing
import Sandflea.Fs.Drives
import Sandflea.Terminal.Bounds
import Sandflea.Terminal.Capture
import Sandflea.Input.Modifiers
import Sandflea.Ipc.ShmAccess
import Sandflea.Vmm.Translation
import Sandflea.Vmm.DeviceMaps
import Sandflea.Terminal.KeysToForeground
import Sandflea.Terminal.PushBuf
import Sandflea.Terminal.PushRouting
import Sandflea.Terminal.Csi
import Sandflea.Terminal.Isolation
import Sandflea.Wasm.Confined
import Sandflea.Wasm.Args
import Sandflea.Wasm.ModuleCache
import Sandflea.Compositor.InBounds
import Sandflea.Compositor.FillRect
import Sandflea.Compositor.Runtimes
import Sandflea.Compositor.Ownership
import Sandflea.Compositor.EventQueue
import Sandflea.Ipc.KeyRing
import Sandflea.Ipc.Orphans
import Sandflea.Ipc.Wakeup
import Sandflea.Sched.SpawnSound
import Sandflea.Sched.TaskRing
import Sandflea.Sched.Foreground
import Sandflea.Shell.OwnOutput
import Sandflea.Shell.Delivery
import Sandflea.Wm.Focus
import Sandflea.Wm.TermGrid
import Sandflea.Xhci.EventRing
import Sandflea.Xhci.PostingRings
import Sandflea.Heap.Release
import Sandflea.Heap.Resize
import Sandflea.Heap.SizeSafety
import Sandflea.Fs.Seek
import Sandflea.Fs.ResolvePath
import Sandflea.Ext2.FreeCounts
import Sandflea.Vmm.Pmalloc
import Sandflea.Wasm.Descriptors
import Sandflea.Strings.StrSplit
import Sandflea.Strings.Numbers
import Sandflea.Screen.Boxes
import Sandflea.Input.HidReports
import Sandflea.Input.Mouse
import Sandflea.Xhci.ConfigDescriptor
import Sandflea.Lib.Copies
import Sandflea.Screen.QuakeBlit
import Sandflea.Screen.QuakeExact
import Sandflea.Strings.OwnedStr
import Sandflea.Shell.CmdParse
import Sandflea.Strings.CLibrary
import Sandflea.Drivers.Ide
import Sandflea.Drivers.Pci
import Sandflea.Lib.Leb128
import Sandflea.Wat.Buffer
import Sandflea.Wat.Lexer
import Sandflea.Wat.Parser
import Sandflea.Lib.Stopping
import Sandflea.Wat.Compile
import Sandflea.Wat.OutOfMemory
import Sandflea.Wat.IntConst
import Sandflea.Lib.Brackets
import Sandflea.Dashboard.ProfileToFlame
import Sandflea.Ext2.Mount
