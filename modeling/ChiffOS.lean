import ChiffOS.Heap.SkipRuns
import ChiffOS.Heap.Realloc
import ChiffOS.Heap.Oversized
import ChiffOS.Ext2.AllocFormat
import ChiffOS.Ext2.Truncate
import ChiffOS.Mem.FrameSearch
import ChiffOS.Task.Fork
import ChiffOS.Task.Switch
import ChiffOS.Task.V86mon
import ChiffOS.Task.Exit
import ChiffOS.Task.Sbrk
import ChiffOS.Task.Descriptors
import ChiffOS.Elf.Arguments
import ChiffOS.Elf.Shebang
import ChiffOS.Vfs.Refcount
import ChiffOS.Vfs.Nesting
import ChiffOS.Vfs.TmpfsTwins
import ChiffOS.Vfs.Canonical
import ChiffOS.Vfs.ReadClip
import ChiffOS.Vfs.Readlink
import ChiffOS.Dev.AtaEnds
import ChiffOS.Dev.UnixPipe
import ChiffOS.Dev.TtyMaster
import ChiffOS.Dev.Polling
import ChiffOS.Dev.Keyboard
import ChiffOS.Dev.Console
import ChiffOS.Net.TryMail
import ChiffOS.Net.Random
import ChiffOS.Net.Rtl8139
import ChiffOS.Kutils.Memmove
import ChiffOS.Kutils.Args
import ChiffOS.Ext2.RoundTrip
import ChiffOS.Ext2.Geometry
import ChiffOS.Ext2.RawWalk
import ChiffOS.Data.HashmapRemove
import ChiffOS.Data.Bitset
import ChiffOS.Time.Cmos
import ChiffOS.Fmt.Strftime
import ChiffOS.Mem.ShmNames
import ChiffOS.Fmt.Vsnprintf
