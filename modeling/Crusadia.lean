import Crusadia.Cos.Metadata
import Crusadia.Vfs.Atomic
import Crusadia.Vfs.Libc
import Crusadia.Vfs.Append
import Crusadia.Vfs.ContextRun
import Crusadia.Kernel.ElfImage
import Crusadia.Kernel.UserHeapRun
import Crusadia.Vfs.Sqlite
import Crusadia.Kernel.Env
import Crusadia.Kernel.Console
import Crusadia.Usb.EhciRing
import Crusadia.Usb.XhciEvent
import Crusadia.Usb.Pump
import Crusadia.Vfs.Bounds
import Crusadia.Host.Exchange
import Crusadia.Cos.Geometry
import Crusadia.Cos.Release
import Crusadia.Fat.Alloc
import Crusadia.Fat.Walk
import Crusadia.Fat.Stat
import Crusadia.Vfs.Foreign
import Crusadia.Vfs.Tags
import Crusadia.Kernel.ArenaRun
import Crusadia.Kernel.Frames
import Crusadia.Kernel.Argv
import Crusadia.Vfs.Mounts
import Crusadia.Libc.Crt0
import Crusadia.Libc.Embedded
import Crusadia.Drivers.Ahci
import Crusadia.Drivers.Rtc
import Crusadia.Usb.Keyboard
import Crusadia.Usb.Hub
import Crusadia.Kernel.Stdin
