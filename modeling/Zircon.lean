import Zircon.Status
import Zircon.MBuf.Basic
import Zircon.MBuf.Read
import Zircon.MBuf.Write
import Zircon.MBuf.Run
import Zircon.MBuf.Contents
import Zircon.MBuf.StreamRead
import Zircon.MBuf.StreamWrite
import Zircon.MBuf.Stream
import Zircon.MBuf.DatagramRead
import Zircon.MBuf.DatagramWrite
import Zircon.MBuf.Datagram
import Zircon.MBuf.Peek
import Zircon.MBuf.Pages
import Zircon.MBuf.Safety
import Zircon.MBuf.Session
import Zircon.MBuf.Calls
import Zircon.Acpi.PhysToPtr
import Zircon.Acpi.Cache
import Zircon.X86.Crashlog
import Zircon.Vm.PageBorrowing
