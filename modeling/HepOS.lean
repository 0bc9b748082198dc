import HepOS.Ahci.Answers
import HepOS.Nvme.Requests
import HepOS.Nvme.Dma
import HepOS.Service.Instances
import HepOS.Nvme.Handoff
import HepOS.HepFS.OnDevice
import HepOS.HepFS.Memory
import HepOS.HepFS.CopyUnique
import HepOS.Boot.Storage
import HepOS.Display.Scene
import HepOS.Pmm.Shared
import HepOS.Heap.Separation
import HepOS.Process.Slots
import HepOS.Scheduler.Flags
import HepOS.Net.Stream
import HepOS.Boot.Memmap
import HepOS.Jobs.Owners
import HepOS.Process.Async
import HepOS.Scheduler.States
import HepOS.Locks.Event
import HepOS.Process.Layout
import HepOS.Process.Mmio
import HepOS.Process.Ports
import HepOS.Scheduler.Bypass
import HepOS.Rtl8139.Descriptors
import HepOS.Net.Wire
import HepOS.Desktop.Windows
import HepOS.E1000.Rings
import HepOS.Files.Grid
import HepOS.Heap.Bump
import HepOS.Editor.Find
