import Tet4120Lab.Lib.Steps
import Tet4120Lab.Lib.Simulation
import Tet4120Lab.Lib.BoundedQueue
import Tet4120Lab.Lib.RingWindow
import Tet4120Lab.Lib.Schedule
import Tet4120Lab.Lib.Rounding
import Tet4120Lab.Lib.Accumulation
import Tet4120Lab.Lib.WriteBack
import Tet4120Lab.Lib.DoubleRead
import Tet4120Lab.Lib.Access
import Tet4120Lab.Lib.LittleEndian
import Tet4120Lab.Comm.CommInterface
import Tet4120Lab.Comm.Callbacks
import Tet4120Lab.Comm.Linux
import Tet4120Lab.Comm.System
import Tet4120Lab.Comm.Fifo
import Tet4120Lab.Comm.Service
import Tet4120Lab.Comm.Startup
import Tet4120Lab.Comm.Duplex
import Tet4120Lab.Comm.Cells
import Tet4120Lab.Comm.Layout
import Tet4120Lab.Comm.Accesses
import Tet4120Lab.Comm.Interleaving
import Tet4120Lab.Comm.WaitFree
import Tet4120Lab.Mmu.TranslationTable
import Tet4120Lab.Mmu.Tlb
import Tet4120Lab.Mmu.SetWay
import Tet4120Lab.Mmu.CacheRange
import Tet4120Lab.Mmu.SharedMemory
import Tet4120Lab.Mmu.MemoryMap
import Tet4120Lab.Comm.OnChip
import Tet4120Lab.Fp32
import Tet4120Lab.Isr.PwmIsr
import Tet4120Lab.Isr.GlobalTimer
import Tet4120Lab.Load.Emulator
import Tet4120Lab.Load.Controller
import Tet4120Lab.Load.PumpTorque
import Tet4120Lab.Sfun.Parameters
import Tet4120Lab.Sfun.Block
import Tet4120Lab.Sfun.History
import Tet4120Lab.Sfun.Ports
import Tet4120Lab.Sfun.Selector
import Tet4120Lab.Load.Agreement
