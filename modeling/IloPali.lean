import IloPali.Lib.Transition
import IloPali.Lib.RadixTree
import IloPali.PageOwnership
import IloPali.PageMap
import IloPali.Interrupt
import IloPali.Scheduling
import IloPali.TrapHandler
import IloPali.Context
import IloPali.Fairness
import IloPali.Boot
import IloPali.Lib.Fifo
import IloPali.Queue
import IloPali.Hashmap
import IloPali.Fdt
import IloPali.FdtPath
import IloPali.Heap
import IloPali.HeapLists
import IloPali.HeapRuns
import IloPali.FirstFit
import IloPali.HeapUse
import IloPali.HeapContents
import IloPali.HeapRequests
import IloPali.AddressSpace
import IloPali.MapFailure
import IloPali.Translate
import IloPali.Console
import IloPali.ConsoleCall
import IloPali.Loader
import IloPali.InitialStack
import IloPali.Fat16
import IloPali.FileReader
import IloPali.FatVolume
import IloPali.FatDirectory
import IloPali.FileTermination
import IloPali.FdtProperty
import IloPali.FdtProgress
import IloPali.FileLookup
import IloPali.ElfBounds
import IloPali.HeapFrame
import IloPali.Loading
import IloPali.Spawning
import IloPali.ArgumentVector
import IloPali.DirectMap
import IloPali.HashmapEntries
import IloPali.HashmapFind
import IloPali.HashmapBlocks
import IloPali.HashmapAccess
import IloPali.Hexdump
import IloPali.ArgumentPage
import IloPali.LastSlot
import IloPali.ArgumentOverrun
import IloPali.KernelProtection
import IloPali.LoaderWrites
import IloPali.Isolation
import IloPali.SpinLock
import IloPali.PageLock
import IloPali.UserRuns
import IloPali.TranslationCache
import IloPali.InterruptStacks
import IloPali.KernelLocks
import IloPali.HeapGrowth
import IloPali.Startup
import IloPali.FdtDump
import IloPali.BootIsolation
import IloPali.FdtAddress
import IloPali.FdtRelocation
import IloPali.InterruptController
