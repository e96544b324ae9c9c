import SmcSim.DgraphTeenage
import SmcSim.DmaAlone
import SmcSim.DmaWait
import SmcSim.DoubleFlatCombining
import SmcSim.DramBuffer
import SmcSim.DriverCalls
import SmcSim.FlatCombiningArray
import SmcSim.FlatCombiningProgress
import SmcSim.FlatCombiningSkipListPass
import SmcSim.KernelImage
import SmcSim.LazyListLinear
import SmcSim.LinkedListExactlyOnce
import SmcSim.LinkedListHeap
import SmcSim.LockFreeArrayQueue
import SmcSim.LockFreeQueueLinear
import SmcSim.MatrixAdd
import SmcSim.PimXbar
import SmcSim.SearchTree
import SmcSim.SerialBridge
import SmcSim.SgraphBfsQueue
import SmcSim.SgraphCreation
import SmcSim.SgraphHygiene
import SmcSim.SkipListConservation
import SmcSim.SkipListHandover
import SmcSim.SkipListInitLoop
import SmcSim.SkipListLevels
import SmcSim.SkipListReduced
import SmcSim.TaskPages
import SmcSim.TlbModes
import SmcSim.TlbRefills
import SmcSim.TlbRestoration
import SmcSim.TlbStructure
