import Pintos.Threads.MallocRuns
import Pintos.Threads.PallocExclusive
import Pintos.Threads.Semaphores
import Pintos.Threads.ConditionRuns
import Pintos.Userprog.LoadImage
import Pintos.Filesys.FlatIo
import Pintos.Filesys.DenyWrites
import Pintos.Devices.InterruptQueueRuns
import Pintos.LibKernel.Console
import Pintos.Devices.DiskChannel
import Pintos.Utils.ScratchDisk
import Pintos.Filesys.AllocationFailure
import Pintos.LibKernel.ListOrdered
import Pintos.Threads.EntryBits
import Pintos.Threads.Teardown
import Pintos.LibC.Arithmetic
import Pintos.LibKernel.BitmapArray
import Pintos.LibKernel.HashIteration
import Pintos.LibC.Stdlib
import Pintos.LibC.StdlibAtoi
import Pintos.Devices.Timer
import Pintos.LibC.Strings
import Pintos.LibC.Random
import Pintos.LibC.StringTokens
