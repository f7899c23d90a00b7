import LinuxTraining.Library.Execution
import LinuxTraining.Library.Memory
import LinuxTraining.Library.Partition
import LinuxTraining.Library.CString
import LinuxTraining.Library.Stdio
import LinuxTraining.Allocator.PoolTiling
import LinuxTraining.MatrixProduct.MainProgram
import LinuxTraining.SignalSync.Alternation
import LinuxTraining.Speedtest.HttpFile
import LinuxTraining.Speedtest.Buffers
import LinuxTraining.Speedtest.Accounting
import LinuxTraining.Speedtest.WorkerTargets
import LinuxTraining.Speedtest.ServerList
import LinuxTraining.Speedtest.Probes
import LinuxTraining.Speedtest.SameDirectory
import LinuxTraining.Socket.Descriptors
import LinuxTraining.Socket.ClientCount
import LinuxTraining.Socket.LockStep
import LinuxTraining.Socket.Answers
import LinuxTraining.Socket.Sides
import LinuxTraining.Semaphores.ProducerConsumer
import LinuxTraining.Semaphores.LostNumbers
import LinuxTraining.FileSystem.OutputFile
import LinuxTraining.FileSystem.SubFile
import LinuxTraining.FileSystem.Listing
import LinuxTraining.Allocator.PoolSizes
import LinuxTraining.Allocator.Freeing
import LinuxTraining.Allocator.Alignment
import LinuxTraining.Allocator.StoreRefinement
import LinuxTraining.Speedtest.Ports
import LinuxTraining.Speedtest.Slots
import LinuxTraining.MutexSync.StoredOnce
import LinuxTraining.MutexSync.InitMutex
import LinuxTraining.Scripts.PrimeListing
import LinuxTraining.Scripts.UniqueNumber
import LinuxTraining.Scripts.GroupValues
import LinuxTraining.Semaphores.Completion
import LinuxTraining.MutexSync.Completion
import LinuxTraining.MatrixProduct.ExactProduct
import LinuxTraining.Speedtest.ThreadTable
import LinuxTraining.Speedtest.Shutdown
import LinuxTraining.Speedtest.RunProc
import LinuxTraining.Semaphores.NamedSemaphore
import LinuxTraining.Semaphores.ForkTree
import LinuxTraining.SharedMemory.Message
import LinuxTraining.Descriptors.PipeChild
import LinuxTraining.Descriptors.LoginLog
import LinuxTraining.FileSystem.PrintedTable
