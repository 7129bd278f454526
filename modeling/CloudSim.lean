import CloudSim.Isolation
import CloudSim.Cleaners
import CloudSim.Multicast
import CloudSim.FirstInFirstOutOneByOneExact
import CloudSim.SingleAllreduce
import CloudSim.OneByOne
import CloudSim.Resource
import CloudSim.Heap
import CloudSim.ReadyAndGoLossless
import CloudSim.ByteSchedulerUrgency
import CloudSim.TearDown
import CloudSim.DeficitRoundRobinBookkeeping
import CloudSim.SincroniaBookkeeping
import CloudSim.WakeUp
import CloudSim.RoundsClean
import CloudSim.SincroniaBatches
import CloudSim.WorkConservation
import CloudSim.BssiOrder
import CloudSim.CoverageExact
import CloudSim.PlacementPolicy
import CloudSim.LastChunk
import CloudSim.SincroniaWeights
import CloudSim.SincroniaWeightsExact
import CloudSim.Lifetime
import CloudSim.BackToBack
import CloudSim.Barrier
import CloudSim.Settings
import CloudSim.SimplePipe
import CloudSim.Agreement
import CloudSim.Submission
import CloudSim.ProgressBar
import CloudSim.IterationMarks
import CloudSim.QueueNetwork
import CloudSim.Buffers
import CloudSim.Completion
import CloudSim.TrainingCompletion
import CloudSim.Leftovers
import CloudSim.TraceFile
import CloudSim.FirstInFirstOutOneByOneCompletion
