import GraphMpc.Protocol
import GraphMpc.ShufflePrivacy
import GraphMpc.Cleartext
import GraphMpc.Simulation
import GraphMpc.Consistency
import GraphMpc.ResultSlices
import GraphMpc.LockStep
import GraphMpc.Results
import GraphMpc.Concat
import GraphMpc.Frames
import GraphMpc.ZeroTest
import GraphMpc.Indices
import GraphMpc.ParallelSearch
import GraphMpc.GraphFile
import GraphMpc.Sampler
import GraphMpc.CriticalPath
import GraphMpc.Connections
import GraphMpc.Bounds
import GraphMpc.Deduplication
import GraphMpc.SortCircuit
import GraphMpc.Lifetimes
import GraphMpc.OpeningPrivacy
import GraphMpc.DeployedRun
import GraphMpc.DiskRun
import GraphMpc.PartySharing
import GraphMpc.Rounds
import GraphMpc.Reuse
import GraphMpc.SessionRun
import GraphMpc.StorageModes
import GraphMpc.SingleAssignment
import GraphMpc.TestRun
import GraphMpc.EdgeRun
