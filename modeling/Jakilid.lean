import Jakilid.Lib.LittleEndian
import Jakilid.Lib.FloatFormat
import Jakilid.Traits
import Jakilid.Serializer
import Jakilid.SerializerTheorems
import Jakilid.Lib.CellStore
import Jakilid.Cuckoo.Hashing
import Jakilid.Cuckoo.Table
import Jakilid.Cuckoo.Insert
import Jakilid.Cuckoo.TableTheorems
import Jakilid.Lib.BreadthFirst
import Jakilid.Cuckoo.DoubleTheorems
import Jakilid.Cuckoo.SearchTheorems
import Jakilid.Cuckoo.InsertTheorems
import Jakilid.Cuckoo.PathTheorems
import Jakilid.Lib.RingBuffer
import Jakilid.Cuckoo.Queue
import Jakilid.Cuckoo.QueueTheorems
import Jakilid.Cuckoo.CounterTheorems
import Jakilid.HashMap
import Jakilid.SharedDict
import Jakilid.EmptyTheorems
import Jakilid.SharedDictTheorems
import Jakilid.RealKeys
import Jakilid.Python
import Jakilid.PythonTheorems
import Jakilid.PythonSession
import Jakilid.Lib.Transition
import Jakilid.World
import Jakilid.WorldSteps
import Jakilid.DropTheorems
import Jakilid.ThreadTheorems
import Jakilid.Reference
import Jakilid.RefinementTheorems
import Jakilid.SerialTheorems
import Jakilid.Lib.Locks
import Jakilid.Lib.Linearizable
import Jakilid.Cuckoo.Concurrent
import Jakilid.Cuckoo.MigrationTheorems
import Jakilid.Cuckoo.LockTheorems
import Jakilid.Cuckoo.TurnTheorems
import Jakilid.Cuckoo.ConcurrentTheorems
import Jakilid.Cuckoo.LinearizabilityTheorems
import Jakilid.Cuckoo.InterferenceTheorems
import Jakilid.Cuckoo.SoloTheorems
import Jakilid.Cuckoo.AccountTheorems
import Jakilid.Cuckoo.Assertions
import Jakilid.Cuckoo.AssertionTheorems
import Jakilid.AccessTheorems
import Jakilid.SharingTheorems
