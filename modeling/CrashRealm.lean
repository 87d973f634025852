import CrashRealm.Lib.Bits
import CrashRealm.Lib.TriangularProbe
import CrashRealm.Lib.OpenAddressing
import CrashRealm.RxFoundation.Fault
import CrashRealm.RxFoundation.Math
import CrashRealm.RxFoundation.MathSpec
import CrashRealm.RxFoundation.BasicHash
import CrashRealm.RxFoundation.Dictionary
import CrashRealm.RxFoundation.HashClass
import CrashRealm.RxFoundation.BasicHashLookup
import CrashRealm.RxFoundation.BasicHashOps
import CrashRealm.RxFoundation.DictionaryMap
import CrashRealm.RxFoundation.HashClassSpec
import CrashRealm.RxFoundation.DictionarySpec
import CrashRealm.RxFoundation.SmallDictionarySpec
import CrashRealm.Lib.SortedList
import CrashRealm.RxFoundation.CollectionContainer
import CrashRealm.RxFoundation.OrderedSet
import CrashRealm.RxFoundation.OrderedSetSpec
import CrashRealm.Lib.ByteImage
import CrashRealm.Lib.Census
import CrashRealm.Lib.Machine
import CrashRealm.RxFoundation.ReadWriteLock
import CrashRealm.RxFoundation.ReadWriteLockSpec
import CrashRealm.RxFoundation.KeyValueObserver
import CrashRealm.RxFoundation.KeyValueObserverRegistry
import CrashRealm.RxFoundation.KeyValueObserverSpec
import CrashRealm.Lib.Heap
import CrashRealm.RxFoundation.Data
import CrashRealm.RxFoundation.DataEffect
import CrashRealm.RxFoundation.DataBounds
import CrashRealm.RxFoundation.DataOwnership
import CrashRealm.RxFoundation.Bag
import CrashRealm.RxFoundation.IdGenerator
import CrashRealm.RxFoundation.LockingInterface
import CrashRealm.Lib.Semaphore
import CrashRealm.RxCoreComponents.MultipleDelegate
import CrashRealm.RxScheduler.RunLoopScheduler
import CrashRealm.RxScheduler.RunLoopSchedulerSpec
import CrashRealm.RxFoundation.DictionaryIterator
import CrashRealm.RxFoundation.DictionaryIteratorSpec
import CrashRealm.RxScheduler.CurrentScheduler
import CrashRealm.RxFoundation.KeyValueObserverSteps
import CrashRealm.RxFoundation.KeyValueObserverChanges
import CrashRealm.RxFoundation.KeyValueObserverRegistration
import CrashRealm.RxFoundation.OrderedSetMutators
import CrashRealm.Lib.HeapContents
import CrashRealm.RxFoundation.OrderedSetIterator
import CrashRealm.RxFoundation.DataContent
import CrashRealm.RxFoundation.DataSplice
import CrashRealm.RxFoundation.DataCopy
import CrashRealm.Lib.Occurrence
import CrashRealm.RxFoundation.String
import CrashRealm.RxFoundation.StringSpec
import CrashRealm.RxFoundation.StringSplit
import CrashRealm.Example.RxViewController
import CrashRealm.Example.RxViewControllerSpec
import CrashRealm.RxFoundation.Any
import CrashRealm.RxScheduler.AutoreleasePool
import CrashRealm.RxScheduler.RunLoopRetain
import CrashRealm.RxScheduler.RxSchedulerToken
import CrashRealm.RxFoundation.DictionaryLoad
import CrashRealm.RxFoundation.DictionaryReserve
import CrashRealm.RxFoundation.DictionaryClear
import CrashRealm.RxFoundation.DictionaryTraversal
import CrashRealm.RxFoundation.KeyValueObserverQuiescence
import CrashRealm.Lib.GraphWalk
import CrashRealm.RxFoundation.KeyValueObserverDependents
import CrashRealm.RxFoundation.KeyValueObserverCallStates
import CrashRealm.RxScheduler.RunLoopSource
import CrashRealm.RxFoundation.Port
import CrashRealm.RxCoreComponents.MultipleDelegateEnumerator
import CrashRealm.RxCoreComponents.RxTuple
import CrashRealm.Lib.KeyEquality
import CrashRealm.RxCoreComponents.RxTupleEquality
import CrashRealm.RxCoreComponents.RxTupleCoding
import CrashRealm.Lib.JsonTree
import CrashRealm.RxCoreComponents.JSONSerialization
import CrashRealm.RxCoreComponents.ObjectEquality
import CrashRealm.RxCoreComponents.PrimaryKey
import CrashRealm.RxFoundation.DataHash
import CrashRealm.RxFoundation.DataCapacity
import CrashRealm.RxFoundation.BasicHashProbe
import CrashRealm.RxFoundation.GetNextIds
import CrashRealm.Example.RxViewControllerJobs
import CrashRealm.Lib.Holders
import CrashRealm.Lib.LinkedChain
import CrashRealm.RxFoundation.RefPtr
import CrashRealm.RxFoundation.RefPtrSpec
import CrashRealm.RxFoundation.LinkedList
import CrashRealm.RxFoundation.LinkedListSpec
import CrashRealm.RxFoundation.DoubleLinkedList
import CrashRealm.RxFoundation.DoubleLinkedListSpec
import CrashRealm.RxFoundation.UnicodeChar
import CrashRealm.RxFoundation.UnicodeCharSpec
import CrashRealm.Lib.KeyedTable
import CrashRealm.RxCoreComponents.DelayedPerforming
import CrashRealm.RxCoreComponents.DelayedPerformingSpec
import CrashRealm.RxFoundation.SharedPointer
import CrashRealm.RxFoundation.SharedPointerBalance
import CrashRealm.RxFoundation.SharedPointerSpec
import CrashRealm.RxFoundation.SharedPointerLife
import CrashRealm.RxFoundation.UnicodeCharMember
import CrashRealm.RxScheduler.RxQueueScheduler
import CrashRealm.RxScheduler.RxQueueSchedulerSpec
import CrashRealm.RxScheduler.RxQueueSchedulerOrder
import CrashRealm.Lib.RangeList
import CrashRealm.Realm.ChunkedRangeVector
import CrashRealm.Realm.ChunkedRangeVectorSpec
import CrashRealm.Realm.IndexSet
import CrashRealm.Realm.IndexSetFind
import CrashRealm.Realm.IndexSetEdit
import CrashRealm.Realm.IndexSetPositions
import CrashRealm.Realm.IndexSetRemove
import CrashRealm.Realm.IndexSetCount
import CrashRealm.Realm.IndexSetBatch
import CrashRealm.Realm.IndexSetBuilder
import CrashRealm.Realm.IndexSetMerge
import CrashRealm.Realm.IndexSetLaws
import CrashRealm.Realm.IndexSetAddShiftedBy
import CrashRealm.Realm.IndexSetScript
