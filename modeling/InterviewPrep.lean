import InterviewPrep.Core.Blocks
import InterviewPrep.Core.FirstFit
import InterviewPrep.MemoryPool.Singly
import InterviewPrep.MemoryPool.Doubly
import InterviewPrep.MemoryPool.Agreement
import InterviewPrep.Core.Probe
import InterviewPrep.Core.Recency
import InterviewPrep.Core.Ring
import InterviewPrep.LruCache.Packet
import InterviewPrep.LruCache.PacketInv
import InterviewPrep.LruCache.PacketRefinement
import InterviewPrep.LruCache.PacketLoss
import InterviewPrep.LruCache.PacketHash
import InterviewPrep.Core.Links
import InterviewPrep.LruCache.Hashed
import InterviewPrep.LruCache.Simple
import InterviewPrep.LruCache.SimpleContract
import InterviewPrep.Arista.Fragmentation
import InterviewPrep.Core.Collect
import InterviewPrep.Arista.Reassembly
import InterviewPrep.Arista.Bounds
import InterviewPrep.Core.Machine
import InterviewPrep.Core.Window
import InterviewPrep.CircularQueue.Packets
import InterviewPrep.CircularQueue.PacketsRefinement
import InterviewPrep.Core.Condition
import InterviewPrep.CircularQueue.ProdCons
import InterviewPrep.CircularQueue.ProdConsC
import InterviewPrep.ThreadPool.Pool
import InterviewPrep.Core.Threads
import InterviewPrep.Core.HeapChain
import InterviewPrep.RingBuffer.LockFree
import InterviewPrep.RingBuffer.Interleaved
import InterviewPrep.ThreadPool.LockFreeStack
import InterviewPrep.Timer
import InterviewPrep.RateLimit.Sequential
import InterviewPrep.RateLimit.Threads
import InterviewPrep.Semaphore
import InterviewPrep.EventManager
import InterviewPrep.LeakDetector
import InterviewPrep.IoUring
import InterviewPrep.PacketHandler
import InterviewPrep.Core.Numeral
import InterviewPrep.Uuid
import InterviewPrep.Core.Chained
import InterviewPrep.RandomizedSet
import InterviewPrep.Dns.Records
import InterviewPrep.Core.Trie
import InterviewPrep.Dns.UrlTrie
import InterviewPrep.ArrayStack
import InterviewPrep.ArrayQueue
import InterviewPrep.MaxXor
import InterviewPrep.ArithmeticString
import InterviewPrep.Core.Orbit
import InterviewPrep.LinkedList.Loop
import InterviewPrep.LinkedList.Intersection
import InterviewPrep.LinkedList.Clone
import InterviewPrep.Core.Arrangement
import InterviewPrep.Core.Text
import InterviewPrep.Arista.NextGreater
import InterviewPrep.Arista.RemoveDigit
import InterviewPrep.Arista.BitonicPoint
import InterviewPrep.Core.Factor
import InterviewPrep.LongestPalindrome
import InterviewPrep.CountPalindromes
import InterviewPrep.Core.Runs
import InterviewPrep.LongestConsecutive
import InterviewPrep.Core.StableMerge
import InterviewPrep.LinkedList.Merge
import InterviewPrep.Core.Plane
import InterviewPrep.IsSquare
import InterviewPrep.Core.FlatMemory
import InterviewPrep.MemApis.Memcpy
import InterviewPrep.MemApis.Memset
import InterviewPrep.Rollover
import InterviewPrep.BlockingQueue
import InterviewPrep.BlockingQueue.Program
import InterviewPrep.RateLimit.Logger
import InterviewPrep.EventLoop
import InterviewPrep.Core.NodeHeap
import InterviewPrep.LinkedQueue
import InterviewPrep.Core.Guarded
import InterviewPrep.ThreadSafe
import InterviewPrep.Concurrency.LostSignals
import InterviewPrep.ThreadPool.Destructor
import InterviewPrep.Singleton
import InterviewPrep.Concurrency.EventLatch
import InterviewPrep.MessageFilter
import InterviewPrep.LinkedList.DeleteNode
import InterviewPrep.WordTrie
import InterviewPrep.Semaphore.Workers
import InterviewPrep.CircularQueue.ProdConsMain
import InterviewPrep.CircularQueue.BufferStatic
import InterviewPrep.Concurrency.SharedQueue
import InterviewPrep.Arista.RemoveLargest
import InterviewPrep.Arista.FindPosition
