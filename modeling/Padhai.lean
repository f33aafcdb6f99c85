import Padhai.Lib.Packet
import Padhai.Dns.Impl.Server
import Padhai.Dns.Lemmas.Verify
import Padhai.Dns.Lemmas.NameFormat
import Padhai.Dns.Lemmas.PrintedAddresses
import Padhai.Dns.Lemmas.Relay
import Padhai.Dns.Lemmas.Query
import Padhai.Dns.Lemmas.Resolution
import Padhai.Dns.Lemmas.Decoders
import Padhai.Threads.Lemmas.PrintedNumbers
import Padhai.Threads.Lemmas.BoundedBuffer
import Padhai.Threads.Lemmas.SemProblem
import Padhai.Interview.Lemmas.Queue
import Padhai.DataStruct.Lemmas.Bst
import Padhai.DataStruct.Lemmas.ListMain
import Padhai.DataStruct.Lemmas.BstNodes
import Padhai.Interview.Lemmas.BstInsertNodes
import Padhai.Interview.Lemmas.BstMirrorNodes
import Padhai.Interview.Lemmas.SortList
import Padhai.Ping.Lemmas.Replies
import Padhai.Ping.Lemmas.Synchronous
import Padhai.Interview.Lemmas.BstInsertSearch
import Padhai.Interview.Lemmas.BstMirror
import Padhai.Interview.Lemmas.MaxSumPath
import Padhai.Leetcode.Lemmas.AddList
import Padhai.Interview.Lemmas.LastTenLines
import Padhai.Strings.Lemmas.ReverseString
import Padhai.Threads.Lemmas.CompleteRuns
import Padhai.Ping6.Lemmas.Exchange
import Padhai.Threads.Lemmas.MutexAltPrint
import Padhai.Threads.Lemmas.SemUsage
import Padhai.Interview.Lemmas.PrintLevels
import Padhai.Threads.Lemmas.Rendezvous
