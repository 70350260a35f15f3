import SystemsLabs.Schemes.Recency
import SystemsLabs.Cachelab.Csim
import SystemsLabs.Cachelab.CsimLru
import SystemsLabs.Proxylab.Cache
import SystemsLabs.Proxylab.CacheList
import SystemsLabs.Proxylab.CacheRun
import SystemsLabs.Proxylab.CacheLru
import SystemsLabs.Proxylab.CacheSections
import SystemsLabs.Proxylab.CacheProgress
import SystemsLabs.Proxylab.Threads
import SystemsLabs.Cprogramming.Queue
import SystemsLabs.Proxylab.Mutex
import SystemsLabs.Cprogramming.QueueRefine
import SystemsLabs.Proxylab.Request
import SystemsLabs.Proxylab.Headers
import SystemsLabs.Proxylab.Rewrite
import SystemsLabs.Proxylab.Doit
import SystemsLabs.Proxylab.Reject
import SystemsLabs.Shelllab.JobList
import SystemsLabs.Shelllab.JobTable
import SystemsLabs.Shelllab.Tsh
import SystemsLabs.Shelllab.TshSound
import SystemsLabs.Shelllab.TshTracks
import SystemsLabs.Cachelab.CsimSets
import SystemsLabs.Cachelab.CsimDirty
import SystemsLabs.Cachelab.CsimInclusion
import SystemsLabs.Proxylab.CacheChain
import SystemsLabs.Shelllab.TshLaunch
import SystemsLabs.Shelllab.TshMask
import SystemsLabs.Malloclab.MmNaive
import SystemsLabs.Proxylab.Leaks
import SystemsLabs.Malloclab.MmNaiveSpec
import SystemsLabs.Cachelab.Trans
import SystemsLabs.Schemes.Buffer
import SystemsLabs.Shelllab.Parseline
import SystemsLabs.Shelllab.ParselineScan
import SystemsLabs.Shelllab.ParselineQuoted
import SystemsLabs.Cprogramming.QueueConsistent
import SystemsLabs.Cprogramming.QueueInsert
import SystemsLabs.Shelllab.JobCapacity
import SystemsLabs.Shelllab.ParselineMarks
import SystemsLabs.Shelllab.BackFore
import SystemsLabs.Proxylab.Relay
import SystemsLabs.Proxylab.RequestFits
import SystemsLabs.Proxylab.UriSplit
import SystemsLabs.Cprogramming.QueueFree
import SystemsLabs.Cprogramming.QueueRemove
import SystemsLabs.Cachelab.TransSquare
import SystemsLabs.Datalab.Bits
import SystemsLabs.Datalab.Division
import SystemsLabs.Datalab.BitCount
import SystemsLabs.Datalab.Palindrome
import SystemsLabs.Datalab.Floats
import SystemsLabs.Schemes.Rounding
import SystemsLabs.Datalab.Unsigned2Float
import SystemsLabs.Datalab.Log2
import SystemsLabs.Cachelab.Validate
import SystemsLabs.Schemes.Cuts
import SystemsLabs.Shelllab.ParselineSafe
import SystemsLabs.Csapp.SioText
import SystemsLabs.Csapp.Sio
import SystemsLabs.Csapp.SioPrintf
import SystemsLabs.Csapp.SioShell
import SystemsLabs.Shelllab.ListJobs
import SystemsLabs.Cprogramming.ConsoleArgs
import SystemsLabs.Cprogramming.Console
import SystemsLabs.Cprogramming.ConsoleCommands
import SystemsLabs.Cprogramming.ConsoleLines
import SystemsLabs.Cprogramming.ConsoleRun
import SystemsLabs.Cprogramming.ConsoleErrors
import SystemsLabs.Cprogramming.ConsoleNames
import SystemsLabs.Cachelab.CsimMain
import SystemsLabs.Cprogramming.Harness
import SystemsLabs.Cprogramming.HarnessLedger
import SystemsLabs.Cprogramming.HarnessQueue
import SystemsLabs.Schemes.Message
import SystemsLabs.Proxylab.RioCalls
import SystemsLabs.Proxylab.Tiny
import SystemsLabs.Proxylab.TinyReplies
import SystemsLabs.Schemes.Paths
import SystemsLabs.Proxylab.TinyPaths
import SystemsLabs.Proxylab.TinyProxy
import SystemsLabs.Schemes.Smallest
import SystemsLabs.Malloclab.Fcyc
import SystemsLabs.Datalab.Puzzles
import SystemsLabs.Schemes.Descriptors
import SystemsLabs.Shelllab.Redirection
import SystemsLabs.Shelllab.Scripts
