import SdbStore.Lib.Bucket
import SdbStore.Lib.Bytes
import SdbStore.Lib.Checked
import SdbStore.Lib.FailStop
import SdbStore.Lib.Keyed
import SdbStore.Lib.Probe
import SdbStore.CStr
import SdbStore.Ht
import SdbStore.Io
import SdbStore.Cdb.Make
import SdbStore.Cdb.Image
import SdbStore.Cdb.Find
import SdbStore.Cdb.Scan
import SdbStore.Sdb
import SdbStore.Entry
import SdbStore.Sync
import SdbStore.Run
import SdbStore.Persist
import SdbStore.Foreach
import SdbStore.Capacity
import SdbStore.Cas
import SdbStore.Arrays
import SdbStore.Expire
import SdbStore.Atomic
import SdbStore.Exists
import SdbStore.Reset
import SdbStore.Journal
import SdbStore.Durable
import SdbStore.Lib.Escape
import SdbStore.Ns
import SdbStore.TextLoad
import SdbStore.NsTree
import SdbStore.TextSave
import SdbStore.HtMap
import SdbStore.NsMap
import SdbStore.Foreign
import SdbStore.TextCheck
import SdbStore.Branch
import SdbStore.Diff
import SdbStore.Copy
import SdbStore.Num
import SdbStore.Query
import SdbStore.QueryLaws
import SdbStore.Dump
import SdbStore.Lib.RefCount
import SdbStore.Refs
import SdbStore.Free
import SdbStore.Base64
import SdbStore.Lib.Pattern
import SdbStore.Match
import SdbStore.MatchLaws
import SdbStore.NumLaws
import SdbStore.Lib.Visit
import SdbStore.Lib.Runs
import SdbStore.NsSync
import SdbStore.Mcsdb.Protocol
import SdbStore.Mcsdb.Server
import SdbStore.Mcsdb.Memcache
import SdbStore.Mcsdb.Replies
import SdbStore.Mcsdb.Cuts
import SdbStore.Lib.Linked
import SdbStore.Lib.Tiling
import SdbStore.Alloc.Memory
import SdbStore.Alloc.Malloc
import SdbStore.Alloc.Blocks
import SdbStore.Alloc.Joints
import SdbStore.Alloc.FreeList
import SdbStore.Alloc.Shape
import SdbStore.Alloc.Split
import SdbStore.Alloc.Coalesce
import SdbStore.Alloc.Ranges
import SdbStore.Alloc.Calls
import SdbStore.Alloc.Contract
import SdbStore.Lib.Fields
import SdbStore.Memory
import SdbStore.Array.Elem
import SdbStore.Array.Lists
import SdbStore.Array.Stacks
import SdbStore.Array.PopTail
import SdbStore.Array.Order
import SdbStore.Lib.Members
import SdbStore.Array.Sets
import SdbStore.Array.Nums
import SdbStore.Array.NumSets
import SdbStore.Lib.Merge
import SdbStore.Array.Sorted
import SdbStore.Array.SortedNum
import SdbStore.Array.Runs
import SdbStore.Rename
import SdbStore.Lib.Moves
import SdbStore.QueryValues
import SdbStore.Hooks
import SdbStore.Nextcas
import SdbStore.Count
import SdbStore.ExpireCalls
import SdbStore.Ls.Memory
import SdbStore.Ls.Lists
import SdbStore.Ls.Shape
import SdbStore.Ls.Changes
import SdbStore.Ls.Contents
import SdbStore.Ls.Calls
import SdbStore.Ls.Consistent
import SdbStore.Ls.Chain
import SdbStore.Ls.Merge
import SdbStore.Ls.Sorting
import SdbStore.Ls.Sorted
import SdbStore.UnsetLike
import SdbStore.RenamePrefix
import SdbStore.Json.Indent
import SdbStore.Lib.Words
import SdbStore.Fmt
import SdbStore.Json.Format
import SdbStore.TextWrites
import SdbStore.Json.Js0n
import SdbStore.Json.Edges
import SdbStore.Json.Find
import SdbStore.Json.Syntax
import SdbStore.Json.Tokens
import SdbStore.Json.Values
import SdbStore.Json.Lookup
import SdbStore.Json.Path
import SdbStore.Json.Get
import SdbStore.Json.Set
import SdbStore.Json.Members
import SdbStore.Json.Splice
import SdbStore.Json.Num
import SdbStore.Json.Erase
import SdbStore.Json.Delete
import SdbStore.Lib.Bounded
import SdbStore.DiffFormat
import SdbStore.Lib.Filled
import SdbStore.Util
import SdbStore.FmtSize
import SdbStore.Buffer
import SdbStore.HtForeach
import SdbStore.Dict
import SdbStore.DictMap
import SdbStore.DumpNext
import SdbStore.Alloc.FreeTwice
import SdbStore.Lock
import SdbStore.Lib.Answers
import SdbStore.TimedMap
import SdbStore.Torn
import SdbStore.Processes
import SdbStore.NsLock
import SdbStore.NsPath
import SdbStore.Createdb
import SdbStore.MainDump
import SdbStore.Set
import SdbStore.Search
import SdbStore.Sessions
import SdbStore.Merge
import SdbStore.Json.Dump
import SdbStore.Cgen
