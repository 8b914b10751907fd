import SdbStore.Exists
import SdbStore.Expire
import SdbStore.Mcsdb.Protocol

/-!
# The database of mcsdbd

`memcache.c`: the commands of memcached as calls of the database.  Its functions are the ones that
the protocol calls (`mcsdb`).
-/

namespace SdbStore.Mcsdb

open Lib

/-- What a call finds around it: the clock, what `stats` asks the system for, and what searches in
the file and the variables of `sdb_exists` have left behind. -/
structure Around where
  now : Nat
  pid : Nat
  user : Nat × Nat
  system : Nat × Nat
  ch : UInt8
  found : CdbFind
  expiring : CdbFind

/-- `McSdb`, without its network.  `turn` counts the calls, and `around` is what they find. -/
structure McSdb where
  sdb : Sdb
  world : World
  time : Nat
  gets : Nat
  sets : Nat
  hits : Nat
  misses : Nat
  evictions : Nat
  around : Nat → Around
  turn : Nat

/-- What the call at hand finds. -/
def McSdb.here (ms : McSdb) : Around := ms.around ms.turn

/-- The beginning of a call: time has passed. -/
def McSdb.enter (ms : McSdb) : McSdb :=
  { ms with world := { ms.world with now := (ms.around (ms.turn + 1)).now }, turn := ms.turn + 1 }

/-- What a call of `sdb.c` returns, with the state that it leaves. -/
def McSdb.put {α : Type} (ms : McSdb) (r : α × Sdb × World) : α × McSdb :=
  (r.1, { ms with sdb := r.2.1, world := r.2.2 })

/-- `sdb_get`. -/
def McSdb.get (ms : McSdb) (key : CStr) : Got × McSdb := ms.put (sdbConstGetLen ms.sdb ms.world key)

/-- `sdb_set` without a counter. -/
def McSdb.set (ms : McSdb) (key val : CStr) : Bool × McSdb :=
  ms.put (sdbSet ms.sdb ms.world key val 0)

/-- `sdb_expire_set` without a counter. -/
def McSdb.expire (ms : McSdb) (key : CStr) (exptime : UInt64) : Option (Bool × McSdb) :=
  (sdbExpireSet ms.sdb ms.world ms.here.expiring key exptime.toNat 0).map ms.put

/-- `sdb_exists`. -/
def McSdb.existsKey (ms : McSdb) (key : CStr) : Bool :=
  sdbExists ms.sdb ms.here.found ms.here.ch key

/-- `sdb_num_exists`. -/
def McSdb.numExists (ms : McSdb) (key : CStr) : Bool × McSdb :=
  let r := ms.get key
  (match r.1.value with
    | none => false
    | some o => o.val.head?.any fun c ↦ 48 ≤ c ∧ c ≤ 57, r.2)

/-- `mcsdb_flush`. -/
def mcsdbFlush (ms : McSdb) : Option McSdb := some { ms with sdb := sdbReset ms.sdb }

/-- `mcsdb_incr`. -/
def mcsdbIncr (ms : McSdb) (key : CStr) (val : UInt64) : Option (Option CStr × McSdb) :=
  let e := ms.numExists key
  if !e.1 then some (none, e.2)
  else
    let r := e.2.put (sdbNumInc e.2.sdb e.2.world key val 0)
    if r.1 = 0 then some (none, r.2)
    else
      let g := { r.2 with sets := r.2.sets + 1 }.get key
      some (g.1.value, g.2)

/-- `mcsdb_decr`. -/
def mcsdbDecr (ms : McSdb) (key : CStr) (val : UInt64) : Option (Option CStr × McSdb) :=
  let e := ms.numExists key
  if !e.1 then some (none, e.2)
  else
    let r := e.2.put (sdbNumDec e.2.sdb e.2.world key val 0)
    let g := { r.2 with sets := r.2.sets + 1 }.get key
    some (g.1.value, g.2)

/-- `mcsdb_set`. -/
def mcsdbSet (ms : McSdb) (key value : CStr) (exptime : UInt64) : Option McSdb :=
  ((ms.set key value).2.expire key exptime).map fun r ↦ { r.2 with sets := r.2.sets + 1 }

/-- What `mcsdb_add` and `mcsdb_replace` do when they store. -/
def storeCounted (ms : McSdb) (key : CStr) (exptime : UInt64) (body : CStr) :
    Option (Bool × McSdb) :=
  (mcsdbSet ms key body exptime).map fun ms ↦ (true, { ms with hits := ms.hits + 1 })

/-- `mcsdb_add`. -/
def mcsdbAdd (ms : McSdb) (key : CStr) (exptime : UInt64) (body : CStr) : Option (Bool × McSdb) :=
  if !ms.existsKey key then storeCounted ms key exptime body
  else some (false, { ms with misses := ms.misses + 1 })

/-- `mcsdb_append`. -/
def mcsdbAppend (ms : McSdb) (key : CStr) (exptime : UInt64) (body : CStr) : Option McSdb :=
  let a := ms.get key
  match a.1.value with
  | some value => mcsdbSet a.2 key (value ++ body) exptime
  | none => mcsdbSet a.2 key body exptime

/-- `mcsdb_prepend`. -/
def mcsdbPrepend (ms : McSdb) (key : CStr) (exptime : UInt64) (body : CStr) : Option McSdb :=
  let a := ms.get key
  match a.1.value with
  | some value => mcsdbSet a.2 key (body ++ value) exptime
  | none => mcsdbSet a.2 key body exptime

/-- `mcsdb_replace`. -/
def mcsdbReplace (ms : McSdb) (key : CStr) (exptime : UInt64) (body : CStr) :
    Option (Bool × McSdb) :=
  if ms.existsKey key then storeCounted ms key exptime body
  else some (false, { ms with misses := ms.misses + 1 })

/-- `mcsdb_get`. -/
def mcsdbGet (ms : McSdb) (key : CStr) : Option (Option (CStr × UInt64 × Nat) × McSdb) := do
  let s := ms.get key
  let ms := s.2
  let ms := if s.1.value.isSome then { ms with hits := ms.hits + 1 }
    else { ms with misses := ms.misses + 1 }
  let exptime ← sdbExpireGet ms.sdb key
  some (s.1.value.map fun v ↦ (v, UInt64.ofNat exptime, s.1.cas), { ms with gets := ms.gets + 1 })

/-- `mcsdb_remove`. -/
def mcsdbRemove (ms : McSdb) (key : CStr) (exptime : UInt64) : Option (Bool × McSdb) :=
  if !ms.existsKey key then some (false, ms)
  else if exptime > 0 then (ms.expire key exptime).map fun r ↦ (false, r.2)
  else do
    let e ← sdbExpireGet ms.sdb key
    let ms := if e > 0 then { ms with evictions := ms.evictions + 1 } else ms
    some (ms.set key CStr.empty)

/-- `mcsdb_touch`. -/
def mcsdbTouch (ms : McSdb) (key : CStr) (exptime : UInt64) : Option (Bool × McSdb) :=
  if !ms.existsKey key then some (false, ms) else ms.expire key exptime

/-- What `stats` reads. -/
def mcsdbStats (ms : McSdb) : McStats where
  pid := ms.here.pid
  time := ms.world.now
  uptime := (ms.world.now + (2 ^ 64 - ms.time)) % 2 ^ 64
  user := ms.here.user
  system := ms.here.system
  gets := ms.gets
  sets := ms.sets
  hits := ms.hits
  misses := ms.misses
  evictions := ms.evictions

/-- The functions of `memcache.c`, as the protocol calls them. -/
def mcsdb : McApi McSdb where
  flush ms := mcsdbFlush ms.enter
  get ms key := mcsdbGet ms.enter key
  set ms key value exptime := mcsdbSet ms.enter key value exptime
  append ms key body exptime := mcsdbAppend ms.enter key exptime body
  prepend ms key body exptime := mcsdbPrepend ms.enter key exptime body
  add ms key body exptime := mcsdbAdd ms.enter key exptime body
  replace ms key body exptime := mcsdbReplace ms.enter key exptime body
  incr ms key val := mcsdbIncr ms.enter key val
  decr ms key val := mcsdbDecr ms.enter key val
  remove ms key exptime := mcsdbRemove ms.enter key exptime
  touch ms key exptime := mcsdbTouch ms.enter key exptime
  stats ms := mcsdbStats ms.enter

/-- `mcsdb_new` without a file. -/
def mcsdbNew (w : World) (around : Nat → Around) : McSdb where
  sdb := sdbNew0
  world := w
  time := w.now
  gets := 0
  sets := 0
  hits := 0
  misses := 0
  evictions := 0
  around := around
  turn := 0

/-- A new database, in which nothing but the clients happens. -/
def newMc : McSdb := mcsdbNew .empty fun _ ↦ ⟨0, 0, (0, 0), (0, 0), 0, .zero, .zero⟩

end SdbStore.Mcsdb
