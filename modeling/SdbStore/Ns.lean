import SdbStore.Sdb

/-!
# Namespaces

`ns.c`: a database has a list of namespaces, which are databases with a name.  A database
is handed around as a pointer, and two names may lead to the same database, so that the
databases are kept in a heap.  How long a database lives is left out: what has been
allocated stays there, and counting references and freeing do nothing here.

A namespace is found by the hash of its name; the name itself is compared only when a
namespace is removed.
-/

namespace SdbStore

open Lib

/-- An `Sdb *`. -/
abbrev Ref := Nat

/-- `SdbNs`. -/
structure SdbNs where
  name : CStr
  hash : Nat
  sdb : Ref
deriving DecidableEq

/-- A database with its namespaces.  The list is `NULL` after `sdb_ns_reset`. -/
structure SdbNode where
  sdb : Sdb
  ns : Option (List SdbNs)
  nsLock : Bool

/-- The databases, in the order in which they were made. -/
abbrev Heap := List SdbNode

/-- `sdb_new0`, with its list of namespaces. -/
def sdbNode0 : SdbNode := { sdb := sdbNew0, ns := some [], nsLock := false }

/-- The namespaces of a database; there are none in `NULL`. -/
def SdbNode.nss (node : SdbNode) : List SdbNs := node.ns.getD []

/-- The namespaces of a database. -/
def Heap.nss (h : Heap) (s : Ref) : List SdbNs :=
  match h[s]? with
  | none => []
  | some node => node.nss

/-- `ls_append` on the list of namespaces, which does nothing to `NULL`. -/
def lsAppendNs (h : Heap) (s : Ref) (ns : SdbNs) : Heap :=
  h.modify s fun node ↦ { node with ns := node.ns.map (· ++ [ns]) }

/-- `sdb_ns_new`: the database of a new namespace. -/
def sdbNsNew (s : Sdb) (name : CStr) : Option SdbNode :=
  if nsFits s name then some { sdbNode0 with sdb := { sdbNew0 with name := some name } } else none

/-- `sdb_ns`. -/
def sdbNs (h : Heap) (s : Ref) (name : CStr) (create : Bool) : Option Ref × Heap :=
  match h[s]? with
  | none => (none, h)
  | some node =>
      if name = CStr.empty then (none, h)
      else
        match node.nss.find? (·.hash = sdbHash name) with
        | some ns => (some ns.sdb, h)
        | none =>
            if !create then (none, h)
            else if node.nsLock then (none, h)
            else
              match sdbNsNew node.sdb name with
              | none => (none, h)
              | some new =>
                  (some h.length, lsAppendNs (h ++ [new]) s ⟨name, sdbHash name, h.length⟩)

/-- `sdb_ns_set`. -/
def sdbNsSet (h : Heap) (s : Ref) (name : CStr) (r : Ref) : Bool × Heap :=
  match h[s]? with
  | none => (false, h)
  | some node =>
      match node.nss.findIdx? (·.hash = sdbHash name) with
      | some i =>
          if (node.nss.map SdbNs.sdb)[i]? = some r then (false, h)
          else
            (true, h.set s { node with
              ns := node.ns.map fun l ↦ l.modify i fun ns ↦ { ns with sdb := r } })
      | none =>
          if node.nsLock then (false, h)
          else (true, lsAppendNs h s ⟨name, sdbHash name, r⟩)

/-- `sdb_ns_unset`, for a name: the first namespace with the name is removed. -/
def sdbNsUnset (h : Heap) (s : Ref) (name : CStr) : Bool × Heap :=
  match h[s]? with
  | none => (false, h)
  | some node =>
      match node.nss.findIdx? (·.name = name) with
      | none => (false, h)
      | some i => (true, h.set s { node with ns := node.ns.map fun l ↦ l.eraseIdx i })

/-- `sdb_ns_reset`.  A namespace whose database nobody else holds is freed with its own
namespaces, which then cannot be reached any more. -/
def sdbNsReset (h : Heap) (s : Ref) : Heap :=
  h.modify s fun node ↦ { node with ns := none }

end SdbStore
