import DingoKv.SortedMap
import DingoKv.Encoding

/-!
# The state of `KvControl` and its raw accessors

The fields of `KvControl` the KV functions of `kv_control_kv.cc` read or write:

* `kvIndexMap`: `kv_index_map_`, key → `KvIndexInternal`, ordered by key.
* `kvRevMap`: `kv_rev_map_`. The code keys it by `RevisionToString(revision)`; that encoding is
  injective on `int64_t` pairs, so the map is keyed by the revision itself here.
* `kvLeaseMap`: `kv_lease_map_`, read only through `Exists`.
* `metaWriter`: what `meta_writer_` has persisted (`MetaWriter`).
* `flags`: the gflags, which no KV function changes.

`GetRawKvIndex`, `PutRawKvIndex`, `DeleteRawKvIndex`, `GetRawKvRev`, `PutRawKvRev` and
`DeleteRawKvRev` (`kv_control_kv.cc:73-190`) are the only writers of these maps; each writes the
in-memory map and the meta-writer. The `Put` / `Erase` of the maps never fail here, so the
`ret < 0` logging branches are not modelled. Every accessor has its field lemmas, tagged `simp`.
-/

namespace DingoKv

/-- Modelled from the spec: the meta-writer's store ("every mutation is also appended, as a
sequence of (cf, key, value) tuples, to the meta-writer"), one table per meta map, each record
under the key `TransformToKvValue` gives it, its `id`. -/
structure MetaWriter where
  kvIndexes : Bytes → Option KvIndexInternal := fun _ => none
  kvRevs : Bytes → Option KvRevInternal := fun _ => none

/-- The state of `KvControl` the KV functions touch. -/
structure KvControl where
  flags : Flags := {}
  kvIndexMap : SortedMap Bytes KvIndexInternal := .empty
  kvRevMap : RevisionInternal → Option KvRevInternal := fun _ => none
  kvLeaseMap : Int → Bool := fun _ => false
  metaWriter : MetaWriter := {}

namespace KvControl

variable (s : KvControl)

/-- `GetRawKvIndex`: `none` is the `EINVAL` "GetRawKvIndex not found". -/
def getRawKvIndex (key : Bytes) : Option KvIndexInternal := s.kvIndexMap.get key

/-- `PutRawKvIndex`. -/
def putRawKvIndex (key : Bytes) (kvIndex : KvIndexInternal) : KvControl :=
  { s with
    kvIndexMap := s.kvIndexMap.put key kvIndex
    metaWriter := { s.metaWriter with
      kvIndexes := Function.update s.metaWriter.kvIndexes kvIndex.id (some kvIndex) } }

/-- `DeleteRawKvIndex`. -/
def deleteRawKvIndex (key : Bytes) (kvIndex : KvIndexInternal) : KvControl :=
  { s with
    kvIndexMap := s.kvIndexMap.erase key
    metaWriter := { s.metaWriter with
      kvIndexes := Function.update s.metaWriter.kvIndexes kvIndex.id none } }

/-- `GetRawKvRev`: `none` is "GetRawKvRev not found". -/
def getRawKvRev (revision : RevisionInternal) : Option KvRevInternal := s.kvRevMap revision

/-- `PutRawKvRev`. -/
def putRawKvRev (revision : RevisionInternal) (kvRev : KvRevInternal) : KvControl :=
  { s with
    kvRevMap := Function.update s.kvRevMap revision (some kvRev)
    metaWriter := { s.metaWriter with
      kvRevs := Function.update s.metaWriter.kvRevs kvRev.id (some kvRev) } }

/-- `DeleteRawKvRev`. -/
def deleteRawKvRev (revision : RevisionInternal) (kvRev : KvRevInternal) : KvControl :=
  { s with
    kvRevMap := Function.update s.kvRevMap revision none
    metaWriter := { s.metaWriter with
      kvRevs := Function.update s.metaWriter.kvRevs kvRev.id none } }

variable {s}

@[simp] theorem getRawKvIndex_def (key : Bytes) : s.getRawKvIndex key = s.kvIndexMap.get key := rfl

@[simp] theorem getRawKvRev_def (r : RevisionInternal) : s.getRawKvRev r = s.kvRevMap r := rfl

@[simp] theorem putRawKvIndex_kvIndexMap (key : Bytes) (v : KvIndexInternal) :
    (s.putRawKvIndex key v).kvIndexMap = s.kvIndexMap.put key v := rfl

@[simp] theorem putRawKvIndex_kvRevMap (key : Bytes) (v : KvIndexInternal) :
    (s.putRawKvIndex key v).kvRevMap = s.kvRevMap := rfl

@[simp] theorem putRawKvIndex_kvLeaseMap (key : Bytes) (v : KvIndexInternal) :
    (s.putRawKvIndex key v).kvLeaseMap = s.kvLeaseMap := rfl

@[simp] theorem putRawKvIndex_flags (key : Bytes) (v : KvIndexInternal) :
    (s.putRawKvIndex key v).flags = s.flags := rfl

@[simp] theorem deleteRawKvIndex_kvIndexMap (key : Bytes) (v : KvIndexInternal) :
    (s.deleteRawKvIndex key v).kvIndexMap = s.kvIndexMap.erase key := rfl

@[simp] theorem deleteRawKvIndex_kvRevMap (key : Bytes) (v : KvIndexInternal) :
    (s.deleteRawKvIndex key v).kvRevMap = s.kvRevMap := rfl

@[simp] theorem deleteRawKvIndex_kvLeaseMap (key : Bytes) (v : KvIndexInternal) :
    (s.deleteRawKvIndex key v).kvLeaseMap = s.kvLeaseMap := rfl

@[simp] theorem deleteRawKvIndex_flags (key : Bytes) (v : KvIndexInternal) :
    (s.deleteRawKvIndex key v).flags = s.flags := rfl

@[simp] theorem putRawKvRev_kvIndexMap (r : RevisionInternal) (v : KvRevInternal) :
    (s.putRawKvRev r v).kvIndexMap = s.kvIndexMap := rfl

@[simp] theorem putRawKvRev_kvRevMap (r : RevisionInternal) (v : KvRevInternal) :
    (s.putRawKvRev r v).kvRevMap = Function.update s.kvRevMap r (some v) := rfl

@[simp] theorem putRawKvRev_kvLeaseMap (r : RevisionInternal) (v : KvRevInternal) :
    (s.putRawKvRev r v).kvLeaseMap = s.kvLeaseMap := rfl

@[simp] theorem putRawKvRev_flags (r : RevisionInternal) (v : KvRevInternal) :
    (s.putRawKvRev r v).flags = s.flags := rfl

@[simp] theorem deleteRawKvRev_kvIndexMap (r : RevisionInternal) (v : KvRevInternal) :
    (s.deleteRawKvRev r v).kvIndexMap = s.kvIndexMap := rfl

@[simp] theorem deleteRawKvRev_kvRevMap (r : RevisionInternal) (v : KvRevInternal) :
    (s.deleteRawKvRev r v).kvRevMap = Function.update s.kvRevMap r none := rfl

@[simp] theorem deleteRawKvRev_kvLeaseMap (r : RevisionInternal) (v : KvRevInternal) :
    (s.deleteRawKvRev r v).kvLeaseMap = s.kvLeaseMap := rfl

@[simp] theorem deleteRawKvRev_flags (r : RevisionInternal) (v : KvRevInternal) :
    (s.deleteRawKvRev r v).flags = s.flags := rfl

end KvControl

end DingoKv
