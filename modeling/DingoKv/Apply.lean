import DingoKv.Control

/-!
# The apply engine: `KvPutApply`, `KvDeleteApply`, `KvCompactApply`

The three state-machine steps of `kv_control_kv.cc`, each as a function from the state to the
returned `butil::Status` and the state after the call. Each is cut where the code is: the index
half (`putKvIndex`, `deleteKvIndex`, `compactGenerations`) is a pure function of the stored index,
and the step writes its result through the raw accessors.

* `kvPutApply` (`kv_control_kv.cc:535-691`): new index or a revision appended to the latest
  generation (a tombstone is reopened), a new `KvRevInternal` whose value and lease come from the
  arguments or, with `ignore_value` / `ignore_lease`, from the `KvRevInternal` at the previous
  `mod_revision`. The only error: a resolved lease `> 0` absent from `kv_lease_map_`, checked
  before any write.
* `kvDeleteApply` (`kv_control_kv.cc:693-817`): a missing key is a no-op; an open latest
  generation gets the delete revision and a tombstone behind it; a tombstone is left as it is.
  In both cases `mod_revision` moves to the delete revision and a deleted `KvRevInternal` is
  written there.
* `kvCompactApply` (`kv_control_kv.cc:914-1027`): the loop over the history generations
  (`compactHistoryStep`), the latest generation (`compactLatest`), then the index is put or
  erased and `revisions_to_delete` are erased from `kv_rev_map_`.

Each apply also builds the `(new_kv, prev_kv)` it hands to `TriggerOneWatch` when
`one_time_watch_map_` is not empty (`WatchEvent`); the watch table lives in code that is not in
the sources, so whether the call happens is not modelled.
-/

namespace DingoKv

/-! ## Shared pieces -/

/-- The event type `TriggerOneWatch` receives. -/
inductive EventType where
  | put
  | delete
deriving DecidableEq, Repr

/-- The arguments of `TriggerOneWatch(key, event_type, new_kv, prev_kv)`. -/
structure WatchEvent where
  key : Bytes
  eventType : EventType
  newKv : Kv
  prevKv : Kv
deriving DecidableEq, Repr

/-- What the index half of `KvPutApply` / `KvDeleteApply` computes: the index to write,
`last_mod_revision`, `new_create_revision`, `new_version`, and the fields of `prev_kv` it sets. -/
structure IndexUpdate where
  kvIndex : KvIndexInternal
  lastModRevision : RevisionInternal
  newCreateRevision : RevisionInternal
  newVersion : Int
  prevKv : Kv

/-- A generation opened at `op`, version 1 (`kv_control_kv.cc:559-563`). -/
def Generation.start (op : RevisionInternal) : Generation :=
  { createRevision := some op, revisions := [op], verison := 1 }

/-- The watch arguments (`kv_control_kv.cc:671-683`, `798-810`): `prev_kv` gets the previous
value and lease only when the index half set a positive `create_revision`. -/
def watchEvent (key : Bytes) (eventType : EventType) (u : IndexUpdate)
    (kvRevLast kvRev : KvRevInternal) (op : RevisionInternal) : WatchEvent :=
  { key, eventType
    newKv := { createRevision := u.newCreateRevision.main, modRevision := op.main,
               version := u.newVersion, lease := kvRev.kv.lease,
               kv := { key, value := kvRev.kv.value } }
    prevKv := if 0 < u.prevKv.createRevision then
        { u.prevKv with lease := kvRevLast.kv.lease, kv := { key, value := kvRevLast.kv.value } }
      else u.prevKv }

/-! ## `KvPutApply` -/

/-- `KvPutApply` on the latest generation: append to an open one, or reopen a tombstone at
`op` with version 1 (`kv_control_kv.cc:581-596`). -/
def putGeneration (latest : Generation) (op : RevisionInternal) : Generation :=
  if latest.createRevision.isSome then
    { latest with revisions := latest.revisions ++ [op], verison := latest.verison + 1 }
  else
    { latest with createRevision := some op, verison := 1, revisions := latest.revisions ++ [op] }

/-- The index half of `KvPutApply` (`kv_control_kv.cc:542-606`). -/
def putKvIndex (found : Option KvIndexInternal) (key : Bytes) (op : RevisionInternal) :
    IndexUpdate :=
  match found with
  | none =>
    { kvIndex := { id := key, modRevision := op, generations := [.start op] }
      lastModRevision := {}, newCreateRevision := op, newVersion := 1, prevKv := {} }
  | some kvIndex =>
    match kvIndex.generations.getLast? with
    | none =>
      { kvIndex := { kvIndex with generations := [.start op], modRevision := op }
        lastModRevision := kvIndex.modRevision, newCreateRevision := op, newVersion := 1,
        prevKv := {} }
    | some latest =>
      let latest' := putGeneration latest op
      { kvIndex := { kvIndex with
          generations := kvIndex.generations.dropLast ++ [latest'], modRevision := op }
        lastModRevision := kvIndex.modRevision
        newCreateRevision := latest'.createRevision.getD {}
        newVersion := latest'.verison
        prevKv := if latest.createRevision.isSome then
            { createRevision := (latest'.createRevision.getD {}).main,
              modRevision := kvIndex.modRevision.main, version := latest'.verison }
          else {} }

/-- The `KvRevInternal` `KvPutApply` writes at `op` (`kv_control_kv.cc:608-639`). -/
def putKvRev (key : Bytes) (op : RevisionInternal) (ignoreLease : Bool) (leaseId : Int)
    (ignoreValue : Bool) (value : Bytes) (u : IndexUpdate) (kvRevLast : KvRevInternal) :
    KvRevInternal :=
  { id := revisionToString op
    kv := { id := key
            value := if !ignoreValue then value else kvRevLast.kv.value
            createRevision := u.newCreateRevision
            modRevision := op
            version := u.newVersion
            lease := if ignoreLease then kvRevLast.kv.lease else leaseId } }

/-- `KvControl::KvPutApply`. -/
def kvPutApply (s : KvControl) (key : Bytes) (opRevision : RevisionInternal) (ignoreLease : Bool)
    (leaseId : Int) (ignoreValue : Bool) (value : Bytes) : Status × KvControl × Option WatchEvent :=
  let u := putKvIndex (s.getRawKvIndex key) key opRevision
  let kvRevLast := (s.getRawKvRev u.lastModRevision).getD {}
  let kvRev := putKvRev key opRevision ignoreLease leaseId ignoreValue value u kvRevLast
  if 0 < kvRev.kv.lease ∧ s.kvLeaseMap kvRev.kv.lease = false then
    (.error "KvPutApply kv_lease_map_.Exists failed", s, none)
  else
    (.ok, (s.putRawKvIndex key u.kvIndex).putRawKvRev opRevision kvRev,
      some (watchEvent key .put u kvRevLast kvRev opRevision))

/-! ## `KvDeleteApply` -/

/-- The index half of `KvDeleteApply` on a found index (`kv_control_kv.cc:716-752`). -/
def deleteKvIndex (kvIndex : KvIndexInternal) (op : RevisionInternal) : IndexUpdate :=
  match kvIndex.generations.getLast? with
  | none =>
    { kvIndex := { kvIndex with generations := [{}], modRevision := op }
      lastModRevision := kvIndex.modRevision, newCreateRevision := op, newVersion := 1,
      prevKv := {} }
  | some latest =>
    if latest.createRevision.isSome then
      let latest' := { latest with revisions := latest.revisions ++ [op],
                                   verison := latest.verison + 1 }
      { kvIndex := { kvIndex with
          generations := kvIndex.generations.dropLast ++ [latest', {}], modRevision := op }
        lastModRevision := kvIndex.modRevision
        newCreateRevision := latest'.createRevision.getD {}
        newVersion := latest'.verison
        prevKv := { createRevision := (latest'.createRevision.getD {}).main,
                    modRevision := kvIndex.modRevision.main, version := latest'.verison } }
    else
      { kvIndex := { kvIndex with modRevision := op }
        lastModRevision := kvIndex.modRevision
        newCreateRevision := latest.createRevision.getD {}
        newVersion := latest.verison
        prevKv := {} }

/-- The deleted `KvRevInternal` `KvDeleteApply` writes at `op` (`kv_control_kv.cc:756-776`). -/
def deleteKvRev (key : Bytes) (op : RevisionInternal) (u : IndexUpdate) : KvRevInternal :=
  { id := revisionToString op
    kv := { id := key, createRevision := u.newCreateRevision, modRevision := op,
            version := u.newVersion, isDeleted := true } }

/-- `KvControl::KvDeleteApply`. -/
def kvDeleteApply (s : KvControl) (key : Bytes) (opRevision : RevisionInternal) :
    Status × KvControl × Option WatchEvent :=
  match s.getRawKvIndex key with
  | none => (.ok, s, none)
  | some kvIndex =>
    let u := deleteKvIndex kvIndex opRevision
    let kvRevLast := (s.getRawKvRev u.lastModRevision).getD {}
    let kvRev := deleteKvRev key opRevision u
    (.ok, (s.putRawKvIndex key u.kvIndex).putRawKvRev opRevision kvRev,
      some (watchEvent key .delete u kvRevLast kvRev opRevision))

/-! ## `KvCompactApply` -/

/-- A revision compaction erases: `kv_revision.main() < compact_revision.main()`. -/
def below (compactRevision r : RevisionInternal) : Bool := decide (r.main < compactRevision.main)

/-- One round of the loop over the history generations (`kv_control_kv.cc:937-963`); `acc` is
`new_kv_index`'s generations and `revisions_to_delete`. Behind a kept generation the old one is
copied; before, an open one keeps its revisions with `main >= compact_revision.main`. -/
def compactHistoryStep (compactRevision : RevisionInternal)
    (acc : List Generation × List RevisionInternal) (old : Generation) :
    List Generation × List RevisionInternal :=
  if acc.1 ≠ [] then (acc.1 ++ [old], acc.2)
  else
    match old.createRevision with
    | none => acc
    | some c =>
      let (deleted, kept) := old.revisions.partition (below compactRevision)
      (if kept ≠ [] then [{ createRevision := some c, revisions := kept, verison := old.verison }]
        else [], acc.2 ++ deleted)

/-- The latest generation (`kv_control_kv.cc:966-1003`): a tombstone is kept only behind a kept
generation; an open one is copied behind a kept generation, else filtered with its final
revision always kept. -/
def compactLatest (compactRevision : RevisionInternal) (latest : Generation)
    (acc : List Generation × List RevisionInternal) : List Generation × List RevisionInternal :=
  match latest.createRevision with
  | none => (if acc.1 ≠ [] then acc.1 ++ [latest] else acc.1, acc.2)
  | some c =>
    if acc.1 ≠ [] then (acc.1 ++ [latest], acc.2)
    else
      let (deleted, kept) := latest.revisions.dropLast.partition (below compactRevision)
      let kept := kept ++ latest.revisions.getLast?.toList
      (if kept ≠ [] then [{ createRevision := some c, revisions := kept, verison := latest.verison }]
        else [], acc.2 ++ deleted)

/-- The generations and `revisions_to_delete` of `KvCompactApply` on a non-empty index. -/
def compactGenerations (compactRevision : RevisionInternal) (latest : Generation)
    (history : List Generation) : List Generation × List RevisionInternal :=
  compactLatest compactRevision latest (history.foldl (compactHistoryStep compactRevision) ([], []))

/-- `DeleteRawKvRev` for each revision, with a `KvRevInternal` holding only its `id`
(`kv_control_kv.cc:1017-1024`). -/
def KvControl.deleteRevisions (s : KvControl) (revisions : List RevisionInternal) : KvControl :=
  revisions.foldl (fun s r => s.deleteRawKvRev r { id := revisionToString r }) s

/-- `KvControl::KvCompactApply`. -/
def kvCompactApply (s : KvControl) (key : Bytes) (compactRevision : RevisionInternal) :
    Status × KvControl :=
  match s.getRawKvIndex key with
  | none => (.error "GetRawKvIndex not found", s)
  | some kvIndex =>
    match kvIndex.generations.getLast? with
    | none => (.ok, s)
    | some latest =>
      let r := compactGenerations compactRevision latest kvIndex.generations.dropLast
      let newKvIndex := { kvIndex with generations := r.1 }
      let s := if r.1 = [] then s.deleteRawKvIndex key newKvIndex else s.putRawKvIndex key newKvIndex
      (.ok, s.deleteRevisions r.2)

/-! ## One call of the apply engine -/

/-- One call of the apply engine, with its arguments. -/
inductive ApplyStep where
  | put (key : Bytes) (opRevision : RevisionInternal) (ignoreLease : Bool) (leaseId : Int)
      (ignoreValue : Bool) (value : Bytes)
  | delete (key : Bytes) (opRevision : RevisionInternal)
  | compact (key : Bytes) (compactRevision : RevisionInternal)
deriving DecidableEq, Repr

namespace ApplyStep

/-- The key the call is about. -/
def key : ApplyStep → Bytes
  | put key .. | delete key _ | compact key _ => key

/-- The op revision of a put or a delete. -/
def opRevision? : ApplyStep → Option RevisionInternal
  | put _ op .. | delete _ op => some op
  | compact .. => none

/-- The state after the call. -/
def apply : ApplyStep → KvControl → KvControl
  | put key op il lid iv v, s => (kvPutApply s key op il lid iv v).2.1
  | delete key op, s => (kvDeleteApply s key op).2.1
  | compact key R, s => (kvCompactApply s key R).2

/-- The state after a run of calls. -/
def run (s : KvControl) (steps : List ApplyStep) : KvControl :=
  steps.foldl (fun s st => st.apply s) s

@[simp] theorem run_nil (s : KvControl) : run s [] = s := rfl

@[simp] theorem run_cons (s : KvControl) (st : ApplyStep) (steps : List ApplyStep) :
    run s (st :: steps) = run (st.apply s) steps := rfl

@[simp] theorem run_append (s : KvControl) (steps steps' : List ApplyStep) :
    run s (steps ++ steps') = run (run s steps) steps' := List.foldl_append _ _ _ _

end ApplyStep

end DingoKv
