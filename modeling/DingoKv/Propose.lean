import DingoKv.Read

/-!
# The proposal side: `KvPut` and `KvDeleteRange`

`KvPut` and `KvDeleteRange` (`kv_control_kv.cc:333-533`) check a request against the applied
maps and append `kv_indexes` entries to a `MetaIncrement`; the replication layer later hands
each entry to `KvPutApply` or `KvDeleteApply` (`applyKvIndexIncrement`). The lease calls they
make (`LeaseQuery`, `LeaseAddKeys`, `LeaseRemoveMultiLeaseKeys`) are not in the sources: they are
modelled from the spec, failing with "not-found" for a lease id `kv_lease_map_` does not hold.

* `kvPut_eq_ok`: what a successful `KvPut` checked, and the entry it appends.
* `kvPutIncrement_ignoreValue`, `kvPutIncrement_value`: the entry never carries
  `ignore_value = true`, since the code sets `ignore_value` and `value` only `if (!ignore_value)`;
  a put with `ignore_value` reaches `KvPutApply` as a put of the empty value.
* `kvPut_ignoreValue_drops_value`: on a live key it replaces the value by the empty one, keeping
  the lease and the generation.
* `Consistent.kvRange_kvPutApply`: what a point read returns after any successful put.
-/

namespace DingoKv

/-! ## The `kv_indexes` entries -/

/-- `pb::coordinator_internal::KvIndexEventType`. -/
inductive KvIndexEventType where
  | none
  | put
  | delete
deriving DecidableEq, Repr

/-- A `kv_indexes` entry of a `MetaIncrement`: the fields `KvPut` and `KvDeleteRange` set, with
their protobuf defaults. -/
structure KvIndexIncrement where
  id : Bytes := []
  eventType : KvIndexEventType := .none
  opRevision : RevisionInternal := {}
  ignoreLease : Bool := false
  leaseId : Int := 0
  ignoreValue : Bool := false
  value : Bytes := []
deriving DecidableEq, Repr

/-- Modelled from the spec: the apply step of the replication layer, whose code is not in the
sources. A put entry goes to `KvPutApply` with its `id`, `op_revision`, `ignore_lease`,
`lease_id`, `ignore_value` and `value`; a delete entry to `KvDeleteApply`. -/
def applyKvIndexIncrement (s : KvControl) (e : KvIndexIncrement) : Status × KvControl :=
  match e.eventType with
  | .put =>
    let r := kvPutApply s e.id e.opRevision e.ignoreLease e.leaseId e.ignoreValue e.value
    (r.1, r.2.1)
  | .delete =>
    let r := kvDeleteApply s e.id e.opRevision
    (r.1, r.2.1)
  | .none => (.ok, s)

/-! ## The lease registry, as the proposal functions call it -/

/-- A `butil::Status` as the error of a proposal function: `return ret`. -/
def Status.toExcept : Status → Except String Unit
  | .ok => .ok ()
  | .error msg => .error msg

/-- Modelled from the spec: `KvControl::LeaseQuery` ("not-found: lease id unknown"). -/
def leaseQuery (s : KvControl) (leaseId : Int) : Status :=
  if s.kvLeaseMap leaseId then .ok else .error "not-found"

/-- Modelled from the spec: `KvControl::LeaseAddKeys`; the key sets of leases are not modelled. -/
def leaseAddKeys (s : KvControl) (leaseId : Int) : Status :=
  if s.kvLeaseMap leaseId then .ok else .error "not-found"

/-- Modelled from the spec: `KvControl::LeaseRemoveMultiLeaseKeys`. -/
def leaseRemoveMultiLeaseKeys (s : KvControl) (keysToRemoveLease : List (Int × List Bytes)) :
    Status :=
  if keysToRemoveLease.all fun e => s.kvLeaseMap e.1 then .ok else .error "not-found"

/-! ## `KvPut` -/

/-- The argument checks of `KvPut` (`kv_control_kv.cc:342-366`). -/
def kvPutCheck (flags : Flags) (keyValueIn : KeyValue) (ignoreValue : Bool) :
    Except String Unit :=
  if keyValueIn.key.isEmpty then .error "KvPut key is empty"
  else if flags.maxKvKeySize < keyValueIn.key.length then .error "KvPut key is too long"
  else if !ignoreValue && keyValueIn.value.isEmpty then .error "KvPut value is empty"
  else if !ignoreValue && decide (flags.maxKvValueSize < keyValueIn.value.length) then
    .error "KvPut value is too long"
  else .ok ()

/-- The check of a requested lease (`kv_control_kv.cc:368-380`): `lease_grant_id` becomes
`lease_id` once `LeaseQuery` finds it. -/
def kvPutLeaseQuery (s : KvControl) (leaseId : Int) (ignoreLease : Bool) (leaseGrantId : Int) :
    Except String Int :=
  if !ignoreLease && leaseId != 0 then (leaseQuery s leaseId).toExcept.map fun _ => leaseId
  else .ok leaseGrantId

/-- The lease `KvPut` settles on from the point read `kvsTemp` of its key, `leaseGrantId` being
its value before (`kv_control_kv.cc:382-402`). -/
def kvPutLease (kvsTemp : List Kv) (leaseId : Int) (ignoreLease : Bool) (leaseGrantId : Int) :
    Except String Int :=
  match kvsTemp.head?, ignoreLease with
  | some kv, true => .ok kv.lease
  | none, true => .error "KvPut ignore_lease, but not found key"
  | some kv, false =>
    if kv.lease ≠ leaseId then .error "KvPut lease_id not match" else .ok kv.lease
  | none, false => .ok leaseGrantId

/-- `LeaseAddKeys` of a non-zero lease (`kv_control_kv.cc:407-419`). -/
def kvPutLeaseAddKeys (s : KvControl) (leaseGrantId : Int) : Except String Unit :=
  if leaseGrantId != 0 then (leaseAddKeys s leaseGrantId).toExcept else .ok ()

/-- The entry `KvPut` appends (`kv_control_kv.cc:438-453`): `ignore_value` and `value` are set
only `if (!ignore_value)`. -/
def kvPutIncrement (keyValueIn : KeyValue) (mainRevision subRevision : Int)
    (ignoreValue ignoreLease : Bool) (leaseGrantId : Int) : KvIndexIncrement :=
  let e : KvIndexIncrement :=
    { id := keyValueIn.key, eventType := .put, opRevision := ⟨mainRevision, subRevision⟩,
      ignoreLease, leaseId := leaseGrantId }
  let e := if !ignoreValue then { e with ignoreValue, value := keyValueIn.value } else e
  if !ignoreLease then { e with ignoreLease } else e

/-- What a successful `KvPut` hands back: `sub_revision`, `prev_kv` (`none` where the code leaves
the out parameter as it was), `lease_grant_id` and the entry. -/
structure KvPutOut where
  subRevision : Int
  prevKv : Option Kv
  leaseGrantId : Int
  kvIndexIncrement : KvIndexIncrement
deriving DecidableEq, Repr

/-- `KvControl::KvPut`; `leaseGrantId` is the caller's value of the out parameter. When
`kvs_temp` is empty the code reads the key again for `prev_kv`, on the same maps. -/
def kvPut (s : KvControl) (keyValueIn : KeyValue) (leaseId : Int)
    (needPrevKv ignoreValue ignoreLease : Bool) (mainRevision subRevision leaseGrantId : Int) :
    Except String KvPutOut := do
  kvPutCheck s.flags keyValueIn ignoreValue
  let leaseGrantId ← kvPutLeaseQuery s leaseId ignoreLease leaseGrantId
  let kvsTemp := (kvRange s keyValueIn.key [] 1 false false).1
  let leaseGrantId ← kvPutLease kvsTemp leaseId ignoreLease leaseGrantId
  kvPutLeaseAddKeys s leaseGrantId
  return { subRevision := subRevision + 1
           prevKv := if needPrevKv then some (kvsTemp.head?.getD {}) else none
           leaseGrantId
           kvIndexIncrement :=
             kvPutIncrement keyValueIn mainRevision subRevision ignoreValue ignoreLease
               leaseGrantId }

/-! ## `KvDeleteRange` -/

/-- The entries `KvDeleteRange` appends, one per key read, at `sub_revision`, then one past it
(`kv_control_kv.cc:490-503`). -/
def kvDeleteIncrements (mainRevision : Int) : Int → List Kv → List KvIndexIncrement
  | _, [] => []
  | subRevision, kv :: rest =>
    { id := kv.kv.key, eventType := .delete, opRevision := ⟨mainRevision, subRevision⟩ } ::
      kvDeleteIncrements mainRevision (subRevision + 1) rest

/-- `keys_to_remove_lease` after the loop (`kv_control_kv.cc:504-512`): `insert_or_assign` keeps
one key per lease, the last one read. The order of the `std::map` is not used. -/
def collectKeysToRemoveLease (kvsToDelete : List Kv) : List (Int × List Bytes) :=
  kvsToDelete.foldl (fun m kv =>
    if kv.lease = 0 then m else (kv.lease, [kv.kv.key]) :: m.filter (·.1 ≠ kv.lease)) []

/-- What a successful `KvDeleteRange` hands back: `sub_revision`, `deleted_count` and `prev_kvs`
(`none` where the code leaves the out parameter as it was), and the entries. -/
structure KvDeleteRangeOut where
  subRevision : Int
  deletedCount : Option Int
  prevKvs : Option (List Kv)
  kvIndexIncrements : List KvIndexIncrement
deriving DecidableEq, Repr

/-- The lease removal of `KvDeleteRange` (`kv_control_kv.cc:514-521`). -/
def kvDeleteRangeLeaseRemove (s : KvControl) (needLeaseRemoveKeys : Bool)
    (keysToRemoveLease : List (Int × List Bytes)) : Except String Unit :=
  if needLeaseRemoveKeys && !keysToRemoveLease.isEmpty then
    (leaseRemoveMultiLeaseKeys s keysToRemoveLease).toExcept
  else .ok ()

/-- `KvControl::KvDeleteRange`. -/
def kvDeleteRange (s : KvControl) (key rangeEnd : Bytes) (needPrevKv : Bool)
    (mainRevision subRevision : Int) (needLeaseRemoveKeys : Bool) :
    Except String KvDeleteRangeOut := do
  let kvsToDelete := (kvRange s key rangeEnd int64Max (!needPrevKv) false).1
  kvDeleteRangeLeaseRemove s needLeaseRemoveKeys (collectKeysToRemoveLease kvsToDelete)
  return { subRevision := subRevision + kvsToDelete.length
           deletedCount := if kvsToDelete.isEmpty then none else some kvsToDelete.length
           prevKvs := if needPrevKv then some kvsToDelete else none
           kvIndexIncrements := kvDeleteIncrements mainRevision subRevision kvsToDelete }

/-! ## What a successful `KvPut` checked -/

variable {s : KvControl}

theorem bind_eq_ok {ε α β : Type} {x : Except ε α} {f : α → Except ε β} {b : β} :
    x >>= f = .ok b ↔ ∃ a, x = .ok a ∧ f a = .ok b := by
  cases x <;> simp [bind, Except.bind]

/-- A successful `KvPut` passed every stage, and appended the entry of the lease it settled on. -/
theorem kvPut_eq_ok {keyValueIn : KeyValue} {leaseId : Int}
    {needPrevKv ignoreValue ignoreLease : Bool} {mainRevision subRevision leaseGrantId : Int}
    {out : KvPutOut}
    (h : kvPut s keyValueIn leaseId needPrevKv ignoreValue ignoreLease mainRevision subRevision
      leaseGrantId = .ok out) :
    kvPutCheck s.flags keyValueIn ignoreValue = .ok () ∧
      ∃ lg0 lg, kvPutLeaseQuery s leaseId ignoreLease leaseGrantId = .ok lg0 ∧
        kvPutLease (kvRange s keyValueIn.key [] 1 false false).1 leaseId ignoreLease lg0 =
          .ok lg ∧
        kvPutLeaseAddKeys s lg = .ok () ∧
        out.kvIndexIncrement =
          kvPutIncrement keyValueIn mainRevision subRevision ignoreValue ignoreLease lg := by
  simp only [kvPut, bind_eq_ok, pure, Except.pure, Except.ok.injEq] at h
  obtain ⟨⟨⟩, hc, lg0, hq, lg, hl, ⟨⟩, ha, rfl⟩ := h
  exact ⟨hc, lg0, lg, hq, hl, ha, rfl⟩

/-- The entry `KvPut` appends carries `ignore_value = false`, and the empty value under
`ignore_value`. -/
@[simp] theorem kvPutIncrement_eq (keyValueIn : KeyValue) (mainRevision subRevision : Int)
    (ignoreValue ignoreLease : Bool) (leaseGrantId : Int) :
    kvPutIncrement keyValueIn mainRevision subRevision ignoreValue ignoreLease leaseGrantId =
      { id := keyValueIn.key, eventType := .put, opRevision := ⟨mainRevision, subRevision⟩,
        ignoreLease, leaseId := leaseGrantId,
        value := if ignoreValue then [] else keyValueIn.value } := by
  cases ignoreValue <;> cases ignoreLease <;> rfl

theorem kvPutLeaseAddKeys_eq_ok {lg : Int} :
    kvPutLeaseAddKeys s lg = .ok () ↔ (lg ≠ 0 → s.kvLeaseMap lg = true) := by
  unfold kvPutLeaseAddKeys leaseAddKeys
  by_cases h0 : lg = 0 <;> by_cases h : s.kvLeaseMap lg <;> simp [h0, h, Status.toExcept]

theorem kvPutLease_eq_ok {kvsTemp : List Kv} {leaseId : Int} {ignoreLease : Bool} {lg0 lg : Int} :
    kvPutLease kvsTemp leaseId ignoreLease lg0 = .ok lg ↔
      match kvsTemp.head? with
      | some kv => lg = kv.lease ∧ (ignoreLease = false → kv.lease = leaseId)
      | none => ignoreLease = false ∧ lg = lg0 := by
  unfold kvPutLease
  rcases kvsTemp.head? with _ | kv <;> cases ignoreLease
  · simp [eq_comm]
  · simp
  · by_cases h : kv.lease = leaseId <;> simp [h, eq_comm]
  · simp [eq_comm]

/-- The point read of `KvPut`, with limit 1, is the one without a limit. -/
theorem kvRange_point_one (key : Bytes) (keysOnly : Bool) :
    kvRange s key [] 1 keysOnly false = kvRange s key [] 0 keysOnly false := by
  simp only [kvRange, kvRangeIndexes, if_true]
  cases s.getRawKvIndex key <;> simp [kvRangeLoop, int64Max]

/-- What the point read of `KvPut` finds: the `Kv` of the `KvRevInternal` a read of the key
sees. -/
theorem kvRange_point_head (key : Bytes) :
    (kvRange s key [] 1 false false).1.head? =
      match readAt s key with
      | some (some kr) => some (kvOfRev kr false)
      | _ => none := by
  rw [kvRange_point_one, kvRange_point]
  rcases readAt s key with _ | _ | kr <;> rfl

theorem putKvIndex_lastModRevision_some (idx : KvIndexInternal) (key : Bytes)
    (op : RevisionInternal) :
    (putKvIndex (some idx) key op).lastModRevision = idx.modRevision := by
  simp only [putKvIndex]; split <;> rfl

/-- The `KvRevInternal` `KvPutApply` takes as the previous one is the one a read of the key sees. -/
theorem kvRevLast_of_readAt {key : Bytes} {kr : KvRevInternal} (h : readAt s key = some (some kr))
    (op : RevisionInternal) :
    (s.getRawKvRev (putKvIndex (s.getRawKvIndex key) key op).lastModRevision).getD {} = kr := by
  cases hget : s.getRawKvIndex key with
  | none => rw [readAt, hget] at h; cases h
  | some idx =>
    rw [readAt, hget, Option.some_bind, readOf] at h
    split_ifs at h
    simp [putKvIndex_lastModRevision_some, KvControl.getRawKvRev_def, Option.some.inj h]

/-- A point read returns the `Kv` of the `KvRevInternal` a read of the key sees. -/
theorem mem_kvRange_point {key : Bytes} {kv : Kv} (h : kv ∈ (kvRange s key [] 0 false false).1) :
    ∃ kr, readAt s key = some (some kr) ∧ kv = kvOfRev kr false := by
  rw [kvRange_point] at h
  rcases hr : readAt s key with _ | _ | kr <;> rw [hr] at h <;> simp_all

/-! ## What a put then reads -/

section Put

variable {key : Bytes} {op : RevisionInternal} {il : Bool} {lid : Int} {iv : Bool} {v : Bytes}

/-- `KvPutApply` succeeds when the lease it resolves is `0` or held by `kv_lease_map_`. -/
theorem kvPutApply_fst_eq_ok {l : Int}
    (hl : (putKvRev key op il lid iv v (putKvIndex (s.getRawKvIndex key) key op)
      ((s.getRawKvRev (putKvIndex (s.getRawKvIndex key) key op).lastModRevision).getD {})).kv.lease
        = l)
    (h : l ≠ 0 → s.kvLeaseMap l = true) : (kvPutApply s key op il lid iv v).1 = .ok := by
  dsimp only [kvPutApply]
  rw [if_neg]
  rintro ⟨h0, h1⟩
  rw [hl] at h0 h1
  rw [h h0.ne'] at h1
  cases h1

/-- A failed `KvPutApply` changes nothing. -/
theorem kvPutApply_snd_of_ne_ok (h : (kvPutApply s key op il lid iv v).1 ≠ .ok) :
    (kvPutApply s key op il lid iv v).2.1 = s := by
  dsimp only [kvPutApply] at h ⊢
  split_ifs at h ⊢
  · rfl
  · exact absurd rfl h

/-- After a successful put of a live key a point read returns the value and lease it resolves
against the previous `KvRevInternal`, with that one's `create_revision` and the next version. -/
theorem Consistent.kvRange_kvPutApply_live (hc : Consistent s) {kr : KvRevInternal}
    (hread : readAt s key = some (some kr)) (hok : (kvPutApply s key op il lid iv v).1 = .ok) :
    kvRange (kvPutApply s key op il lid iv v).2.1 key [] 0 false false =
      ([{ kv := { key, value := if iv then kr.kv.value else v },
          createRevision := kr.kv.createRevision.main, modRevision := op.main,
          version := kr.kv.version + 1, lease := if il then kr.kv.lease else lid }], 1) := by
  obtain ⟨hcr, hv⟩ := hc.putKvIndex_prev key op
  rw [kvRange_point, hread] at hcr hv
  rw [kvRange_point, readAt_kvPutApply hok]
  cases iv <;> cases il <;>
    simp [kvOfRev, putKvRev, hcr, hv, kvRevLast_of_readAt hread, -KvControl.getRawKvIndex_def,
      -KvControl.getRawKvRev_def]

/-- After a successful put, without `ignore_value` or `ignore_lease`, of a key a point read does
not return, a point read returns the put's value and lease in a generation it opens. -/
theorem Consistent.kvRange_kvPutApply_dead (hc : Consistent s)
    (hdead : (kvRange s key [] 0 false false).1 = [])
    (hok : (kvPutApply s key op false lid false v).1 = .ok) :
    kvRange (kvPutApply s key op false lid false v).2.1 key [] 0 false false =
      ([{ kv := { key, value := v }, createRevision := op.main, modRevision := op.main,
          version := 1, lease := lid }], 1) := by
  obtain ⟨hcr, hv⟩ := hc.putKvIndex_prev key op
  rw [hdead] at hcr hv
  rw [kvRange_point, readAt_kvPutApply hok]
  simp [kvOfRev, putKvRev, hcr, hv, -KvControl.getRawKvIndex_def]

end Put

/-! ## The lease check of `KvPutApply` -/

/-- The lease `KvPutApply` checks (`kv_control_kv.cc:633-645`), as the spec words it:
`lease_id`, or with `ignore_lease` the lease of the `KvRevInternal` at the key's previous
`mod_revision`, which is the default `(0, 0)` for a key without an index. -/
def resolvedLease (s : KvControl) (key : Bytes) (ignoreLease : Bool) (leaseId : Int) : Int :=
  if ignoreLease then
    ((s.getRawKvRev (((s.getRawKvIndex key).map (·.modRevision)).getD {})).getD {}).kv.lease
  else leaseId

theorem putKvRev_lease (s : KvControl) (key : Bytes) (op : RevisionInternal) (il : Bool)
    (lid : Int) (iv : Bool) (v : Bytes) :
    (putKvRev key op il lid iv v (putKvIndex (s.getRawKvIndex key) key op)
        ((s.getRawKvRev (putKvIndex (s.getRawKvIndex key) key op).lastModRevision).getD
          {})).kv.lease =
      resolvedLease s key il lid := by
  unfold resolvedLease
  cases s.getRawKvIndex key with
  | none => rfl
  | some idx => simp only [putKvRev, putKvIndex_lastModRevision_some, Option.map_some',
      Option.getD_some]

/-- **A failed lease check changes nothing**: `KvPutApply` fails exactly when the lease it resolves
is positive and not in `kv_lease_map_`; it then returns the state it was given, so
`kv_index_map_`, `kv_rev_map_` and the meta-writer, and triggers no watch. -/
theorem kvPutApply_lease_check (s : KvControl) (key : Bytes) (op : RevisionInternal) (il : Bool)
    (lid : Int) (iv : Bool) (v : Bytes) :
    ((kvPutApply s key op il lid iv v).1 ≠ .ok ↔
        0 < resolvedLease s key il lid ∧ s.kvLeaseMap (resolvedLease s key il lid) = false) ∧
      ((kvPutApply s key op il lid iv v).1 ≠ .ok →
        kvPutApply s key op il lid iv v =
          (.error "KvPutApply kv_lease_map_.Exists failed", s, none)) := by
  dsimp only [kvPutApply]
  rw [putKvRev_lease]
  split_ifs with h
  · exact ⟨iff_of_true (fun h' => by cases h') h, fun _ => rfl⟩
  · exact ⟨iff_of_false (fun h' => h' rfl) h, fun h' => absurd rfl h'⟩

/-! ## The lease rules -/

/-- The lease rules `KvPut` checks of a put entry against the point read of its key
(`kv_control_kv.cc:387-402`): with a current `Kv` and without `ignore_lease` the entry has its
lease; without one, `ignore_lease` is not set. -/
def Admitted (s : KvControl) (e : KvIndexIncrement) : Prop :=
  match (kvRange s e.id [] 1 false false).1.head? with
  | some kv => e.ignoreLease = false → e.leaseId = kv.lease
  | none => e.ignoreLease = false

instance decidableAdmitted (s : KvControl) (e : KvIndexIncrement) : Decidable (Admitted s e) :=
  match h : (kvRange s e.id [] 1 false false).1.head? with
  | some kv =>
    decidable_of_iff (e.ignoreLease = false → e.leaseId = kv.lease) (by rw [Admitted, h])
  | none => decidable_of_iff (e.ignoreLease = false) (by rw [Admitted, h])

/-- The entry of a successful `KvPut` meets the lease rules in the state it was checked in. -/
theorem kvPut_admitted {keyValueIn : KeyValue} {leaseId : Int}
    {needPrevKv ignoreValue ignoreLease : Bool} {mainRevision subRevision leaseGrantId : Int}
    {out : KvPutOut}
    (h : kvPut s keyValueIn leaseId needPrevKv ignoreValue ignoreLease mainRevision subRevision
      leaseGrantId = .ok out) : Admitted s out.kvIndexIncrement := by
  obtain ⟨-, lg0, lg, -, hl, -, hout⟩ := kvPut_eq_ok h
  have := kvPutLease_eq_ok.mp hl
  rw [hout, kvPutIncrement_eq, Admitted]
  split <;> simp_all

/-- **`ignore_value` drops the value**: in a reachable state, a `KvPut` with `ignore_value` of a
live key that succeeds appends a put entry whose apply succeeds, after which a point read returns
the key with the empty value, the same lease and `create_revision`, the put's revision and the next
version. -/
theorem kvPut_ignoreValue_drops_value (hs : Reachable s) {key : Bytes} {kv : Kv}
    (hlive : kv ∈ (kvRange s key [] 0 false false).1) (value : Bytes) (leaseId : Int)
    (needPrevKv ignoreLease : Bool) (mainRevision subRevision leaseGrantId : Int) {out : KvPutOut}
    (hput : kvPut s { key, value } leaseId needPrevKv true ignoreLease mainRevision subRevision
      leaseGrantId = .ok out) :
    out.kvIndexIncrement.eventType = .put ∧
      (applyKvIndexIncrement s out.kvIndexIncrement).1 = .ok ∧
      kvRange (applyKvIndexIncrement s out.kvIndexIncrement).2 key [] 0 false false =
        ([{ kv with
            kv := { key, value := [] }, modRevision := mainRevision, version := kv.version + 1 }],
          1) := by
  obtain ⟨kr, hread, rfl⟩ := mem_kvRange_point hlive
  obtain ⟨-, lg0, lg, -, hl, ha, hout⟩ := kvPut_eq_ok hput
  have hlg : lg = kr.kv.lease := by
    have := kvPutLease_eq_ok.mp hl
    rw [kvRange_point_head, hread] at this
    exact this.1
  have hok : (kvPutApply s key ⟨mainRevision, subRevision⟩ ignoreLease lg false []).1 = .ok :=
    kvPutApply_fst_eq_ok (by simp only [putKvRev, kvRevLast_of_readAt hread, hlg, ite_self])
      (kvPutLeaseAddKeys_eq_ok.mp ha)
  rw [hout, kvPutIncrement_eq]
  refine ⟨rfl, hok, ?_⟩
  simp only [applyKvIndexIncrement, if_true]
  rw [hs.consistent.kvRange_kvPutApply_live hread hok]
  cases ignoreLease <;> simp [kvOfRev, hlg]

theorem kvPut_ignoreValue_drops_value_after_put :
    let s := (kvPutApply { kvLeaseMap := fun _ => false } [1] ⟨1, 0⟩ false 0 false [7]).2.1
    let kv : Kv :=
      { kv := { key := [1], value := [7] }, createRevision := 1, modRevision := 1, version := 1 }
    let out : KvPutOut :=
      { subRevision := 1, prevKv := none, leaseGrantId := 0,
        kvIndexIncrement := { id := [1], eventType := .put, opRevision := ⟨2, 0⟩ } }
    (Reachable s ∧ kv ∈ (kvRange s [1] [] 0 false false).1 ∧
      kvPut s { key := [1], value := [9] } 0 false true false 2 0 0 = .ok out) ∧
      out.kvIndexIncrement.eventType = .put ∧
      (applyKvIndexIncrement s out.kvIndexIncrement).1 = .ok ∧
      kvRange (applyKvIndexIncrement s out.kvIndexIncrement).2 [1] [] 0 false false =
        ([{ kv with
            kv := { key := [1], value := [] }, modRevision := 2, version := kv.version + 1 }],
          1) := by
  intro s kv out
  have hs : Reachable s :=
    .step (.put [1] ⟨1, 0⟩ false 0 false [7]) (.init _ _) (fresh_init _ _ _)
  have hlive : kv ∈ (kvRange s [1] [] 0 false false).1 := by decide
  have hput : kvPut s { key := [1], value := [9] } 0 false true false 2 0 0 = .ok out := rfl
  exact ⟨⟨hs, hlive, hput⟩,
    kvPut_ignoreValue_drops_value hs hlive [9] 0 false false 2 0 0 hput⟩
end DingoKv
