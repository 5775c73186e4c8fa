import DingoKv.Scan
import DingoKv.Protocol
import DingoKv.Persist

/-!
# `KvDeleteRange`: what it proposes, and what applying it leaves

`KvDeleteRange` (`kv_control_kv.cc:469-533`) reads the range with
`KvRange(key, range_end, INT64_MAX, !need_prev_kv, false)`, appends one delete entry per key
read, collects the leased keys for `LeaseRemoveMultiLeaseKeys`, and sets `deleted_count` and
`prev_kvs` from the read.

## Results

* `kvDeleteRange_lease_keys`: the map handed to `LeaseRemoveMultiLeaseKeys` sends a lease
  `L ≠ 0` to the last key read with lease `L`, and to no other: `insert_or_assign` replaces the
  set of the lease by a one-key set at each key. The other keys being deleted keep the lease.
* `kvDeleteRange_deletes_range`: from a reachable state, a `KvDeleteRange` that returns `OK`
  appends one delete entry per key an unlimited keys-only read returns, in order, sets
  `deleted_count` and `prev_kvs` from that read, and applying its entries leaves every read of
  the range empty, whatever revisions the entries carry.
-/

namespace DingoKv

variable {s : KvControl}

/-! ## The keys whose lease is removed -/

theorem lookup_foldl_keysToRemoveLease (kvs : List Kv) (m : List (Int × List Bytes)) {L : Int}
    (hL : L ≠ 0) :
    lookup (kvs.foldl (fun m kv =>
        if kv.lease = 0 then m else (kv.lease, [kv.kv.key]) :: m.filter (·.1 ≠ kv.lease)) m) L =
      ((kvs.filter (·.lease = L)).getLast?.map fun kv => [kv.kv.key]).or (lookup m L) := by
  induction kvs generalizing m with
  | nil => rfl
  | cons kv rest ih =>
    rw [List.foldl_cons, ih]
    by_cases hk : kv.lease = L
    · have hstep : lookup (if kv.lease = 0 then m
          else (kv.lease, [kv.kv.key]) :: m.filter (·.1 ≠ kv.lease)) L = some [kv.kv.key] := by
        rw [if_neg (hk ▸ hL), lookup, if_pos hk]
      rw [hstep, List.filter_cons_of_pos (by simpa using hk), List.getLast?_cons]
      cases (rest.filter (·.lease = L)).getLast? <;> rfl
    · have hstep : lookup (if kv.lease = 0 then m
          else (kv.lease, [kv.kv.key]) :: m.filter (·.1 ≠ kv.lease)) L = lookup m L := by
        split_ifs
        · rfl
        · rw [lookup, if_neg hk, lookup_filter_ne, if_neg (Ne.symm hk)]
      rw [hstep, List.filter_cons_of_neg (by simpa using hk)]

/-- **Only the last key of a lease has it removed**: for every state and range, the map
`KvDeleteRange` hands to `LeaseRemoveMultiLeaseKeys` sends each lease `L ≠ 0` to the one-key set
of the last key read with lease `L`, and has no entry for a lease no key read carries. -/
theorem kvDeleteRange_lease_keys (s : KvControl) (key rangeEnd : Bytes) (needPrevKv : Bool)
    {L : Int} (hL : L ≠ 0) :
    lookup (collectKeysToRemoveLease (kvRange s key rangeEnd int64Max (!needPrevKv) false).1) L =
      ((kvRange s key rangeEnd int64Max (!needPrevKv) false).1.filter (·.lease = L)).getLast?.map
        fun kv => [kv.kv.key] := by
  rw [collectKeysToRemoveLease, lookup_foldl_keysToRemoveLease _ _ hL]
  exact Option.or_none

theorem kvDeleteRange_lease_keys_two_keys :
    let s := ApplyStep.run { kvLeaseMap := fun l => l = 5 }
      [.put [1] ⟨1, 0⟩ false 5 false [7], .put [2] ⟨2, 0⟩ false 5 false [8]]
    (5 : Int) ≠ 0 ∧
      lookup (collectKeysToRemoveLease (kvRange s [1] [3] int64Max (!false) false).1) 5 =
        ((kvRange s [1] [3] int64Max (!false) false).1.filter (·.lease = 5)).getLast?.map
          (fun kv => [kv.kv.key]) ∧
      lookup (collectKeysToRemoveLease (kvRange s [1] [3] int64Max (!false) false).1) 5 =
        some [[2]] := by
  intro s
  exact ⟨by decide, kvDeleteRange_lease_keys s [1] [3] false (by decide), by decide⟩

/-! ## What a successful call proposes -/

/-- A `KvDeleteRange` that returns `OK` hands back what it read. -/
theorem kvDeleteRange_eq_ok_out {key rangeEnd : Bytes} {needPrevKv : Bool}
    {mainRevision subRevision : Int} {needLeaseRemoveKeys : Bool} {out : KvDeleteRangeOut}
    (h : kvDeleteRange s key rangeEnd needPrevKv mainRevision subRevision needLeaseRemoveKeys =
      .ok out) :
    out.deletedCount = (if (kvRange s key rangeEnd int64Max (!needPrevKv) false).1.isEmpty then none
        else some ((kvRange s key rangeEnd int64Max (!needPrevKv) false).1.length : Int)) ∧
      out.prevKvs =
        (if needPrevKv then some (kvRange s key rangeEnd int64Max (!needPrevKv) false).1 else none) := by
  simp only [kvDeleteRange, bind_eq_ok, pure, Except.pure, Except.ok.injEq] at h
  obtain ⟨⟨⟩, -, rfl⟩ := h
  exact ⟨rfl, rfl⟩

theorem map_id_kvDeleteIncrements (mainRevision subRevision : Int) (kvs : List Kv) :
    (kvDeleteIncrements mainRevision subRevision kvs).map (·.id) = kvs.map (·.kv.key) := by
  induction kvs generalizing subRevision with
  | nil => rfl
  | cons kv rest ih => simp [kvDeleteIncrements, ih]

theorem eventType_kvDeleteIncrements (mainRevision subRevision : Int) (kvs : List Kv) :
    ∀ e ∈ kvDeleteIncrements mainRevision subRevision kvs, e.eventType = .delete := by
  induction kvs generalizing subRevision with
  | nil => simp [kvDeleteIncrements]
  | cons kv rest ih =>
    rw [kvDeleteIncrements, List.forall_mem_cons]
    exact ⟨rfl, ih (subRevision + 1)⟩

/-- The read of `KvDeleteRange` has the keys and the length of every unlimited read. -/
theorem Consistent.kvRange_int64Max (hc : Consistent s) (key rangeEnd : Bytes) (keysOnly : Bool) :
    (kvRange s key rangeEnd int64Max keysOnly false).1 = rangeKvs s key rangeEnd keysOnly := by
  rw [hc.kvRange_limit, if_pos (.inr (by unfold int64Max; omega))]

/-! ## Applying the deletes -/

theorem kvDeleteApply_getRawKvIndex (s : KvControl) (key : Bytes) (op : RevisionInternal)
    (k : Bytes) :
    (kvDeleteApply s key op).2.1.getRawKvIndex k =
      if k = key then (s.getRawKvIndex key).map fun idx => (deleteKvIndex idx op).kvIndex
      else s.getRawKvIndex k := by
  unfold kvDeleteApply
  cases hget : s.getRawKvIndex key with
  | none => split_ifs with hk <;> simp only [hk, hget, Option.map_none']
  | some idx => rw [getRawKvIndex_write, Option.map_some']

/-- A deleted key is not live, whatever its index held. -/
theorem deleteKvIndex_isLive (idx : KvIndexInternal) (op : RevisionInternal) :
    (deleteKvIndex idx op).kvIndex.isLive = false := by
  unfold deleteKvIndex
  split
  · rfl
  · rename_i latest hl
    split
    · simp [KvIndexInternal.isLive, Generation.isLive]
    · rename_i ho
      simp [KvIndexInternal.isLive, hl, Generation.isLive, ho]

theorem applyKvIndexIncrement_delete {e : KvIndexIncrement} (h : e.eventType = .delete) :
    (applyKvIndexIncrement s e).2 = (kvDeleteApply s e.id e.opRevision).2.1 := by
  simp [applyKvIndexIncrement, h]

/-- **Applying deletes** keeps every index carrying its key and the flags, and a key live after
them is none of their keys, with the index it had before. -/
theorem applyKvIndexIncrements_deletes {es : List KvIndexIncrement}
    (hd : ∀ e ∈ es, e.eventType = .delete) (hid : IdsMatch s) :
    IdsMatch (applyKvIndexIncrements s es) ∧ (applyKvIndexIncrements s es).flags = s.flags ∧
      ∀ k idx, (applyKvIndexIncrements s es).getRawKvIndex k = some idx → idx.isLive →
        k ∉ es.map (·.id) ∧ s.getRawKvIndex k = some idx := by
  induction es generalizing s with
  | nil => exact ⟨hid, rfl, fun _ _ h _ => ⟨List.not_mem_nil _, h⟩⟩
  | cons e rest ih =>
    have hstep := applyKvIndexIncrement_delete (s := s) (hd e (List.mem_cons_self _ _))
    have hid1 : IdsMatch (kvDeleteApply s e.id e.opRevision).2.1 := fun k idx h => by
      rw [kvDeleteApply_getRawKvIndex] at h
      split_ifs at h with hk
      · obtain ⟨idx0, hget, rfl⟩ := Option.map_eq_some'.mp h
        rw [deleteKvIndex_id, hid _ _ hget, hk]
      · exact hid k idx h
    obtain ⟨hids, hflags, hlive⟩ :=
      ih (fun e' he' => hd e' (List.mem_cons_of_mem _ he')) hid1
    unfold applyKvIndexIncrements at hids hflags hlive ⊢
    rw [List.foldl_cons, hstep]
    refine ⟨hids, hflags.trans (kvDeleteApply_flags _ _ _), fun k idx h hl => ?_⟩
    obtain ⟨hk, h1⟩ := hlive k idx h hl
    rw [kvDeleteApply_getRawKvIndex] at h1
    split_ifs at h1 with hke
    · obtain ⟨idx0, -, rfl⟩ := Option.map_eq_some'.mp h1
      rw [deleteKvIndex_isLive] at hl
      cases hl
    · exact ⟨by simp [hke, hk], h1⟩

/-- **Deleting every key a read returns empties the range**: in a consistent state, applying
delete entries for the keys `rangeKvs` returns, whatever their revisions, leaves every `KvRange`
of the range empty. -/
theorem Consistent.kvRange_applyKvIndexIncrements_deletes (hc : Consistent s) {key rangeEnd : Bytes}
    {es : List KvIndexIncrement} (hd : ∀ e ∈ es, e.eventType = .delete)
    (hids : es.map (·.id) = (rangeKvs s key rangeEnd true).map (·.kv.key))
    (limit : Int) (keysOnly countOnly : Bool) :
    (kvRange (applyKvIndexIncrements s es) key rangeEnd limit keysOnly countOnly).1 = [] := by
  obtain ⟨hid', hflags, hlive⟩ := applyKvIndexIncrements_deletes hd hc.id_eq
  have hempty : ((readView (applyKvIndexIncrements s es)).filter
      fun e => inRange s.flags key rangeEnd e.1) = [] := by
    refine List.filter_eq_nil_iff.mpr fun e he hin => ?_
    obtain ⟨⟨k, idx⟩, hm, h⟩ := List.mem_filterMap.mp he
    split_ifs at h with hl
    cases h
    obtain ⟨hk, hget⟩ := hlive k idx (SortedMap.mem_entries.mp hm) hl
    have hin' : (k, s.kvRevMap idx.modRevision) ∈
        (readView s).filter fun e => inRange s.flags key rangeEnd e.1 :=
      List.mem_filter.mpr ⟨List.mem_filterMap.mpr
        ⟨(k, idx), SortedMap.mem_entries.mpr hget, by simp [hl]⟩, hin⟩
    apply hk
    rw [hids, hc.map_key_rangeKvs]
    exact List.mem_map_of_mem Prod.fst hin'
  rw [kvRange_eq_view hid', kvRangeView, hflags, hempty]
  cases countOnly <;> simp [viewLoop]

/-- **`KvDeleteRange` deletes its range**: from a reachable state, a `KvDeleteRange` that
returns `OK` appends one `KV_INDEX_EVENT_TYPE_DELETE` entry for each key an unlimited keys-only
`KvRange` returns, in that order; sets `deleted_count` to their number when there are some; with
`need_prev_kv` sets `prev_kvs` to the unlimited `KvRange` of the state; and applying its entries
in order leaves every `KvRange` of the range empty. -/
theorem kvDeleteRange_deletes_range (hs : Reachable s) (key rangeEnd : Bytes) (needPrevKv : Bool)
    (mainRevision subRevision : Int) (needLeaseRemoveKeys : Bool) {out : KvDeleteRangeOut}
    (hok : kvDeleteRange s key rangeEnd needPrevKv mainRevision subRevision needLeaseRemoveKeys =
      .ok out) :
    out.kvIndexIncrements.map (·.id) = (kvRange s key rangeEnd 0 true false).1.map (·.kv.key) ∧
      (∀ e ∈ out.kvIndexIncrements, e.eventType = .delete) ∧
      out.deletedCount = (if (kvRange s key rangeEnd 0 true false).1 = [] then none
        else some ((kvRange s key rangeEnd 0 true false).1.length : Int)) ∧
      (needPrevKv = true → out.prevKvs = some (kvRange s key rangeEnd 0 false false).1) ∧
      ∀ limit keysOnly countOnly,
        (kvRange (applyKvIndexIncrements s out.kvIndexIncrements) key rangeEnd limit keysOnly
          countOnly).1 = [] := by
  have hc := hs.consistent
  have hunl : ∀ b, (kvRange s key rangeEnd 0 b false).1 = rangeKvs s key rangeEnd b := fun b => by
    rw [hc.kvRange_limit, if_pos (.inl rfl)]
  have hkeys : (rangeKvs s key rangeEnd (!needPrevKv)).map (·.kv.key) =
      (rangeKvs s key rangeEnd true).map (·.kv.key) := by
    rw [hc.map_key_rangeKvs, hc.map_key_rangeKvs]
  have hinc := kvDeleteRange_eq_ok hok
  rw [hc.kvRange_int64Max] at hinc
  have hids : out.kvIndexIncrements.map (·.id) = (rangeKvs s key rangeEnd true).map (·.kv.key) := by
    rw [hinc, map_id_kvDeleteIncrements, hkeys]
  have hdel : ∀ e ∈ out.kvIndexIncrements, e.eventType = .delete := hinc ▸ eventType_kvDeleteIncrements _ _ _
  obtain ⟨hcount, hprev⟩ := kvDeleteRange_eq_ok_out hok
  rw [hc.kvRange_int64Max] at hcount hprev
  refine ⟨by rw [hids, hunl], hdel, ?_, fun hp => by rw [hprev, if_pos hp, hunl, hp]; rfl,
    hc.kvRange_applyKvIndexIncrements_deletes hdel hids⟩
  have hlen := congrArg List.length hkeys
  simp only [List.length_map] at hlen
  rw [hcount, hunl, ← hlen]
  simp [List.isEmpty_iff, ← List.length_eq_zero, hlen]

theorem kvDeleteRange_deletes_range_two_keys :
    let s := ApplyStep.run { kvLeaseMap := fun _ => false }
      [.put [1] ⟨1, 0⟩ false 0 false [7], .put [2] ⟨2, 0⟩ false 0 false [8]]
    let kvs := (kvRange s [1] [3] int64Max (!true) false).1
    let out : KvDeleteRangeOut :=
      { subRevision := 0 + kvs.length
        deletedCount := if kvs.isEmpty then none else some kvs.length
        prevKvs := if true then some kvs else none
        kvIndexIncrements := kvDeleteIncrements 3 0 kvs }
    (Reachable s ∧ kvDeleteRange s [1] [3] true 3 0 false = .ok out) ∧
      out.kvIndexIncrements.map (·.id) = (kvRange s [1] [3] 0 true false).1.map (·.kv.key) ∧
      (∀ e ∈ out.kvIndexIncrements, e.eventType = .delete) ∧
      out.deletedCount = (if (kvRange s [1] [3] 0 true false).1 = [] then none
        else some ((kvRange s [1] [3] 0 true false).1.length : Int)) ∧
      (true = true → out.prevKvs = some (kvRange s [1] [3] 0 false false).1) ∧
      ∀ limit keysOnly countOnly,
        (kvRange (applyKvIndexIncrements s out.kvIndexIncrements) [1] [3] limit keysOnly
          countOnly).1 = [] := by
  intro s kvs out
  have f1 := fresh_init {} (fun _ => false) ⟨1, 0⟩
  have hs : Reachable s := .step (.put [2] ⟨2, 0⟩ false 0 false [8])
    (.step (.put [1] ⟨1, 0⟩ false 0 false [7]) (.init _ _) f1)
    ((consistent_init {} fun _ => false).fresh_put f1
      (by decide : (⟨1, 0⟩ : RevisionInternal) < ⟨2, 0⟩) [1] false 0 false [7])
  have hok : kvDeleteRange s [1] [3] true 3 0 false = .ok out := rfl
  exact ⟨⟨hs, hok⟩, kvDeleteRange_deletes_range hs [1] [3] true 3 0 false hok⟩

end DingoKv
