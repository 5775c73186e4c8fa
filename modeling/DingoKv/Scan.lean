import DingoKv.Propose

/-!
# `KvRange` with a limit, and the count it reports

`KvRange` (`kv_control_kv.cc:201-284`) counts the live indexes it passes in the `uint32_t`
`limit_count`, stops once the count passes `limit`, and sets `total_count_in_range` to the
number of `Kv`s it returns. `rangeKvs` is what it returns without a limit: the `Kv` of every live
key `inRange` selects, in key order.

## Results

* `kvRange_scan`: in every reachable state, `KvRange` with a `limit` in `(0, 2^32 - 1)` returns
  the first `limit` entries of `rangeKvs`; with `limit = 0` or `limit >= 2^32 - 1` it returns
  them all, since the `uint32_t` count never passes such a limit (it wraps after `2^32 - 1`
  keys). `rangeKvs` has one entry per live selected key, and the keys come out strictly
  ascending. For `range_end = "\0"` the scan stops before its upper bound, `max_kv_key_size`
  bytes `0xFF`: the key made of exactly those bytes, which `KvPut` admits, is never returned.
* `kvRange_total_count`: `total_count_in_range` is `0` with `count_only`, and
  `min(limit, N)` with a limit below `2^32 - 1`, where `N` is the number of live keys in the
  range.
* `kvRangeRawKeys_eq_kvRange_iff`: `KvRangeRawKeys` (`kv_control_kv.cc:292-321`) returns the keys
  `KvRange` returns, except for the point lookup of a key whose latest generation is a tombstone:
  the scan keeps live indexes only, the point lookup any index it finds.

Out of scope: reads of a state where an index's `mod_revision` has no `KvRevInternal`; there the
code counts the key against the limit and returns nothing for it, which no reachable state
shows (`Consistent.readView_some`).
-/

namespace DingoKv

variable {s : KvControl}

/-! ## The loop with a limit -/

/-- With `count_only` the loop of `KvRange` returns nothing. -/
theorem kvRangeLoop_countOnly (s : KvControl) (limit : Int) (keysOnly : Bool)
    (idxs : List KvIndexInternal) (n : UInt32) (acc : List Kv) :
    kvRangeLoop s limit keysOnly true idxs n acc = acc := by
  induction idxs generalizing n acc with
  | nil => rfl
  | cons idx rest ih =>
    simp [kvRangeLoop, ih]

/-- A negative limit stops the loop at its first live key. -/
theorem viewLoop_of_neg {limit : Int} (hl : limit < 0) (keysOnly countOnly : Bool)
    (os : List (Option KvRevInternal)) (n : UInt32) (acc : List Kv) :
    viewLoop limit keysOnly countOnly os n acc = acc := by
  cases os with
  | nil => rfl
  | cons o rest => simp only [viewLoop, if_pos (show limit < (n + 1).toNat by omega)]

/-- **A limit below `2^32 - 1` takes a prefix**: from a count `n` at most the limit, the loop
reads the next `limit - n` keys. -/
theorem viewLoop_take {limit : Int} (hl : limit < 4294967295) (keysOnly : Bool)
    (os : List (Option KvRevInternal)) (n : UInt32) (hn : (n.toNat : Int) ≤ limit)
    (acc : List Kv) :
    viewLoop limit keysOnly false os n acc =
      acc ++ (os.take (limit.toNat - n.toNat)).filterMap (Option.map (kvOfRev · keysOnly)) := by
  induction os generalizing n acc with
  | nil => simp [viewLoop]
  | cons o rest ih =>
    have hsucc : (n + 1).toNat = n.toNat + 1 := by
      show (n.toNat + 1) % 4294967296 = n.toNat + 1
      exact Nat.mod_eq_of_lt (by omega)
    by_cases hstop : limit < (n + 1).toNat
    · have h0 : limit.toNat - n.toNat = 0 := by omega
      simp [viewLoop, hstop, h0]
    · have hk : limit.toNat - n.toNat = limit.toNat - (n + 1).toNat + 1 := by omega
      have ih' := ih (n + 1) (by omega)
      rw [hk, List.take_succ_cons]
      cases o <;> simp [viewLoop, hstop, ih']

theorem filterMap_take_of_isSome {α β : Type} (f : α → β) {os : List (Option α)}
    (h : ∀ o ∈ os, o.isSome) (n : Nat) :
    (os.take n).filterMap (Option.map f) = (os.filterMap (Option.map f)).take n := by
  induction os generalizing n with
  | nil => simp
  | cons o rest ih =>
    obtain ⟨a, rfl⟩ := Option.isSome_iff_exists.mp (h o (List.mem_cons_self _ _))
    cases n with
    | zero => simp
    | succ n => simp [ih (fun o ho => h o (List.mem_cons_of_mem _ ho))]

/-! ## What a read returns -/

/-- The `Kv` of every live key the range selects, in key order: `KvRange` without a limit. -/
def rangeKvs (s : KvControl) (key rangeEnd : Bytes) (keysOnly : Bool) : List Kv :=
  ((readView s).filter fun e => inRange s.flags key rangeEnd e.1).filterMap
    fun e => e.2.map (kvOfRev · keysOnly)

/-- In a consistent state every live key has its `KvRevInternal`, of its own key. -/
theorem Consistent.readView_some (hc : Consistent s) : ∀ e ∈ readView s, ∃ kr ∈ e.2, kr.kv.id = e.1 := by
  intro e he
  obtain ⟨⟨k, idx⟩, hm, h⟩ := List.mem_filterMap.mp he
  have hget : s.getRawKvIndex k = some idx := SortedMap.mem_entries.mp hm
  split_ifs at h with hl
  cases h
  obtain ⟨g, hg, hgl⟩ := KvIndexInternal.isLive_iff.mp hl
  obtain ⟨kr, hkr, -⟩ := hc.live_rev k idx hget g hg hgl
  exact ⟨kr, hkr, hc.readView_ids _ he kr hkr⟩

theorem map_key_filterMap_kvOfRev {V : List (Bytes × Option KvRevInternal)}
    (hV : ∀ e ∈ V, ∃ kr ∈ e.2, kr.kv.id = e.1) (keysOnly : Bool) :
    (V.filterMap fun e => e.2.map (kvOfRev · keysOnly)).map (·.kv.key) = V.map Prod.fst := by
  induction V with
  | nil => rfl
  | cons e rest ih =>
    obtain ⟨kr, hkr, hid⟩ := hV e (List.mem_cons_self _ _)
    obtain ⟨k, o⟩ := e
    obtain rfl : o = some kr := hkr
    simp only [List.filterMap_cons, Option.map_some', List.map_cons]
    rw [ih fun e he => hV e (List.mem_cons_of_mem _ he)]
    exact congrArg (· :: _) hid

/-- The keys `rangeKvs` returns are the live keys the range selects. -/
theorem Consistent.map_key_rangeKvs (hc : Consistent s) (key rangeEnd : Bytes) (keysOnly : Bool) :
    (rangeKvs s key rangeEnd keysOnly).map (·.kv.key) =
      ((readView s).filter fun e => inRange s.flags key rangeEnd e.1).map Prod.fst :=
  map_key_filterMap_kvOfRev (fun e he => hc.readView_some e (List.mem_of_mem_filter he)) keysOnly

/-- **`KvRange` with a limit** is a prefix of `rangeKvs`, or all of it when the limit is `0` or
at least `2^32 - 1`. -/
theorem Consistent.kvRange_limit (hc : Consistent s) (key rangeEnd : Bytes) (limit : Int)
    (keysOnly : Bool) :
    (kvRange s key rangeEnd limit keysOnly false).1 =
      if limit = 0 ∨ 4294967295 ≤ limit then rangeKvs s key rangeEnd keysOnly
      else (rangeKvs s key rangeEnd keysOnly).take limit.toNat := by
  have hview : rangeKvs s key rangeEnd keysOnly =
      (((readView s).filter fun e => inRange s.flags key rangeEnd e.1).map Prod.snd).filterMap
        (Option.map (kvOfRev · keysOnly)) := by
    rw [rangeKvs, List.filterMap_map]; rfl
  have hsome : ∀ o ∈ ((readView s).filter fun e => inRange s.flags key rangeEnd e.1).map Prod.snd,
      o.isSome := by
    intro o ho
    obtain ⟨e, he, rfl⟩ := List.mem_map.mp ho
    obtain ⟨kr, hkr, -⟩ := hc.readView_some e (List.mem_of_mem_filter he)
    exact Option.isSome_iff_exists.mpr ⟨kr, hkr⟩
  rw [kvRange_eq_view hc.id_eq, hview]
  simp only [kvRangeView]
  by_cases h0 : limit = 0
  · simp [h0, viewLoop_unbounded]
  by_cases hw : 4294967295 ≤ limit
  · simp [h0, hw, viewLoop_wide hw]
  rw [if_neg h0, if_neg (by omega)]
  by_cases hneg : limit < 0
  · rw [viewLoop_of_neg hneg, show limit.toNat = 0 by omega, List.take_zero]
  · rw [viewLoop_take (by omega) keysOnly _ 0 (by simp; omega), List.nil_append,
      filterMap_take_of_isSome _ hsome]
    rfl

/-- **`KvRange` scans the live keys of the range in order, up to a `uint32_t` limit**: in a
reachable state, a limit in `(0, 2^32 - 1)` returns the first `limit` entries of `rangeKvs`, and a
limit of `0` or of at least `2^32 - 1` all of them; `rangeKvs` has one `Kv` for each live key
`inRange` selects, in order; the keys come out strictly ascending; and for `range_end = "\0"`
every key returned is below `max_kv_key_size` bytes `0xFF`, so that key itself never is. -/
theorem kvRange_scan (hs : Reachable s) (key rangeEnd : Bytes) (limit : Int) (keysOnly : Bool) :
    (kvRange s key rangeEnd limit keysOnly false).1 =
        (if limit = 0 ∨ 4294967295 ≤ limit then rangeKvs s key rangeEnd keysOnly
          else (rangeKvs s key rangeEnd keysOnly).take limit.toNat) ∧
      (rangeKvs s key rangeEnd keysOnly).map (·.kv.key) =
        ((readView s).filter fun e => inRange s.flags key rangeEnd e.1).map Prod.fst ∧
      ((kvRange s key rangeEnd limit keysOnly false).1.map (·.kv.key)).Sorted (· < ·) ∧
      (rangeEnd = [0] → ∀ kv ∈ (kvRange s key rangeEnd limit keysOnly false).1,
        kv.kv.key < List.replicate s.flags.maxKvKeySize 255) := by
  have hc := hs.consistent
  have hlim := hc.kvRange_limit key rangeEnd limit keysOnly
  have hkeys := hc.map_key_rangeKvs key rangeEnd keysOnly
  have hsub : (kvRange s key rangeEnd limit keysOnly false).1.Sublist
      (rangeKvs s key rangeEnd keysOnly) := by
    rw [hlim]; split
    · exact List.Sublist.refl _
    · exact List.take_sublist _ _
  have hsorted : ((rangeKvs s key rangeEnd keysOnly).map (·.kv.key)).Sorted (· < ·) := by
    rw [hkeys, List.Sorted, List.pairwise_map]
    exact (keySorted_readView s).sublist (List.filter_sublist _)
  refine ⟨hlim, hkeys, hsorted.sublist (hsub.map _), fun h0 kv hkv => ?_⟩
  have hmem : kv.kv.key ∈ ((readView s).filter fun e => inRange s.flags key rangeEnd e.1).map
      Prod.fst := hkeys ▸ List.mem_map_of_mem _ (hsub.subset hkv)
  obtain ⟨e, he, hek⟩ := List.mem_map.mp hmem
  have hin := (List.mem_filter.mp he).2
  simp only [inRange, h0, rangeUpperBound, if_true, List.cons_ne_nil, if_false, Bool.and_eq_true,
    decide_eq_true_eq] at hin
  exact hek ▸ hin.1.2

theorem kvRange_scan_max_key :
    let s := (ApplyStep.put (List.replicate 4096 255) ⟨1, 0⟩ false 0 false [7]).apply
      { kvLeaseMap := fun _ => false }
    (kvPutCheck s.flags { key := List.replicate 4096 255, value := [7] } false = .ok () ∧
      Reachable s) ∧
      ((kvRange s [] [0] 0 false false).1 =
          (if (0 : Int) = 0 ∨ 4294967295 ≤ (0 : Int) then rangeKvs s [] [0] false
            else (rangeKvs s [] [0] false).take (0 : Int).toNat) ∧
        (rangeKvs s [] [0] false).map (·.kv.key) =
          ((readView s).filter fun e => inRange s.flags [] [0] e.1).map Prod.fst ∧
        ((kvRange s [] [0] 0 false false).1.map (·.kv.key)).Sorted (· < ·) ∧
        ([0] = ([0] : Bytes) → ∀ kv ∈ (kvRange s [] [0] 0 false false).1,
          kv.kv.key < List.replicate s.flags.maxKvKeySize 255)) := by
  intro s
  have hs : Reachable s := .step _ (.init {} _) (fresh_init {} (fun _ => false) ⟨1, 0⟩)
  have hput : kvPutCheck s.flags { key := List.replicate 4096 255, value := [7] } false = .ok () := by
    have hne : (List.replicate 4096 (255 : UInt8)).isEmpty = false := rfl
    have hlen : (List.replicate 4096 (255 : UInt8)).length = 4096 := List.length_replicate _ _
    show kvPutCheck {} { key := List.replicate 4096 255, value := [7] } false = .ok ()
    simp only [kvPutCheck, hne, hlen]
    rfl
  exact ⟨⟨hput, hs⟩, kvRange_scan hs [] [0] 0 false⟩

/-! ## The count -/

/-- With `count_only`, `KvRange` returns no `Kv` and a count of `0`. -/
theorem kvRange_countOnly (s : KvControl) (key rangeEnd : Bytes) (limit : Int) (keysOnly : Bool) :
    kvRange s key rangeEnd limit keysOnly true = ([], 0) := by
  simp [kvRange, kvRangeLoop_countOnly]

theorem Consistent.length_rangeKvs (hc : Consistent s) (key rangeEnd : Bytes) (keysOnly : Bool) :
    (rangeKvs s key rangeEnd keysOnly).length =
      ((readView s).filter fun e => inRange s.flags key rangeEnd e.1).length := by
  simpa using congrArg List.length (hc.map_key_rangeKvs key rangeEnd keysOnly)

/-- **`total_count_in_range` counts what is returned, not what is in range**: in a reachable
state it is `0` with `count_only`, and otherwise the number `N` of live keys in the range when the
limit is `0` or at least `2^32 - 1`, and `min(limit, N)` below that. -/
theorem kvRange_total_count (hs : Reachable s) (key rangeEnd : Bytes) (limit : Int)
    (keysOnly : Bool) :
    (kvRange s key rangeEnd limit keysOnly true).2 = 0 ∧
      (kvRange s key rangeEnd limit keysOnly false).2 =
        if limit = 0 ∨ 4294967295 ≤ limit then
          (((readView s).filter fun e => inRange s.flags key rangeEnd e.1).length : Int)
        else (min limit.toNat ((readView s).filter fun e => inRange s.flags key rangeEnd e.1).length
          : Nat) := by
  have hc := hs.consistent
  refine ⟨by rw [kvRange_countOnly], ?_⟩
  have hlen := hc.length_rangeKvs key rangeEnd keysOnly
  show ((kvRange s key rangeEnd limit keysOnly false).1.length : Int) = _
  rw [hc.kvRange_limit key rangeEnd limit keysOnly]
  split
  · rw [hlen]
  · rw [List.length_take, hlen]

theorem kvRange_total_count_two_keys :
    let s := ApplyStep.run { kvLeaseMap := fun _ => false }
      [.put [1] ⟨1, 0⟩ false 0 false [7], .put [2] ⟨2, 0⟩ false 0 false [8]]
    Reachable s ∧
      (kvRange s [1] [3] 1 false true).2 = 0 ∧
        (kvRange s [1] [3] 1 false false).2 =
          if (1 : Int) = 0 ∨ 4294967295 ≤ (1 : Int) then
            (((readView s).filter fun e => inRange s.flags [1] [3] e.1).length : Int)
          else (min (1 : Int).toNat ((readView s).filter fun e => inRange s.flags [1] [3] e.1).length
            : Nat) := by
  intro s
  have f1 := fresh_init {} (fun _ => false) ⟨1, 0⟩
  have hs : Reachable s := .step (.put [2] ⟨2, 0⟩ false 0 false [8])
    (.step (.put [1] ⟨1, 0⟩ false 0 false [7]) (.init _ _) f1)
    ((consistent_init {} fun _ => false).fresh_put f1
      (by decide : (⟨1, 0⟩ : RevisionInternal) < ⟨2, 0⟩) [1] false 0 false [7])
  exact ⟨hs, kvRange_total_count hs [1] [3] 1 false⟩

/-! ## The raw keys -/

/-- The scan of `KvRangeRawKeys` returns the keys of the selected live part of `readView`. -/
theorem map_id_rangeRawKvIndex (hid : IdsMatch s) (key : Bytes) {rangeEnd : Bytes}
    (hr : rangeEnd ≠ []) :
    (rangeRawKvIndex s key rangeEnd).map (·.id) =
      ((readView s).filter fun e => inRange s.flags key rangeEnd e.1).map Prod.fst := by
  simp only [rangeRawKvIndex, SortedMap.getRangeValues, readView, List.map_map,
    List.filter_filterMap, List.map_filterMap, ← List.filterMap_eq_map, List.filterMap_filter]
  refine List.filterMap_congr fun e he => ?_
  have hid' : e.2.id = e.1 := hid e.1 e.2 (SortedMap.mem_entries.mp he)
  by_cases h2 : e.2.isLive <;> by_cases h0 : rangeEnd = [0] <;>
    simp [h2, h0, hr, hid', inRange, rangeFilter, rangeUpperBound, Option.filter_some,
      and_right_comm]

/-- A live index is read, and what is read is of its key. -/
theorem Consistent.readAt_of_isLive (hc : Consistent s) {key : Bytes} {idx : KvIndexInternal}
    (hget : s.getRawKvIndex key = some idx) (hl : idx.isLive) :
    ∃ kr, readAt s key = some (some kr) ∧ kr.kv.id = key := by
  have he : (key, s.kvRevMap idx.modRevision) ∈ readView s :=
    List.mem_filterMap.mpr ⟨(key, idx), SortedMap.mem_entries.mpr hget, by simp [hl]⟩
  obtain ⟨kr, hkr, hid⟩ := hc.readView_some _ he
  refine ⟨kr, ?_, hid⟩
  rw [readAt, hget, Option.some_bind, readOf, if_pos hl]
  exact congrArg some hkr

/-- **The point lookup of `KvRangeRawKeys` sees tombstones**: in a reachable state,
`KvRangeRawKeys(key, range_end)` returns the keys of `KvRange(key, range_end, 0, true, false)`
exactly when the lookup is a scan, or a point lookup of a key that has no index or a live one.
The scan filters on a live latest generation (`rangeFilter`); the point lookup pushes `key` for any
index `GetRawKvIndex` finds, also one whose latest generation is a tombstone, which `KvRange`
skips. -/
theorem kvRangeRawKeys_eq_kvRange_iff (hs : Reachable s) (key rangeEnd : Bytes) :
    kvRangeRawKeys s key rangeEnd = (kvRange s key rangeEnd 0 true false).1.map (·.kv.key) ↔
      (rangeEnd = [] → ∀ idx, s.getRawKvIndex key = some idx → idx.isLive) := by
  have hc := hs.consistent
  by_cases hr : rangeEnd = []
  · subst hr
    rw [kvRange_point, kvRangeRawKeys, if_pos rfl]
    cases hget : s.getRawKvIndex key with
    | none => rw [readAt, hget]; simp
    | some idx =>
      by_cases hl : idx.isLive
      · obtain ⟨kr, hkr, hid⟩ := hc.readAt_of_isLive hget hl
        simp [hkr, kvOfRev, hid, hl]
      · rw [readAt, hget, Option.some_bind, readOf, if_neg hl]; simp [hl]
  · rw [kvRangeRawKeys, if_neg hr, map_id_rangeRawKvIndex hc.id_eq key hr, hc.kvRange_limit,
      if_pos (.inl rfl), hc.map_key_rangeKvs]
    exact iff_of_true rfl fun h => absurd h hr

/-- Put `[1]` at `(1,0)` and delete it at `(2,0)`: the point lookup of `KvRangeRawKeys` returns
`[1]`, `KvRange` nothing. -/
theorem kvRangeRawKeys_tombstone :
    let s := (kvDeleteApply (kvPutApply { kvLeaseMap := fun _ => false } [1] ⟨1, 0⟩
      false 0 false [7]).2.1 [1] ⟨2, 0⟩).2.1
    (Reachable s ∧ kvRangeRawKeys s [1] [] = [[1]] ∧ (kvRange s [1] [] 0 true false).1 = []) ∧
      (kvRangeRawKeys s [1] [] = (kvRange s [1] [] 0 true false).1.map (·.kv.key) ↔
        ([] = ([] : Bytes) → ∀ idx, s.getRawKvIndex [1] = some idx → idx.isLive)) := by
  intro s
  have f1 := fresh_init {} (fun _ => false) ⟨1, 0⟩
  have hs : Reachable s := .step (.delete [1] ⟨2, 0⟩)
    (.step (.put [1] ⟨1, 0⟩ false 0 false [7]) (.init _ _) f1)
    ((consistent_init {} fun _ => false).fresh_put f1
      (by decide : (⟨1, 0⟩ : RevisionInternal) < ⟨2, 0⟩) [1] false 0 false [7])
  exact ⟨⟨hs, by decide, by decide⟩, kvRangeRawKeys_eq_kvRange_iff hs [1] []⟩

end DingoKv
