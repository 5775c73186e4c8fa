import DingoKv.Control

/-!
# The read path: `RangeRawKvIndex`, `KvRange`, `KvRangeRawKeys`

* `rangeRawKvIndex` (`kv_control_kv.cc:82-122`): the scan of `kv_index_map_` over
  `[key, upper)` where `upper` is `max_kv_key_size` bytes `0xFF` for the one-byte `range_end`
  `"\0"`, `PrefixNext(key)` for an empty one, `range_end` otherwise; the predicate keeps live
  indexes whose `id` is in the requested range.
* `kvRange` (`kv_control_kv.cc:201-284`): a point `GetRawKvIndex` for an empty `range_end`, the
  scan otherwise; then the loop `kvRangeLoop` over the found indexes, skipping those whose latest
  generation is not live, counting the others in the `uint32_t` `limit_count` and stopping when
  it passes `limit` (`0` is `INT64_MAX`), and, unless `count_only`, reading the `KvRevInternal` at
  each `mod_revision`. `total_count_in_range` is the length of the returned list. The returned
  status is always `OK` here: `GetRangeValues` does not fail. `kvRange` starts from the empty
  vector and `0` that every caller passes; `kvRangeOut` takes the caller's `kv` and
  `total_count_in_range`, and `kvRangeOut_nil` says the two agree there.
* `kvRangeRawKeys` (`kv_control_kv.cc:292-321`).

## What a read sees

`readView s` lists, in key order, each live key with the `KvRevInternal` at its
`mod_revision`. `kvRange_eq_view`: when every index's `id` is its key, `KvRange` is a function of
`readView` and the flags alone. The theorems that a step leaves reads unchanged are proved on
`readView`.
-/

namespace DingoKv

/-- A latest generation `KvRange` reads: it has a `create_revision` and revisions. -/
def Generation.isLive (g : Generation) : Bool := g.createRevision.isSome && !g.revisions.isEmpty

/-- The key of the index has a value: its latest generation is live. -/
def KvIndexInternal.isLive (kvIndex : KvIndexInternal) : Bool :=
  match kvIndex.generations.getLast? with
  | some latest => latest.isLive
  | none => false

/-- Modelled from the spec: `Helper::PrefixNext` ("if `range_end` is empty, the lookup is a point
get of `key` only"), the same-length big-endian successor of `key`. Its code is not in the
sources, and no caller of `RangeRawKvIndex` here passes an empty `range_end`. -/
def prefixNext (key : Bytes) : Bytes :=
  (key.foldr (fun b (acc : Bytes × Bool) =>
    if acc.2 then (if b = 255 then (0 :: acc.1, true) else ((b + 1) :: acc.1, false))
    else (b :: acc.1, false)) ([], true)).1

/-- The predicate `RangeRawKvIndex` hands to `GetRangeValues` (`kv_control_kv.cc:96-114`). -/
def rangeFilter (key rangeEnd : Bytes) (versionKv : KvIndexInternal) : Bool :=
  versionKv.isLive &&
    if rangeEnd = [] then key == versionKv.id
    else if rangeEnd = [0] then decide (key ≤ versionKv.id)
    else decide (key ≤ versionKv.id) && decide (versionKv.id < rangeEnd)

/-- The upper bound of the scan (`kv_control_kv.cc:85-92`). -/
def rangeUpperBound (flags : Flags) (key rangeEnd : Bytes) : Bytes :=
  if rangeEnd = [0] then List.replicate flags.maxKvKeySize 255
  else if rangeEnd = [] then prefixNext key
  else rangeEnd

/-- `KvControl::RangeRawKvIndex`. -/
def rangeRawKvIndex (s : KvControl) (key rangeEnd : Bytes) : List KvIndexInternal :=
  s.kvIndexMap.getRangeValues key (rangeUpperBound s.flags key rangeEnd) (rangeFilter key rangeEnd)

/-- The `Kv` built from a `KvRevInternal` (`kv_control_kv.cc:260-269`). -/
def kvOfRev (kvRev : KvRevInternal) (keysOnly : Bool) : Kv :=
  { createRevision := kvRev.kv.createRevision.main, modRevision := kvRev.kv.modRevision.main,
    version := kvRev.kv.version, lease := kvRev.kv.lease,
    kv := { key := kvRev.kv.id, value := if keysOnly then [] else kvRev.kv.value } }

/-- The loop of `KvRange` (`kv_control_kv.cc:230-275`); `limitCount` is the `uint32_t`
`limit_count`, compared with the `int64_t` `limit` as an integer. -/
def kvRangeLoop (s : KvControl) (limit : Int) (keysOnly countOnly : Bool) :
    List KvIndexInternal → UInt32 → List Kv → List Kv
  | [], _, kv => kv
  | kvIndexValue :: rest, limitCount, kv =>
    if !kvIndexValue.isLive then kvRangeLoop s limit keysOnly countOnly rest limitCount kv
    else if limit < (limitCount + 1).toNat then kv
    else if countOnly then kvRangeLoop s limit keysOnly countOnly rest (limitCount + 1) kv
    else
      match s.getRawKvRev kvIndexValue.modRevision with
      | none => kvRangeLoop s limit keysOnly countOnly rest (limitCount + 1) kv
      | some kvRev =>
        kvRangeLoop s limit keysOnly countOnly rest (limitCount + 1) (kv ++ [kvOfRev kvRev keysOnly])

/-- The indexes `KvRange` loops over: the point lookup, or the scan. -/
def kvRangeIndexes (s : KvControl) (key rangeEnd : Bytes) : List KvIndexInternal :=
  if rangeEnd = [] then (s.getRawKvIndex key).toList else rangeRawKvIndex s key rangeEnd

/-- `KvControl::KvRange`: the returned `Kv`s and `total_count_in_range`. -/
def kvRange (s : KvControl) (key rangeEnd : Bytes) (limit : Int) (keysOnly countOnly : Bool) :
    List Kv × Int :=
  let kv := kvRangeLoop s (if limit = 0 then int64Max else limit) keysOnly countOnly
    (kvRangeIndexes s key rangeEnd) 0 []
  (kv, kv.length)

/-- `KvControl::KvRange` with its out-parameters as the caller hands them in: the `Kv`s are
appended to `kv`, and `total_count_in_range` is set to the size of `kv` after the loop, except
when the point lookup finds no index: the call then returns `OK` at `kv_control_kv.cc:217` and
touches neither. -/
def kvRangeOut (s : KvControl) (key rangeEnd : Bytes) (limit : Int) (keysOnly countOnly : Bool)
    (kv : List Kv) (totalCountInRange : Int) : List Kv × Int :=
  if rangeEnd = [] ∧ s.getRawKvIndex key = none then (kv, totalCountInRange)
  else
    let kv := kvRangeLoop s (if limit = 0 then int64Max else limit) keysOnly countOnly
      (kvRangeIndexes s key rangeEnd) 0 kv
    (kv, kv.length)

/-- `KvControl::KvRangeRawKeys`. -/
def kvRangeRawKeys (s : KvControl) (key rangeEnd : Bytes) : List Bytes :=
  if rangeEnd = [] then (if (s.getRawKvIndex key).isSome then [key] else [])
  else (rangeRawKvIndex s key rangeEnd).map (·.id)

/-! ## What a read sees -/

/-- Each live key, in key order, with the `KvRevInternal` at its `mod_revision`. -/
def readView (s : KvControl) : List (Bytes × Option KvRevInternal) :=
  s.kvIndexMap.entries.filterMap fun e =>
    if e.2.isLive then some (e.1, s.kvRevMap e.2.modRevision) else none

/-- Whether `KvRange(key, range_end)` selects the key `id`. -/
def inRange (flags : Flags) (key rangeEnd id : Bytes) : Bool :=
  if rangeEnd = [] then id == key
  else decide (key ≤ id) && decide (id < rangeUpperBound flags key rangeEnd) &&
    (rangeEnd == [0] || decide (id < rangeEnd))

/-- The loop of `KvRange` over what it reads of each live key. -/
def viewLoop (limit : Int) (keysOnly countOnly : Bool) :
    List (Option KvRevInternal) → UInt32 → List Kv → List Kv
  | [], _, kv => kv
  | o :: rest, limitCount, kv =>
    if limit < (limitCount + 1).toNat then kv
    else if countOnly then viewLoop limit keysOnly countOnly rest (limitCount + 1) kv
    else
      match o with
      | none => viewLoop limit keysOnly countOnly rest (limitCount + 1) kv
      | some kvRev =>
        viewLoop limit keysOnly countOnly rest (limitCount + 1) (kv ++ [kvOfRev kvRev keysOnly])

/-- `KvRange` computed from `readView`. -/
def kvRangeView (flags : Flags) (view : List (Bytes × Option KvRevInternal)) (key rangeEnd : Bytes)
    (limit : Int) (keysOnly countOnly : Bool) : List Kv × Int :=
  let kv := viewLoop (if limit = 0 then int64Max else limit) keysOnly countOnly
    ((view.filter fun e => inRange flags key rangeEnd e.1).map Prod.snd) 0 []
  (kv, kv.length)

/-- Every stored index carries its own key as `id`. -/
def IdsMatch (s : KvControl) : Prop := ∀ k idx, s.getRawKvIndex k = some idx → idx.id = k

/-- What the loop reads of an index. -/
def readOf (s : KvControl) (idx : KvIndexInternal) : Option (Option KvRevInternal) :=
  if idx.isLive then some (s.kvRevMap idx.modRevision) else none

theorem kvRangeLoop_eq_viewLoop (s : KvControl) (limit : Int) (keysOnly countOnly : Bool)
    (idxs : List KvIndexInternal) (limitCount : UInt32) (kv : List Kv) :
    kvRangeLoop s limit keysOnly countOnly idxs limitCount kv =
      viewLoop limit keysOnly countOnly (idxs.filterMap (readOf s)) limitCount kv := by
  induction idxs generalizing limitCount kv with
  | nil => rfl
  | cons idx rest ih =>
    by_cases hl : idx.isLive
    · simp only [kvRangeLoop, hl, readOf, List.filterMap_cons, viewLoop, ih, Bool.not_true,
        Bool.false_eq_true, if_false, if_true, KvControl.getRawKvRev_def]
    · simp [kvRangeLoop, hl, readOf, ih]

/-- The indexes `KvRange` loops over, read, are the selected part of `readView`. -/
theorem filterMap_kvRangeIndexes {s : KvControl} (hid : IdsMatch s) (key rangeEnd : Bytes) :
    (kvRangeIndexes s key rangeEnd).filterMap (readOf s) =
      ((readView s).filter fun e => inRange s.flags key rangeEnd e.1).map Prod.snd := by
  simp only [readView, List.filter_filterMap, List.map_filterMap]
  by_cases hr : rangeEnd = []
  · have hsel : ∀ e : Bytes × KvIndexInternal,
        ((if e.2.isLive then some (e.1, s.kvRevMap e.2.modRevision) else none).filter
          (fun e => inRange s.flags key rangeEnd e.1)).map Prod.snd =
        if decide (e.1 = key) then readOf s e.2 else none := fun e => by
      by_cases h1 : e.1 = key <;> by_cases h2 : e.2.isLive <;>
        simp [h1, h2, hr, inRange, readOf, Option.filter_some]
    rw [List.filterMap_congr fun e _ => hsel e, ← List.filterMap_filter,
      SortedMap.filter_entries_key, List.filterMap_map]
    simp [kvRangeIndexes, hr, Function.comp_def]
  · simp only [kvRangeIndexes, hr, if_false, rangeRawKvIndex, SortedMap.getRangeValues,
      List.filterMap_map, List.filterMap_filter]
    refine List.filterMap_congr fun e he => ?_
    have hid' : e.2.id = e.1 := hid e.1 e.2 (SortedMap.mem_entries.mp he)
    by_cases h2 : e.2.isLive <;> by_cases h0 : rangeEnd = [0] <;>
      simp [h2, h0, hr, hid', inRange, rangeFilter, readOf, rangeUpperBound, Option.filter_some,
        and_right_comm]

/-! ## The out-parameters of `KvRange` -/

/-- The loop only appends to the vector it is handed. -/
theorem kvRangeLoop_append (s : KvControl) (limit : Int) (keysOnly countOnly : Bool)
    (idxs : List KvIndexInternal) (limitCount : UInt32) (acc : List Kv) :
    kvRangeLoop s limit keysOnly countOnly idxs limitCount acc =
      acc ++ kvRangeLoop s limit keysOnly countOnly idxs limitCount [] := by
  induction idxs generalizing limitCount acc with
  | nil => simp [kvRangeLoop]
  | cons idx rest ih =>
    simp only [kvRangeLoop]
    split_ifs
    · exact ih _ _
    · simp
    · exact ih _ _
    · split
      · exact ih _ _
      · rw [ih, ih _ ([] ++ _), List.nil_append, List.append_assoc]

/-- **A call on a non-empty vector**: `KvRange` appends to the caller's `kv` what it returns on
an empty one, and sets `total_count_in_range` to the size of the whole vector, the caller's
entries included; a point lookup that finds no index leaves both as they were. -/
theorem kvRangeOut_eq (s : KvControl) (key rangeEnd : Bytes) (limit : Int)
    (keysOnly countOnly : Bool) (kv : List Kv) (totalCountInRange : Int) :
    kvRangeOut s key rangeEnd limit keysOnly countOnly kv totalCountInRange =
      if rangeEnd = [] ∧ s.getRawKvIndex key = none then (kv, totalCountInRange)
      else (kv ++ (kvRange s key rangeEnd limit keysOnly countOnly).1,
        kv.length + (kvRange s key rangeEnd limit keysOnly countOnly).2) := by
  unfold kvRangeOut kvRange
  split
  · rfl
  · simp only [kvRangeLoop_append _ _ _ _ _ _ kv, List.length_append, Nat.cast_add]

/-- **`kvRange` is the call every caller makes**: with an empty vector and `0` (as every caller
in the sources passes them), `KvRange` returns `kvRange`, also when the point lookup finds no
index. -/
theorem kvRangeOut_nil (s : KvControl) (key rangeEnd : Bytes) (limit : Int)
    (keysOnly countOnly : Bool) :
    kvRangeOut s key rangeEnd limit keysOnly countOnly [] 0 =
      kvRange s key rangeEnd limit keysOnly countOnly := by
  rw [kvRangeOut_eq]
  split
  · next h =>
    have hnil : kvRangeIndexes s key rangeEnd = [] := by rw [kvRangeIndexes, if_pos h.1, h.2]; rfl
    simp [kvRange, hnil, kvRangeLoop]
  · simp

/-- **`KvRange` reads only `readView`** and the flags, when every index carries its own key. -/
theorem kvRange_eq_view {s : KvControl} (hid : IdsMatch s) (key rangeEnd : Bytes) (limit : Int)
    (keysOnly countOnly : Bool) :
    kvRange s key rangeEnd limit keysOnly countOnly =
      kvRangeView s.flags (readView s) key rangeEnd limit keysOnly countOnly := by
  simp only [kvRange, kvRangeView, kvRangeLoop_eq_viewLoop, filterMap_kvRangeIndexes hid]

end DingoKv
