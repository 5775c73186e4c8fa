import DingoKv.Invariant

/-!
# What `KvRange` sees across the apply steps

`readAt s k` is what a read of key `k` sees: nothing for a key that is not live, else the
`KvRevInternal` at its `mod_revision`. `readView` is `readAt` over the sorted keys
(`lookup_readView`), so two states with the same `readAt` and flags answer every `KvRange` alike
(`kvRange_congr`). From it:

* `Consistent.readAt_compact`: compaction changes no `readAt`, since it keeps the final revision
  of a live latest generation (`mod_mem_compactSpec`) and erases only its own key's revisions;
  `compaction_preserves_kvRange` over any list of compacted keys.
* `put_then_range`: a put at a fresh revision returns `OK` and a point read then returns the
  written value, lease and revision, the version one past the previous read's (or `1`), and the
  previous read's `create_revision` (or the put's).
* `apply_frame`: each call changes `kv_index_map_` only at its key and `kv_rev_map_` only at the
  revisions it touches, and an unlimited `KvRange` returns the same entries for every other key.
  With a limit it does not (`kvRange_limit_sees_other_key`): a key that becomes live can push
  another key out from under the limit.
-/

namespace DingoKv

/-! ## A read of one key -/

/-- What a read of `k` sees: nothing for a key that is not live, else the `KvRevInternal` at
its `mod_revision`. -/
def readAt (s : KvControl) (k : Bytes) : Option (Option KvRevInternal) :=
  (s.getRawKvIndex k).bind (readOf s)

theorem keySorted_readView (s : KvControl) : KeySorted (readView s) :=
  s.kvIndexMap.sorted.filterMap _ fun a a' h b hb b' hb' => by
    simp only [Option.mem_def, Option.ite_none_right_eq_some, Option.some.injEq] at hb hb'
    rw [← hb.2, ← hb'.2]; exact h

theorem lookup_readView (s : KvControl) (k : Bytes) : lookup (readView s) k = readAt s k := by
  refine Option.ext fun o => ?_
  rw [Option.mem_def, Option.mem_def, ← mem_iff_lookup (keySorted_readView s)]
  simp only [readView, List.mem_filterMap, readAt, Option.bind_eq_some, readOf,
    KvControl.getRawKvIndex_def, ← SortedMap.mem_entries, Prod.exists]
  constructor
  · rintro ⟨k', idx, he, h⟩
    split_ifs at h with hl
    cases h
    exact ⟨idx, he, by simp [hl]⟩
  · rintro ⟨idx, he, h⟩
    split_ifs at h with hl
    cases h
    exact ⟨k, idx, he, by simp [hl]⟩

theorem readView_congr {s s' : KvControl} (h : ∀ k, readAt s k = readAt s' k) :
    readView s = readView s' :=
  eq_of_lookup (keySorted_readView s) (keySorted_readView s') fun k => by
    rw [lookup_readView, lookup_readView, h]

/-- Two states with the same reads and flags answer every `KvRange` alike. -/
theorem kvRange_congr {s s' : KvControl} (hid : IdsMatch s) (hid' : IdsMatch s')
    (hf : s.flags = s'.flags) (h : ∀ k, readAt s k = readAt s' k) (key rangeEnd : Bytes)
    (limit : Int) (keysOnly countOnly : Bool) :
    kvRange s key rangeEnd limit keysOnly countOnly = kvRange s' key rangeEnd limit keysOnly countOnly := by
  rw [kvRange_eq_view hid, kvRange_eq_view hid', hf, readView_congr h]

theorem KvIndexInternal.isLive_iff {idx : KvIndexInternal} :
    idx.isLive ↔ ∃ g ∈ idx.generations.getLast?, g.isLive := by
  unfold KvIndexInternal.isLive
  cases idx.generations.getLast? <;> simp

/-! ## Compaction is invisible to reads -/

theorem compactSpec_eq_nil {R : RevisionInternal} {hist : List Generation} {latest : Generation}
    (h : compactSpec R hist latest = []) : latest.createRevision = none := by
  unfold compactSpec at h
  split_ifs at h with hc
  · simpa using hc.1
  · simp at h

variable {s : KvControl}

/-- The `mod_revision` of a live key is not among the revisions a compaction erases. -/
theorem Consistent.mod_not_mem_deleted (hc : Consistent s) {key : Bytes} {idx : KvIndexInternal}
    (hget : s.getRawKvIndex key = some idx) {hist : List Generation} {latest : Generation}
    (hsplit : idx.generations = hist ++ [latest]) (R : RevisionInternal) {k : Bytes}
    {idx' : KvIndexInternal} (hget' : s.getRawKvIndex k = some idx') (hl : idx'.isLive) :
    idx'.modRevision ∉ compactDeletedSpec R hist latest := by
  intro hd
  obtain ⟨g, hg, hgl⟩ := KvIndexInternal.isLive_iff.mp hl
  have hw' := hc.wellFormed k idx' hget'
  obtain rfl := hc.key_eq_of_mem hget' hget (hw'.mod_mem hg hgl) (mem_allRevisions_of_deleted hsplit hd)
  rw [hget] at hget'
  cases hget'
  have hlatest : g = latest := by simpa [hsplit] using hg.symm
  subst hlatest
  exact not_mem_compactSpec_of_deleted hw' hsplit hd (mod_mem_compactSpec hw' hsplit hgl R)

/-- **Compaction changes no read.** -/
theorem Consistent.readAt_compact (hc : Consistent s) (key : Bytes) (R : RevisionInternal)
    (k : Bytes) : readAt (kvCompactApply s key R).2 k = readAt s k := by
  cases hget : s.getRawKvIndex key with
  | none => simp only [kvCompactApply, hget]
  | some idx =>
    have hw := hc.wellFormed key idx hget
    obtain ⟨hist, latest, hsplit⟩ := exists_split hw.nonempty
    have hmod : ∀ {k' idx'}, s.getRawKvIndex k' = some idx' → idx'.isLive →
        (kvCompactApply s key R).2.kvRevMap idx'.modRevision = s.kvRevMap idx'.modRevision :=
      fun h hl => by
        rw [kvCompactApply_kvRevMap hget hw hsplit, if_neg (hc.mod_not_mem_deleted hget hsplit R h hl)]
    simp only [readAt, kvCompactApply_getRawKvIndex hget hw hsplit]
    split_ifs with hk hne
    · subst hk
      have hnl : ¬ idx.isLive := by
        simp [KvIndexInternal.isLive, hsplit, Generation.isLive, compactSpec_eq_nil hne]
      rw [hget]; simp [readOf, hnl]
    · subst hk
      have hlive : ({ idx with generations := compactSpec R hist latest } : KvIndexInternal).isLive =
          idx.isLive := by
        simp [KvIndexInternal.isLive, hsplit, compactSpec_of_ne_nil hne, compactLatestSpec_isLive]
      rw [hget]
      by_cases hl : idx.isLive
      · simp [readOf, hlive, hl, hmod hget hl]
      · simp [readOf, hlive, hl]
    · cases h : s.getRawKvIndex k with
      | none => rfl
      | some idx' =>
        by_cases hl : idx'.isLive
        · simp [readOf, hl, hmod h hl]
        · simp [readOf, hl]

theorem Consistent.kvRange_compact (hc : Consistent s) (k : Bytes) (R : RevisionInternal)
    (key rangeEnd : Bytes) (limit : Int) (keysOnly countOnly : Bool) :
    kvRange (kvCompactApply s k R).2 key rangeEnd limit keysOnly countOnly =
      kvRange s key rangeEnd limit keysOnly countOnly :=
  kvRange_congr (hc.compact k R).id_eq hc.id_eq (kvCompactApply_flags s k R) (hc.readAt_compact k R)
    key rangeEnd limit keysOnly countOnly

/-- **Compaction never changes what a read returns**: in a reachable state, compacting any list
of keys at `R` leaves every `KvRange` as it was. -/
theorem compaction_preserves_kvRange (hs : Reachable s) (keys : List Bytes) (R : RevisionInternal)
    (key rangeEnd : Bytes) (limit : Int) (keysOnly countOnly : Bool) :
    kvRange (ApplyStep.run s (keys.map (ApplyStep.compact · R))) key rangeEnd limit keysOnly
      countOnly = kvRange s key rangeEnd limit keysOnly countOnly := by
  induction keys generalizing s with
  | nil => rfl
  | cons k ks ih =>
    rw [List.map_cons, ApplyStep.run_cons, ih (.step (.compact k R) hs trivial)]
    exact hs.consistent.kvRange_compact k R key rangeEnd limit keysOnly countOnly

theorem compaction_preserves_kvRange_put_put :
    let s := (kvPutApply (kvPutApply { kvLeaseMap := fun _ => false } [1] ⟨1, 0⟩ false 0 false [7]).2.1
      [1] ⟨2, 0⟩ false 0 false [8]).2.1
    Reachable s ∧ kvRange (ApplyStep.run s ([[1]].map (ApplyStep.compact · ⟨3, 0⟩))) [1] [] 0 false
      false = kvRange s [1] [] 0 false false := by
  intro s
  have f1 := fresh_init {} (fun _ => false) ⟨1, 0⟩
  have f2 := (consistent_init {} fun _ => false).fresh_put f1
    (by decide : (⟨1, 0⟩ : RevisionInternal) < ⟨2, 0⟩) [1] false 0 false [7]
  have hs : Reachable s := .step (.put [1] ⟨2, 0⟩ false 0 false [8])
    (.step (.put [1] ⟨1, 0⟩ false 0 false [7]) (.init _ _) f1) f2
  exact ⟨hs, compaction_preserves_kvRange hs [[1]] ⟨3, 0⟩ [1] [] 0 false false⟩

/-! ## A put, then a read -/

/-- A point read without a limit: the `Kv` of the key's `KvRevInternal`, when the key is live and
the revision stored. -/
theorem kvRange_point (s : KvControl) (key : Bytes) (keysOnly : Bool) :
    kvRange s key [] 0 keysOnly false =
      match readAt s key with
      | some (some kr) => ([kvOfRev kr keysOnly], 1)
      | _ => ([], 0) := by
  simp only [kvRange, kvRangeIndexes, if_true, readAt]
  cases s.getRawKvIndex key with
  | none => rfl
  | some idx =>
    by_cases hl : idx.isLive
    · cases h : s.kvRevMap idx.modRevision <;>
        simp [kvRangeLoop, readOf, hl, h, int64Max, KvControl.getRawKvRev_def]
    · simp [kvRangeLoop, readOf, hl]

theorem putKvIndex_isLive (found : Option KvIndexInternal) (key : Bytes) (op : RevisionInternal) :
    (putKvIndex found key op).kvIndex.isLive := by
  unfold putKvIndex
  split
  · simp [KvIndexInternal.isLive, Generation.start, Generation.isLive]
  · split
    · simp [KvIndexInternal.isLive, Generation.start, Generation.isLive]
    · simp only [KvIndexInternal.isLive, List.getLast?_concat, putGeneration_isLive]

theorem putKvIndex_modRevision (found : Option KvIndexInternal) (key : Bytes)
    (op : RevisionInternal) : (putKvIndex found key op).kvIndex.modRevision = op := by
  unfold putKvIndex; split
  · rfl
  · split <;> rfl

/-- After a successful put, a read of its key sees the `KvRevInternal` it wrote. -/
theorem readAt_kvPutApply {key : Bytes} {op : RevisionInternal} {il : Bool} {lid : Int} {iv : Bool}
    {v : Bytes} (hok : (kvPutApply s key op il lid iv v).1 = .ok) :
    readAt (kvPutApply s key op il lid iv v).2.1 key =
      some (some (putKvRev key op il lid iv v (putKvIndex (s.getRawKvIndex key) key op)
        ((s.getRawKvRev (putKvIndex (s.getRawKvIndex key) key op).lastModRevision).getD {}))) := by
  dsimp only [kvPutApply] at hok ⊢
  split_ifs at hok ⊢
  rw [readAt, getRawKvIndex_write, if_pos rfl, Option.some_bind, readOf, if_pos
    (putKvIndex_isLive _ _ _), putKvIndex_modRevision, kvRevMap_write, if_pos rfl]

/-- The `create_revision` and version a put computes, against a point read before it. -/
theorem Consistent.putKvIndex_prev (hc : Consistent s) (key : Bytes) (op : RevisionInternal) :
    (putKvIndex (s.getRawKvIndex key) key op).newCreateRevision.main =
        ((kvRange s key [] 0 false false).1.head?.map (·.createRevision)).getD op.main ∧
      (putKvIndex (s.getRawKvIndex key) key op).newVersion =
        ((kvRange s key [] 0 false false).1.head?.map (·.version + 1)).getD 1 := by
  rw [kvRange_point]
  unfold readAt
  cases hget : s.getRawKvIndex key with
  | none => exact ⟨rfl, rfl⟩
  | some idx =>
    have hw := hc.wellFormed key idx hget
    obtain ⟨hist, latest, hsplit⟩ := exists_split hw.nonempty
    have hlast : latest ∈ idx.generations.getLast? := by simp [hsplit]
    rw [putKvIndex_some hsplit]
    by_cases ho : latest.createRevision.isSome
    · have hl := hw.isLive_of_open (List.mem_of_getLast?_eq_some hlast) ho
      obtain ⟨kr, h1, h2, h3, h4⟩ := hc.live_rev key idx hget latest hlast hl
      have hil : idx.isLive := KvIndexInternal.isLive_iff.mpr ⟨latest, hlast, hl⟩
      obtain ⟨c, hcr⟩ := Option.isSome_iff_exists.mp ho
      rw [hcr, Option.some.injEq] at h3
      simp [readOf, hil, h1, kvOfRev, putGeneration, hcr, h3, h4]
    · have ht : latest.createRevision = none := by simpa using ho
      have hil : ¬ idx.isLive := by simp [KvIndexInternal.isLive, hsplit, Generation.isLive, ht]
      simp [readOf, hil, putGeneration, ht]

/-- **A put, then a point read**: in a reachable state, a put with lease `0` or a lease in
`kv_lease_map_` returns `OK`, and a point read then returns exactly the written
key, value, lease and revision, with the version one past the previous read's (or `1`) and the
previous read's `create_revision` (or the put's). -/
theorem put_then_range (hs : Reachable s) (op : RevisionInternal) (key value : Bytes) (leaseId : Int) (hL : leaseId = 0 ∨ s.kvLeaseMap leaseId = true) :
    (kvPutApply s key op false leaseId false value).1 = .ok ∧
      kvRange (kvPutApply s key op false leaseId false value).2.1 key [] 0 false false =
        ([{ kv := { key, value }, lease := leaseId, modRevision := op.main,
            createRevision :=
              ((kvRange s key [] 0 false false).1.head?.map (·.createRevision)).getD op.main,
            version := ((kvRange s key [] 0 false false).1.head?.map (·.version + 1)).getD 1 }],
          1) := by
  have hok : (kvPutApply s key op false leaseId false value).1 = .ok := by
    dsimp only [kvPutApply]
    rw [if_neg]
    simp only [putKvRev, Bool.false_eq_true, if_false]
    rintro ⟨h0, h1⟩
    rcases hL with rfl | h
    · exact lt_irrefl 0 h0
    · rw [h] at h1; cases h1
  obtain ⟨hcr, hv⟩ := hs.consistent.putKvIndex_prev key op
  refine ⟨hok, ?_⟩
  rw [kvRange_point, readAt_kvPutApply hok]
  simp [kvOfRev, putKvRev, hcr, hv, -KvControl.getRawKvIndex_def]

theorem put_then_range_second_put :
    let s := (kvPutApply { kvLeaseMap := fun _ => false } [1] ⟨1, 0⟩ false 0 false [7]).2.1
    (Reachable s ∧ ((0 : Int) = 0 ∨ s.kvLeaseMap 0 = true)) ∧
      (kvPutApply s [1] ⟨2, 0⟩ false 0 false [8]).1 = .ok ∧
      kvRange (kvPutApply s [1] ⟨2, 0⟩ false 0 false [8]).2.1 [1] [] 0 false false =
        ([{ kv := { key := [1], value := [8] }, lease := 0, modRevision := 2,
            createRevision := ((kvRange s [1] [] 0 false false).1.head?.map (·.createRevision)).getD 2,
            version := ((kvRange s [1] [] 0 false false).1.head?.map (·.version + 1)).getD 1 }],
          1) := by
  intro s
  have hs : Reachable s := .step (.put [1] ⟨1, 0⟩ false 0 false [7]) (.init _ _) (fresh_init _ _ _)
  exact ⟨⟨hs, .inl rfl⟩, put_then_range hs ⟨2, 0⟩ [1] [8] 0 (.inl rfl)⟩

/-! ## What a call leaves alone -/

/-- The revisions of `kv_rev_map_` a call may change: its op revision, or for a compaction the
revisions of its key's index. -/
def ApplyStep.Touches (s : KvControl) : ApplyStep → RevisionInternal → Prop
  | .put _ op .., r | .delete _ op, r => r = op
  | .compact key _, r => ∃ idx, s.getRawKvIndex key = some idx ∧ r ∈ idx.allRevisions

@[simp] theorem kvPutApply_flags (s : KvControl) (key : Bytes) (op : RevisionInternal) (il : Bool)
    (lid : Int) (iv : Bool) (v : Bytes) : (kvPutApply s key op il lid iv v).2.1.flags = s.flags := by
  rcases kvPutApply_state s key op il lid iv v with h | ⟨_, h⟩ <;> simp [h]

@[simp] theorem kvDeleteApply_flags (s : KvControl) (key : Bytes) (op : RevisionInternal) :
    (kvDeleteApply s key op).2.1.flags = s.flags := by
  rcases kvDeleteApply_state s key op with h | ⟨_, _, h⟩ <;> simp [h]

theorem ApplyStep.apply_flags (st : ApplyStep) (s : KvControl) : (st.apply s).flags = s.flags := by
  cases st <;> simp [ApplyStep.apply]

/-- A read of another key does not see a write at a revision past its `mod_revision`. -/
theorem readAt_write_of_ne {key k : Bytes} (hk : k ≠ key) {op : RevisionInternal}
    (hop : ∀ idx, s.getRawKvIndex k = some idx → idx.modRevision ≠ op) (newIdx : KvIndexInternal)
    (kr : KvRevInternal) : readAt ((s.putRawKvIndex key newIdx).putRawKvRev op kr) k = readAt s k := by
  rw [readAt, getRawKvIndex_write, if_neg hk, readAt]
  cases h : s.getRawKvIndex k with
  | none => rfl
  | some idx => simp [readOf, hop idx h]

/-- **The frame of one call**: the index map changes only at its key, the revision map only at
the revisions it touches, and no read of another key changes. -/
theorem Consistent.step_frame (hc : Consistent s) (st : ApplyStep) (ha : st.Admissible s) :
    (∀ k, k ≠ st.key → (st.apply s).getRawKvIndex k = s.getRawKvIndex k) ∧
      (∀ r, ¬ st.Touches s r → (st.apply s).kvRevMap r = s.kvRevMap r) ∧
      ∀ k, k ≠ st.key → readAt (st.apply s) k = readAt s k := by
  have hmod : ∀ {op : RevisionInternal}, Fresh s op → ∀ k idx, s.getRawKvIndex k = some idx →
      idx.modRevision ≠ op := fun hf k idx h => (hf.2 k idx h).1.ne
  cases st with
  | put key op il lid iv v =>
    rcases kvPutApply_state s key op il lid iv v with h | ⟨_, h⟩ <;>
      simp only [ApplyStep.apply, ApplyStep.key, ApplyStep.Touches, h]
    · simp
    · exact ⟨fun k hk => by simp [hk], fun r hr => by simp [hr],
        fun k hk => readAt_write_of_ne hk (hmod ha k) _ _⟩
  | delete key op =>
    rcases kvDeleteApply_state s key op with h | ⟨_, _, h⟩ <;>
      simp only [ApplyStep.apply, ApplyStep.key, ApplyStep.Touches, h]
    · simp
    · exact ⟨fun k hk => by simp [hk], fun r hr => by simp [hr],
        fun k hk => readAt_write_of_ne hk (hmod ha k) _ _⟩
  | compact key R =>
    simp only [ApplyStep.apply, ApplyStep.key, ApplyStep.Touches, not_exists, not_and]
    refine ⟨fun k hk => ?_, fun r hr => kvCompactApply_kvRevMap_of_not_mem (hc.wellFormed key) R hr,
      fun k _ => hc.readAt_compact key R k⟩
    cases hget : s.getRawKvIndex key with
    | none => simp only [kvCompactApply, hget]
    | some idx =>
      obtain ⟨hist, latest, hsplit⟩ := exists_split (hc.wellFormed key idx hget).nonempty
      rw [kvCompactApply_getRawKvIndex hget (hc.wellFormed key idx hget) hsplit, if_neg hk]

/-! ## What a read of other keys returns -/

/-- A limit of at least `2^32 - 1` never stops the loop of `KvRange`: its `uint32_t` count
never passes it. -/
theorem viewLoop_wide {limit : Int} (hl : 4294967295 ≤ limit) (keysOnly countOnly : Bool)
    (os : List (Option KvRevInternal)) (n : UInt32) (acc : List Kv) :
    viewLoop limit keysOnly countOnly os n acc =
      acc ++ if countOnly then [] else os.filterMap (Option.map (kvOfRev · keysOnly)) := by
  induction os generalizing n acc with
  | nil => cases countOnly <;> simp [viewLoop]
  | cons o rest ih =>
    have hlim : ¬ limit < (n + 1).toNat := by
      have h := UInt32.toNat_lt_size (n + 1)
      have : UInt32.size = 4294967296 := rfl
      omega
    cases countOnly <;> cases o <;> simp [viewLoop, hlim, ih]

/-- Without a limit the loop of `KvRange` never stops early. -/
theorem viewLoop_unbounded (keysOnly countOnly : Bool) (os : List (Option KvRevInternal))
    (n : UInt32) (acc : List Kv) :
    viewLoop int64Max keysOnly countOnly os n acc =
      acc ++ if countOnly then [] else os.filterMap (Option.map (kvOfRev · keysOnly)) :=
  viewLoop_wide (by unfold int64Max; omega) keysOnly countOnly os n acc

/-- The entries of other keys in a list of read keys, as `KvRange` returns them. -/
theorem filter_filterMap_kvOfRev {V : List (Bytes × Option KvRevInternal)}
    (hV : ∀ e ∈ V, ∀ kr ∈ e.2, kr.kv.id = e.1) (keysOnly : Bool) (key : Bytes) :
    (V.filterMap fun e => e.2.map (kvOfRev · keysOnly)).filter (·.kv.key ≠ key) =
      (V.filter (·.1 ≠ key)).filterMap fun e => e.2.map (kvOfRev · keysOnly) := by
  induction V with
  | nil => rfl
  | cons e rest ih =>
    replace ih := ih fun e' he' => hV e' (List.mem_cons_of_mem _ he')
    obtain ⟨k, o⟩ := e
    cases o with
    | none => by_cases hk : k = key <;> simpa [List.filter_cons, hk] using ih
    | some kr =>
      have hid : kr.kv.id = k := hV _ (List.mem_cons_self _ _) kr rfl
      by_cases hk : k = key <;> simpa [List.filter_cons, kvOfRev, hk, hid] using ih

/-- In a consistent state each read `KvRevInternal` carries its key. -/
theorem Consistent.readView_ids (hc : Consistent s) :
    ∀ e ∈ readView s, ∀ kr ∈ e.2, kr.kv.id = e.1 := by
  intro e he kr hkr
  obtain ⟨⟨k, idx⟩, hm, h⟩ := List.mem_filterMap.mp he
  have hget : s.getRawKvIndex k = some idx := SortedMap.mem_entries.mp hm
  split_ifs at h with hl
  cases h
  obtain ⟨g, hg, hgl⟩ := KvIndexInternal.isLive_iff.mp hl
  obtain ⟨kr', h1, h2⟩ :=
    hc.rev_of_index k idx hget _ ((hc.wellFormed k idx hget).mod_mem hg hgl)
  rw [Option.mem_def, h1, Option.some.injEq] at hkr
  exact hkr ▸ h2

/-- `KvRange` without a limit: the `Kv` of every selected live key, in key order. -/
theorem kvRange_unbounded (hid : IdsMatch s) (start rangeEnd : Bytes) (keysOnly countOnly : Bool) :
    (kvRange s start rangeEnd 0 keysOnly countOnly).1 =
      if countOnly then []
      else ((readView s).filter fun e => inRange s.flags start rangeEnd e.1).filterMap
        fun e => e.2.map (kvOfRev · keysOnly) := by
  rw [kvRange_eq_view hid]
  simp only [kvRangeView, if_pos, viewLoop_unbounded, List.nil_append, List.filterMap_map]
  rfl

/-- Two consistent states with the same flags and the same reads off `key` return the same
entries for every other key from every `KvRange` without a limit. -/
theorem kvRange_filter_congr {s s' : KvControl} (hc : Consistent s) (hc' : Consistent s')
    (hf : s.flags = s'.flags) {key : Bytes} (h : ∀ k, k ≠ key → readAt s k = readAt s' k)
    (start rangeEnd : Bytes) (keysOnly countOnly : Bool) :
    (kvRange s start rangeEnd 0 keysOnly countOnly).1.filter (·.kv.key ≠ key) =
      (kvRange s' start rangeEnd 0 keysOnly countOnly).1.filter (·.kv.key ≠ key) := by
  have hview : (readView s).filter (·.1 ≠ key) = (readView s').filter (·.1 ≠ key) :=
    eq_of_lookup ((keySorted_readView s).sublist (List.filter_sublist _))
      ((keySorted_readView s').sublist (List.filter_sublist _)) fun k => by
        rw [lookup_filter_ne, lookup_filter_ne]
        split_ifs with hk
        · rfl
        · rw [lookup_readView, lookup_readView, h k hk]
  have hsub : ∀ {t : KvControl}, Consistent t → ∀ e ∈ (readView t).filter
      (fun e => inRange s'.flags start rangeEnd e.1), ∀ kr ∈ e.2, kr.kv.id = e.1 :=
    fun ht e he => ht.readView_ids e (List.mem_of_mem_filter he)
  have hcomm : ∀ l : List (Bytes × Option KvRevInternal),
      (l.filter fun e => inRange s'.flags start rangeEnd e.1).filter (·.1 ≠ key) =
        (l.filter (·.1 ≠ key)).filter fun e => inRange s'.flags start rangeEnd e.1 := fun l => by
    rw [List.filter_filter, List.filter_filter]
    congr 1; funext e; exact Bool.and_comm _ _
  rw [kvRange_unbounded hc.id_eq, kvRange_unbounded hc'.id_eq, hf]
  cases countOnly
  · rw [if_neg Bool.false_ne_true, if_neg Bool.false_ne_true, filter_filterMap_kvOfRev (hsub hc),
      filter_filterMap_kvOfRev (hsub hc'), hcomm, hcomm, hview]
  · rfl

/-- **Isolation between keys**: in a reachable state an admissible call changes the index map only
at its key and the revision map only at the revisions it touches, and every `KvRange` without a
limit returns the same entries for every other key. -/
theorem apply_frame (hs : Reachable s) (st : ApplyStep) (ha : st.Admissible s) :
    (∀ k, k ≠ st.key → (st.apply s).getRawKvIndex k = s.getRawKvIndex k) ∧
      (∀ r, ¬ st.Touches s r → (st.apply s).kvRevMap r = s.kvRevMap r) ∧
      ∀ start rangeEnd keysOnly countOnly,
        (kvRange (st.apply s) start rangeEnd 0 keysOnly countOnly).1.filter (·.kv.key ≠ st.key) =
          (kvRange s start rangeEnd 0 keysOnly countOnly).1.filter (·.kv.key ≠ st.key) := by
  have hc := hs.consistent
  obtain ⟨h1, h2, h3⟩ := hc.step_frame st ha
  exact ⟨h1, h2, kvRange_filter_congr (hc.step st ha) hc (st.apply_flags s) h3⟩

theorem apply_frame_put :
    let s := (kvPutApply { kvLeaseMap := fun _ => false } [2] ⟨1, 0⟩ false 0 false [7]).2.1
    let st := ApplyStep.put [1] ⟨2, 0⟩ false 0 false [8]
    (Reachable s ∧ st.Admissible s) ∧
      (∀ k, k ≠ st.key → (st.apply s).getRawKvIndex k = s.getRawKvIndex k) ∧
      (∀ r, ¬ st.Touches s r → (st.apply s).kvRevMap r = s.kvRevMap r) ∧
      ∀ start rangeEnd keysOnly countOnly,
        (kvRange (st.apply s) start rangeEnd 0 keysOnly countOnly).1.filter (·.kv.key ≠ st.key) =
          (kvRange s start rangeEnd 0 keysOnly countOnly).1.filter (·.kv.key ≠ st.key) := by
  intro s st
  have f1 := fresh_init {} (fun _ => false) ⟨1, 0⟩
  have hs : Reachable s := .step (.put [2] ⟨1, 0⟩ false 0 false [7]) (.init _ _) f1
  have ha : st.Admissible s := (consistent_init {} fun _ => false).fresh_put f1
    (by decide : (⟨1, 0⟩ : RevisionInternal) < ⟨2, 0⟩) [2] false 0 false [7]
  exact ⟨⟨hs, ha⟩, apply_frame hs st ha⟩

/-- With a limit the frame fails: after `[2]` is put, a put of `[1]` changes what
`KvRange([1], [3], limit 1)` returns for `[2]`, which the limit now leaves out. -/
theorem kvRange_limit_sees_other_key :
    let s := (kvPutApply { kvLeaseMap := fun _ => false } [2] ⟨1, 0⟩ false 0 false [7]).2.1
    (Reachable s ∧ Fresh s ⟨2, 0⟩) ∧
      (kvRange (kvPutApply s [1] ⟨2, 0⟩ false 0 false [8]).2.1 [1] [3] 1 false false).1.filter
          (·.kv.key ≠ [1]) ≠ (kvRange s [1] [3] 1 false false).1.filter (·.kv.key ≠ [1]) := by
  intro s
  have f1 := fresh_init {} (fun _ => false) ⟨1, 0⟩
  exact ⟨⟨.step (.put [2] ⟨1, 0⟩ false 0 false [7]) (.init _ _) f1,
    (consistent_init {} fun _ => false).fresh_put f1
      (by decide : (⟨1, 0⟩ : RevisionInternal) < ⟨2, 0⟩) [2] false 0 false [7]⟩, by decide⟩

end DingoKv
