import DingoKv.Read

/-!
# Compaction: one index, and the task over all keys

`KvCompactApply` (`kv_control_kv.cc:914-1027`) replaces one index; `CompactionTask`
(`kv_control_kv.cc:819-876`) batches every key of `kv_index_map_` into `KvCompact` calls
(`kv_control_kv.cc:880-912`), whose `KV_INDEX_EVENT_TYPE_COMPACTION` entries are applied as
`KvCompactApply` calls.

* `kvCompactApply_replaces_index`: on an index whose history generations are live, whose latest
  generation is live or a tombstone, and whose revisions strictly increase, `KvCompactApply` keeps
  exactly the revisions with `main >= R.main` and the final revision of an open latest generation
  (`compactKeeps`), keeps a generation with its `create_revision` and version iff it keeps one of
  its revisions, a trailing tombstone iff an earlier generation is kept (`compactSpec`), leaves
  `id` and `mod_revision`, erases the index iff nothing is kept, and erases from `kv_rev_map_`
  exactly the revisions it does not keep.
* `compactionTask_batches`: the batches `CompactionTask` hands to `KvCompact` have 1 to 50 keys
  and come in key order, but they skip every key at a position `50 + 51 * j` of `GetAllKeys`:
  when a batch is full the key in hand flushes it and is never added to the next one
  (`compactionBatches`). Those keys are never compacted by the task.
* `compactionTask_getRawKvIndex`: applying every call the task submits leaves the index of each
  key in its batches as one `KvCompactApply` of that key from the starting state would, whatever
  the other keys and the order, and the index of every other key as it was. With
  `compactionTask_batches`, the keys at positions `50 + 51 * j` keep all their revisions.
-/

namespace DingoKv

/-! ## One index -/

/-- Whether compaction at `R` keeps the revision `r` of an index whose latest generation is
`latest`: `r.main >= R.main`, or `r` is the final revision of an open latest generation. -/
def compactKeeps (R : RevisionInternal) (latest : Generation) (r : RevisionInternal) : Bool :=
  !below R r || latest.createRevision.isSome && decide (latest.revisions.getLast? = some r)

section Keeps

variable {R : RevisionInternal} {hist : List Generation} {latest : Generation}

theorem flatMap_filterMap_compactHistorySpec (R : RevisionInternal) (hist : List Generation) :
    (hist.filterMap (compactHistorySpec R)).flatMap (·.revisions) =
      (hist.flatMap (·.revisions)).filter fun r => !below R r := by
  induction hist with
  | nil => rfl
  | cons g gs ih =>
    rw [List.flatMap_cons, List.filter_append, ← ih, List.filterMap_cons]
    cases hg : compactHistorySpec R g with
    | none =>
      have : g.revisions.filter (fun r => !below R r) = [] := by
        by_contra hne; simp [compactHistorySpec, hne] at hg
      rw [this, List.nil_append]
    | some g' =>
      rw [(compactHistorySpec_eq_some hg).1, List.flatMap_cons]

/-- A history revision is kept iff it is at or after the cut: the final revision of the latest
generation comes after it. -/
theorem compactKeeps_of_hist (hs : (hist.flatMap (·.revisions) ++ latest.revisions).Sorted (· < ·))
    {r : RevisionInternal} (hr : r ∈ hist.flatMap (·.revisions)) :
    compactKeeps R latest r = !below R r := by
  have hne : latest.revisions.getLast? ≠ some r := fun h =>
    lt_irrefl r ((List.pairwise_append.mp hs).2.2 r hr r (List.mem_of_getLast?_eq_some h))
  simp [compactKeeps, hne]

theorem filter_compactKeeps_hist (hs : (hist.flatMap (·.revisions) ++ latest.revisions).Sorted (· < ·))
    (p : Bool → Bool) :
    (hist.flatMap (·.revisions)).filter (fun r => p (compactKeeps R latest r)) =
      (hist.flatMap (·.revisions)).filter fun r => p (!below R r) :=
  List.filter_congr fun r hr => by rw [compactKeeps_of_hist hs hr]

/-- An open latest generation keeps its revisions at or after the cut and its final one. -/
theorem filter_compactKeeps_latest (hs : latest.revisions.Sorted (· < ·))
    (ho : latest.createRevision.isSome) (p : Bool → Bool) :
    latest.revisions.filter (fun r => p (compactKeeps R latest r)) =
      latest.revisions.dropLast.filter (fun r => p (!below R r)) ++
        latest.revisions.getLast?.toList.filter fun _ => p true := by
  conv_lhs => rw [← dropLast_append_getLast?_toList latest.revisions]
  rw [List.filter_append]
  congr 1
  · refine List.filter_congr fun r hr => ?_
    cases hl : latest.revisions.getLast? with
    | none => simp [compactKeeps, hl]
    | some y =>
      have hne : y ≠ r := (lt_of_mem_dropLast hs hr hl).ne'
      simp [compactKeeps, hl, hne]
  · refine List.filter_congr fun r hr => ?_
    simp [compactKeeps, ho, Option.mem_def.mp (Option.mem_toList.mp hr)]

/-- **What compaction keeps**: the filter's generations hold exactly the revisions
`compactKeeps` keeps. -/
theorem compactSpec_revisions (hlat : latest.isLive ∨ latest.IsTombstone)
    (hs : (hist.flatMap (·.revisions) ++ latest.revisions).Sorted (· < ·)) :
    (compactSpec R hist latest).flatMap (·.revisions) =
      (hist.flatMap (·.revisions) ++ latest.revisions).filter (compactKeeps R latest) := by
  have hs' := List.pairwise_append.mp hs
  have hhist := filter_compactKeeps_hist (R := R) hs id
  simp only [id] at hhist
  rw [List.filter_append, hhist, ← flatMap_filterMap_compactHistorySpec]
  by_cases hne : compactSpec R hist latest = []
  · obtain ⟨hc, hh⟩ : latest.createRevision.isNone ∧ hist.filterMap (compactHistorySpec R) = [] := by
      unfold compactSpec at hne
      split_ifs at hne with h
      · exact h
      · simp at hne
    have hrev : latest.revisions = [] := by
      rcases hlat with hl | ht
      · simp [Generation.isLive, Option.isNone_iff_eq_none.mp hc] at hl
      · exact ht.2
    simp [hne, hh, hrev]
  · rw [compactSpec_of_ne_nil hne, List.flatMap_append, List.flatMap_singleton]
    congr 1
    unfold compactLatestSpec
    split
    · rename_i ho
      have hlast := filter_compactKeeps_latest (R := R) hs'.2.1 ho id
      simp only [id] at hlast
      simp [hlast]
    · rename_i ho
      have hrev : latest.revisions = [] := by
        rcases hlat with hl | ht
        · simp [Generation.isLive, ho] at hl
        · exact ht.2
      simp [hrev]

/-- **What compaction erases**: the revisions `compactKeeps` does not keep. -/
theorem compactDeletedSpec_eq (hlat : latest.isLive ∨ latest.IsTombstone)
    (hs : (hist.flatMap (·.revisions) ++ latest.revisions).Sorted (· < ·)) :
    compactDeletedSpec R hist latest =
      (hist.flatMap (·.revisions) ++ latest.revisions).filter fun r => !compactKeeps R latest r := by
  have hs' := List.pairwise_append.mp hs
  rw [compactDeletedSpec, List.filter_append, filter_compactKeeps_hist hs, ← List.filter_flatMap]
  simp only [Bool.not_not]
  congr 1
  split
  · rename_i ho
    rw [filter_compactKeeps_latest hs'.2.1 ho]
    simp
  · rename_i ho
    have hrev : latest.revisions = [] := by
      rcases hlat with hl | ht
      · simp [Generation.isLive, ho] at hl
      · exact ht.2
    simp [hrev]

end Keeps

/-- **`KvCompactApply` replaces an index as the spec says**: on an index whose history
generations are live, whose latest generation is live or a tombstone, and whose revisions
strictly increase, compaction at `R` succeeds; the index becomes `compactSpec` (each generation
keeping its `create_revision` and version, a history generation dropped when it keeps nothing, a
trailing tombstone kept iff an earlier generation is), with `id` and `mod_revision` unchanged, and
is erased iff no generation is kept; the revisions kept are exactly those `compactKeeps` keeps;
and exactly the old index's revisions not kept are erased from `kv_rev_map_`. -/
theorem kvCompactApply_replaces_index {s : KvControl} {key : Bytes} {idx : KvIndexInternal}
    (hget : s.getRawKvIndex key = some idx) {hist : List Generation} {latest : Generation}
    (hsplit : idx.generations = hist ++ [latest]) (hl : ∀ g ∈ hist, g.isLive)
    (hlat : latest.isLive ∨ latest.IsTombstone) (hs : idx.allRevisions.Sorted (· < ·))
    (R : RevisionInternal) :
    (kvCompactApply s key R).1 = .ok ∧
      (kvCompactApply s key R).2.getRawKvIndex key =
        (if compactSpec R hist latest = [] then none
          else some { idx with generations := compactSpec R hist latest }) ∧
      (compactSpec R hist latest).flatMap (·.revisions) =
        idx.allRevisions.filter (compactKeeps R latest) ∧
      ∀ r, (kvCompactApply s key R).2.kvRevMap r =
        if r ∈ idx.allRevisions ∧ r ∉ (compactSpec R hist latest).flatMap (·.revisions) then none
        else s.kvRevMap r := by
  rw [allRevisions_of_split hsplit] at hs ⊢
  have heq := kvCompactApply_eq_of_shape hget hsplit hl hlat hs R
  have hkept := compactSpec_revisions (R := R) hlat hs
  refine ⟨by rw [heq], ?_, hkept, fun r => ?_⟩
  · rw [heq]
    split_ifs <;> simp [*]
  · have hdel : r ∈ compactDeletedSpec R hist latest ↔
        r ∈ hist.flatMap (·.revisions) ++ latest.revisions ∧
          r ∉ (compactSpec R hist latest).flatMap (·.revisions) := by
      rw [compactDeletedSpec_eq hlat hs, hkept, List.mem_filter, List.mem_filter]
      simp only [Bool.not_eq_true', not_and, Bool.not_eq_true]
      exact ⟨fun h => ⟨h.1, fun _ => h.2⟩, fun h => ⟨h.1, h.2 h.1⟩⟩
    rw [heq, deleteRevisions_kvRevMap]
    exact if_congr hdel rfl (by split_ifs <;> rfl)

theorem kvCompactApply_replaces_index_put_delete_put :
    let s := ApplyStep.run { kvLeaseMap := fun _ => false }
      [.put [1] ⟨1, 0⟩ false 0 false [7], .put [1] ⟨2, 0⟩ false 0 false [8], .delete [1] ⟨3, 0⟩,
        .put [1] ⟨4, 0⟩ false 0 false [9], .put [1] ⟨5, 0⟩ false 0 false [6]]
    let idx : KvIndexInternal := { id := [1], modRevision := ⟨5, 0⟩, generations :=
      [{ createRevision := some ⟨1, 0⟩, revisions := [⟨1, 0⟩, ⟨2, 0⟩, ⟨3, 0⟩], verison := 3 },
       { createRevision := some ⟨4, 0⟩, revisions := [⟨4, 0⟩, ⟨5, 0⟩], verison := 2 }] }
    let hist : List Generation :=
      [{ createRevision := some ⟨1, 0⟩, revisions := [⟨1, 0⟩, ⟨2, 0⟩, ⟨3, 0⟩], verison := 3 }]
    let latest : Generation :=
      { createRevision := some ⟨4, 0⟩, revisions := [⟨4, 0⟩, ⟨5, 0⟩], verison := 2 }
    (s.getRawKvIndex [1] = some idx ∧ idx.generations = hist ++ [latest] ∧
      (∀ g ∈ hist, g.isLive) ∧ (latest.isLive ∨ latest.IsTombstone) ∧
      idx.allRevisions.Sorted (· < ·)) ∧
      (kvCompactApply s [1] ⟨3, 0⟩).1 = .ok ∧
      (kvCompactApply s [1] ⟨3, 0⟩).2.getRawKvIndex [1] =
        (if compactSpec ⟨3, 0⟩ hist latest = [] then none
          else some { idx with generations := compactSpec ⟨3, 0⟩ hist latest }) ∧
      (compactSpec ⟨3, 0⟩ hist latest).flatMap (·.revisions) =
        idx.allRevisions.filter (compactKeeps ⟨3, 0⟩ latest) ∧
      ∀ r, (kvCompactApply s [1] ⟨3, 0⟩).2.kvRevMap r =
        if r ∈ idx.allRevisions ∧ r ∉ (compactSpec ⟨3, 0⟩ hist latest).flatMap (·.revisions)
        then none else s.kvRevMap r := by
  intro s idx hist latest
  have hget : s.getRawKvIndex [1] = some idx := by decide
  have hl : ∀ g ∈ hist, g.isLive := by decide
  have hlat : latest.isLive ∨ latest.IsTombstone := .inl rfl
  have hs : idx.allRevisions.Sorted (· < ·) := by decide
  exact ⟨⟨hget, rfl, hl, hlat, hs⟩, kvCompactApply_replaces_index hget rfl hl hlat hs ⟨3, 0⟩⟩

/-! ## The compaction task -/

/-- The loop of `CompactionTask` over the keys (`kv_control_kv.cc:849-862`) and its final flush
(`kv_control_kv.cc:863-871`): the batches it hands to `KvCompact`, `keysToCompact` being the
batch it is filling. A key that meets a full batch flushes it and is not pushed anywhere. -/
def compactionBatches (keysToCompact : List Bytes) : List Bytes → List (List Bytes)
  | [] => if keysToCompact.isEmpty then [] else [keysToCompact]
  | key :: keys =>
    if keysToCompact.length < 50 then compactionBatches (keysToCompact ++ [key]) keys
    else keysToCompact :: compactionBatches [] keys

/-- `KvCompact` (`kv_control_kv.cc:880-912`): one `UPDATE` entry of event type
`KV_INDEX_EVENT_TYPE_COMPACTION` per key at `compact_revision`, each given here as the
`KvCompactApply` call the replication layer makes of it. An empty batch submits nothing. -/
def kvCompact (keys : List Bytes) (compactRevision : RevisionInternal) : List ApplyStep :=
  keys.map (ApplyStep.compact · compactRevision)

/-- `CompactionTask` (`kv_control_kv.cc:819-876`): the `KvCompact` calls it makes, each with its
batch and `compact_revision`, given `now_revision`, the present id of `ID_NEXT_REVISION`. The
task does nothing unless `FLAGS_auto_compaction`, or when `now_revision` is below
`FLAGS_compaction_retention_rev_count`. The errors `KvCompact` returns are only logged. -/
def compactionTask (s : KvControl) (nowRevision : Int) : List (List Bytes × RevisionInternal) :=
  if !s.flags.autoCompaction then []
  else if nowRevision < s.flags.compactionRetentionRevCount then []
  else
    (compactionBatches [] s.kvIndexMap.getAllKeys).map fun keys =>
      (keys, { main := nowRevision - s.flags.compactionRetentionRevCount, sub := 0 })

/-- The calls of the apply engine the task's submissions become. -/
def compactionSteps (s : KvControl) (nowRevision : Int) : List ApplyStep :=
  (compactionTask s nowRevision).flatMap fun b => kvCompact b.1 b.2

section Batches

/-- The keys that survive the batching: position `50` of every run of `51` is dropped. -/
theorem enumFrom_add_filter (l : List Bytes) (n : Nat) :
    ((l.enumFrom (n + 51)).filter fun e => e.1 % 51 ≠ 50).map Prod.snd =
      ((l.enumFrom n).filter fun e => e.1 % 51 ≠ 50).map Prod.snd := by
  induction l generalizing n with
  | nil => rfl
  | cons x l ih =>
    have hmod : (n + 51) % 51 = n % 51 := Nat.add_mod_right n 51
    have ih' := ih (n + 1)
    rw [Nat.add_right_comm] at ih'
    simp only [List.enumFrom_cons, List.filter_cons, hmod]
    split <;> simp only [List.map_cons, ih']

/-- **What the batches hold**: the batch being filled, then every key not at a position
`50 + 51 * j`, counting from the batch's length. -/
theorem flatten_compactionBatches (keys : List Bytes) :
    ∀ p : List Bytes, p.length ≤ 50 → (compactionBatches p keys).flatten =
      p ++ ((keys.enumFrom p.length).filter fun e => e.1 % 51 ≠ 50).map Prod.snd := by
  induction keys with
  | nil =>
    intro p _
    by_cases hp : p = [] <;> simp [compactionBatches, hp]
  | cons key keys ih =>
    intro p hp
    rw [compactionBatches, List.enumFrom_cons, List.filter_cons]
    split
    · rename_i hlt
      have hne : p.length % 51 ≠ 50 := by omega
      rw [ih (p ++ [key]) (by simp; omega), List.length_append, List.length_singleton]
      simp [hne]
    · rename_i hge
      have h50 : p.length = 50 := by omega
      rw [List.flatten_cons, ih [] (Nat.zero_le _), h50]
      simpa using (enumFrom_add_filter keys 0).symm

/-- **Every batch has 1 to 50 keys.** -/
theorem length_mem_compactionBatches (keys : List Bytes) :
    ∀ p : List Bytes, p.length ≤ 50 → ∀ b ∈ compactionBatches p keys, 1 ≤ b.length ∧ b.length ≤ 50 := by
  induction keys with
  | nil =>
    intro p hp b hb
    by_cases he : p = []
    · simp [compactionBatches, he] at hb
    · simp only [compactionBatches, List.isEmpty_iff, he, if_false, List.mem_singleton] at hb
      subst hb
      exact ⟨List.length_pos.mpr he, hp⟩
  | cons key keys ih =>
    intro p hp b hb
    rw [compactionBatches] at hb
    split at hb
    · exact ih (p ++ [key]) (by simp; omega) b hb
    · rcases List.mem_cons.mp hb with rfl | hb
      · omega
      · exact ih [] (Nat.zero_le _) b hb

end Batches

theorem getAllKeys_nodup (m : SortedMap Bytes KvIndexInternal) : m.getAllKeys.Nodup :=
  (List.pairwise_map.mpr m.sorted).nodup

/-- In a list without duplicates, the entry at position `i` survives a filter on positions iff
its position does. -/
theorem getElem_mem_map_filter_enum {l : List Bytes} (hnd : l.Nodup) (p : Nat → Bool) {i : Nat}
    (hi : i < l.length) : l[i] ∈ (l.enum.filter fun e => p e.1).map Prod.snd ↔ p i := by
  rw [List.mem_map]
  constructor
  · rintro ⟨⟨j, k⟩, hj, rfl⟩
    obtain ⟨hj, hp⟩ := List.mem_filter.mp hj
    obtain ⟨hjl, hjk⟩ := List.getElem?_eq_some_iff.mp (List.mem_enum_iff_getElem?.mp hj)
    obtain rfl : i = j := ((hnd.getElem_inj_iff).mp hjk).symm
    exact hp
  · intro hp
    exact ⟨(i, l[i]), List.mem_filter.mpr
      ⟨List.mem_enum_iff_getElem?.mpr (List.getElem?_eq_getElem hi), hp⟩, rfl⟩

/-- **`CompactionTask` skips every 51st key**: when the task runs, the batches it hands to
`KvCompact` hold, in order, the keys of `GetAllKeys` except those at positions `50 + 51 * j`;
each batch has 1 to 50 keys and the revision `(now_revision - retention, 0)`; and a key is in
some batch iff its position is not `50 + 51 * j`. -/
theorem compactionTask_batches (s : KvControl) (nowRevision : Int)
    (hauto : s.flags.autoCompaction = true)
    (hnow : (s.flags.compactionRetentionRevCount : Int) ≤ nowRevision) :
    ((compactionTask s nowRevision).map Prod.fst).flatten =
        (s.kvIndexMap.getAllKeys.enum.filter fun e => e.1 % 51 ≠ 50).map Prod.snd ∧
      (∀ b ∈ compactionTask s nowRevision, (1 ≤ b.1.length ∧ b.1.length ≤ 50) ∧
        b.2 = { main := nowRevision - s.flags.compactionRetentionRevCount, sub := 0 }) ∧
      ∀ i (hi : i < s.kvIndexMap.getAllKeys.length),
        (∃ b ∈ compactionTask s nowRevision, s.kvIndexMap.getAllKeys[i] ∈ b.1) ↔ i % 51 ≠ 50 := by
  have htask : compactionTask s nowRevision = (compactionBatches [] s.kvIndexMap.getAllKeys).map
      fun keys => (keys, { main := nowRevision - s.flags.compactionRetentionRevCount, sub := 0 }) := by
    simp [compactionTask, hauto, not_lt.mpr hnow]
  have hflat : ((compactionTask s nowRevision).map Prod.fst).flatten =
      (s.kvIndexMap.getAllKeys.enum.filter fun e => e.1 % 51 ≠ 50).map Prod.snd := by
    simp only [htask, List.map_map, Function.comp_def, List.map_id', List.enum_eq_enumFrom]
    exact flatten_compactionBatches _ [] (Nat.zero_le _)
  refine ⟨hflat, ?_, fun i hi => ?_⟩
  · rw [htask]
    intro b hb
    obtain ⟨keys, hk, rfl⟩ := List.mem_map.mp hb
    exact ⟨length_mem_compactionBatches _ [] (Nat.zero_le _) keys hk, rfl⟩
  · have hmem : (∃ b ∈ compactionTask s nowRevision, s.kvIndexMap.getAllKeys[i] ∈ b.1) ↔
        s.kvIndexMap.getAllKeys[i] ∈ ((compactionTask s nowRevision).map Prod.fst).flatten := by
      simp [List.mem_flatten]
    rw [hmem, hflat, getElem_mem_map_filter_enum (getAllKeys_nodup s.kvIndexMap)
      (fun n => decide (n % 51 ≠ 50)) hi, decide_eq_true_iff]

theorem compactionTask_batches_fifty_one_keys :
    let s : KvControl :=
      { flags := { autoCompaction := true, compactionRetentionRevCount := 0 }
        kvIndexMap := (List.range 51).foldl (fun m i => m.put [UInt8.ofNat i] {}) .empty }
    (s.flags.autoCompaction = true ∧ (s.flags.compactionRetentionRevCount : Int) ≤ 1) ∧
      ((compactionTask s 1).map Prod.fst).flatten =
          (s.kvIndexMap.getAllKeys.enum.filter fun e => e.1 % 51 ≠ 50).map Prod.snd ∧
        (∀ b ∈ compactionTask s 1, (1 ≤ b.1.length ∧ b.1.length ≤ 50) ∧
          b.2 = { main := 1 - s.flags.compactionRetentionRevCount, sub := 0 }) ∧
        ∀ i (hi : i < s.kvIndexMap.getAllKeys.length),
          (∃ b ∈ compactionTask s 1, s.kvIndexMap.getAllKeys[i] ∈ b.1) ↔ i % 51 ≠ 50 := by
  intro s
  exact ⟨⟨rfl, by decide⟩, compactionTask_batches s 1 rfl (by decide)⟩

/-! ## The task over the whole index map -/

section Task

variable {s : KvControl}

/-- A compaction leaves the index of every other key. -/
theorem kvCompactApply_getRawKvIndex_of_ne {k key : Bytes} (hk : k ≠ key) (R : RevisionInternal) :
    (kvCompactApply s key R).2.getRawKvIndex k = s.getRawKvIndex k := by
  unfold kvCompactApply
  split
  · rfl
  · split
    · rfl
    · dsimp only
      split <;> simp [hk]

/-- What a compaction makes of its key's index depends on that index only. -/
theorem kvCompactApply_getRawKvIndex_congr {s' : KvControl} {key : Bytes}
    (h : s.getRawKvIndex key = s'.getRawKvIndex key) (R : RevisionInternal) :
    (kvCompactApply s key R).2.getRawKvIndex key =
      (kvCompactApply s' key R).2.getRawKvIndex key := by
  unfold kvCompactApply
  rw [h]
  split
  · exact h
  · split
    · exact h
    · dsimp only
      split <;> simp

/-- Compacting the keys of a list without duplicates at one revision: each key's index is what one
compaction of it makes of the starting index. -/
theorem run_compact_getRawKvIndex (R : RevisionInternal) {ks : List Bytes} (hks : ks.Nodup)
    (s : KvControl) (k : Bytes) :
    (ApplyStep.run s (ks.map (ApplyStep.compact · R))).getRawKvIndex k =
      if k ∈ ks then (kvCompactApply s k R).2.getRawKvIndex k else s.getRawKvIndex k := by
  induction ks generalizing s with
  | nil => rfl
  | cons k0 ks ih =>
    obtain ⟨hk0, hks⟩ := List.nodup_cons.mp hks
    rw [List.map_cons, ApplyStep.run_cons, ih hks]
    by_cases hk : k = k0
    · subst hk
      simp [hk0, ApplyStep.apply]
    · simp only [List.mem_cons, hk, false_or, ApplyStep.apply]
      split_ifs
      · exact kvCompactApply_getRawKvIndex_congr (kvCompactApply_getRawKvIndex_of_ne hk R) R
      · exact kvCompactApply_getRawKvIndex_of_ne hk R

/-- The calls the task submits: its keys, in batch order, each at one revision. -/
theorem compactionSteps_eq (s : KvControl) (nowRevision : Int) :
    compactionSteps s nowRevision = ((compactionTask s nowRevision).map Prod.fst).flatten.map
      (ApplyStep.compact · { main := nowRevision - s.flags.compactionRetentionRevCount, sub := 0 }) := by
  unfold compactionSteps compactionTask kvCompact
  split_ifs <;> simp [List.flatMap, List.map_flatten, Function.comp_def]

theorem nodup_compactionTask (s : KvControl) (nowRevision : Int) :
    ((compactionTask s nowRevision).map Prod.fst).flatten.Nodup := by
  unfold compactionTask
  split_ifs
  · exact List.nodup_nil
  · exact List.nodup_nil
  · simp only [List.map_map, Function.comp_def, List.map_id']
    rw [flatten_compactionBatches _ [] (Nat.zero_le _), List.nil_append]
    refine (getAllKeys_nodup s.kvIndexMap).sublist ?_
    simpa [List.enumFrom_map_snd] using
      (List.filter_sublist (s.kvIndexMap.getAllKeys.enumFrom 0)).map Prod.snd

/-- **What the compaction task does to `kv_index_map_`**: once every call the task submits is
applied, in any state, each key in its batches has the index one `KvCompactApply` of that key
from the starting state would leave, whatever the other keys and their order, and every other key
its index unchanged. -/
theorem compactionTask_getRawKvIndex (s : KvControl) (nowRevision : Int) (k : Bytes) :
    (ApplyStep.run s (compactionSteps s nowRevision)).getRawKvIndex k =
      if k ∈ ((compactionTask s nowRevision).map Prod.fst).flatten then
        (kvCompactApply s k
          { main := nowRevision - s.flags.compactionRetentionRevCount, sub := 0 }).2.getRawKvIndex k
      else s.getRawKvIndex k := by
  rw [compactionSteps_eq]
  exact run_compact_getRawKvIndex _ (nodup_compactionTask s nowRevision) s k

end Task

end DingoKv
