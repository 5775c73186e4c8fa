import DingoKv.Invariant

/-!
# What `meta_writer_` holds

Every write of `kv_index_map_` and `kv_rev_map_` goes through `PutRawKvIndex`, `DeleteRawKvIndex`,
`PutRawKvRev` or `DeleteRawKvRev` (`kv_control_kv.cc:124-190`), and each also writes
`meta_writer_`: the record under the key `TransformToKvValue` gives it, its `id` (`MetaWriter`).
The code keys `kv_rev_map_` by `RevisionToString(revision)`; `KvControl.kvRevMapByString` is that
map, read back through `StringToRevision`.

`Persisted` is the agreement of the store with the maps. No apply call breaks it, fresh op
revision or not, as long as every revision written is a pair of `int64_t`s, on which
`RevisionToString` is injective (`revisionToString_injective`):

* `PutRawKvIndex(key, kv_index)` stores `kv_index` under `kv_index.id`, which is `key`: every
  index carries its key (`IdsMatch`), and the apply calls keep that whatever index they find
  (`putKvIndex_id`, `deleteKvIndex_id`);
* `PutRawKvRev(op, kv_rev)` stores under `kv_rev.id = RevisionToString(op)`, where the map keeps
  it;
* `KvCompactApply` erases each revision through a `KvRevInternal` holding only its `id`, the same
  key. It erases and keeps only revisions of the index it compacts (`AllRevisions`), whatever
  shape the index has, so they are `int64_t` pairs too.

`metaWriter_eq_maps`: after any sequence of apply calls from empty maps and empty storage, the
store holds exactly the records of both maps, each under its map key, so the maps rebuilt from it
at a restart are the maps in memory.
-/

namespace DingoKv

/-! ## The store and the maps -/

/-- `kv_rev_map_` as the code keys it, by `RevisionToString(revision)`: under a key that encodes
the revision it decodes to, the entry of that revision. -/
def KvControl.kvRevMapByString (s : KvControl) (b : Bytes) : Option KvRevInternal :=
  if revisionToString (stringToRevision b) = b then s.kvRevMap (stringToRevision b) else none

namespace KvControl

variable {s : KvControl}

@[simp] theorem putRawKvIndex_kvIndexes (key : Bytes) (v : KvIndexInternal) :
    (s.putRawKvIndex key v).metaWriter.kvIndexes =
      Function.update s.metaWriter.kvIndexes v.id (some v) := rfl

@[simp] theorem putRawKvIndex_kvRevs (key : Bytes) (v : KvIndexInternal) :
    (s.putRawKvIndex key v).metaWriter.kvRevs = s.metaWriter.kvRevs := rfl

@[simp] theorem deleteRawKvIndex_kvIndexes (key : Bytes) (v : KvIndexInternal) :
    (s.deleteRawKvIndex key v).metaWriter.kvIndexes =
      Function.update s.metaWriter.kvIndexes v.id none := rfl

@[simp] theorem deleteRawKvIndex_kvRevs (key : Bytes) (v : KvIndexInternal) :
    (s.deleteRawKvIndex key v).metaWriter.kvRevs = s.metaWriter.kvRevs := rfl

@[simp] theorem putRawKvRev_kvIndexes (r : RevisionInternal) (v : KvRevInternal) :
    (s.putRawKvRev r v).metaWriter.kvIndexes = s.metaWriter.kvIndexes := rfl

@[simp] theorem putRawKvRev_kvRevs (r : RevisionInternal) (v : KvRevInternal) :
    (s.putRawKvRev r v).metaWriter.kvRevs = Function.update s.metaWriter.kvRevs v.id (some v) :=
  rfl

@[simp] theorem deleteRawKvRev_kvIndexes (r : RevisionInternal) (v : KvRevInternal) :
    (s.deleteRawKvRev r v).metaWriter.kvIndexes = s.metaWriter.kvIndexes := rfl

@[simp] theorem deleteRawKvRev_kvRevs (r : RevisionInternal) (v : KvRevInternal) :
    (s.deleteRawKvRev r v).metaWriter.kvRevs = Function.update s.metaWriter.kvRevs v.id none :=
  rfl

/-- Writing the entry of an `int64_t` revision writes the code's map under its encoding. -/
theorem kvRevMapByString_update {s' : KvControl} {op : RevisionInternal}
    (hm : IsInt64 op.main) (hs : IsInt64 op.sub) (o : Option KvRevInternal)
    (h : s'.kvRevMap = Function.update s.kvRevMap op o) :
    s'.kvRevMapByString = Function.update s.kvRevMapByString (revisionToString op) o := by
  funext b
  simp only [kvRevMapByString, h, Function.update_apply]
  by_cases hb : b = revisionToString op
  · subst hb
    rw [stringToRevision_revisionToString hm hs]
    simp
  · rw [if_neg hb]
    split_ifs with h1 h2
    · exact absurd (h2 ▸ h1.symm) hb
    · rfl
    · rfl

theorem kvRevMapByString_revisionToString {r : RevisionInternal} (hm : IsInt64 r.main)
    (hs : IsInt64 r.sub) : s.kvRevMapByString (revisionToString r) = s.kvRevMap r := by
  rw [kvRevMapByString, stringToRevision_revisionToString hm hs, if_pos rfl]

end KvControl

/-! ## The index the apply calls write -/

/-- `KvPutApply` writes an index carrying its key, when the index it finds does. -/
theorem putKvIndex_id {found : Option KvIndexInternal} {key : Bytes}
    (h : ∀ idx, found = some idx → idx.id = key) (op : RevisionInternal) :
    (putKvIndex found key op).kvIndex.id = key := by
  unfold putKvIndex
  split
  · rfl
  · rename_i idx
    split <;> exact h idx rfl

theorem deleteKvIndex_id (idx : KvIndexInternal) (op : RevisionInternal) :
    (deleteKvIndex idx op).kvIndex.id = idx.id := by
  unfold deleteKvIndex; split
  · rfl
  · split <;> rfl

theorem mem_allRevisions_of_dropLast {idx : KvIndexInternal} {r : RevisionInternal}
    (h : r ∈ idx.generations.dropLast.flatMap (·.revisions)) : r ∈ idx.allRevisions := by
  obtain ⟨g, hg, hr⟩ := List.mem_flatMap.mp h
  exact List.mem_flatMap.mpr ⟨g, List.dropLast_subset _ hg, hr⟩

theorem mem_allRevisions_of_getLast? {idx : KvIndexInternal} {latest : Generation}
    (hl : idx.generations.getLast? = some latest) {r : RevisionInternal}
    (h : r ∈ latest.revisions) : r ∈ idx.allRevisions :=
  List.mem_flatMap.mpr ⟨latest, List.mem_of_getLast?_eq_some hl, h⟩

/-- The revisions of the index `KvPutApply` writes: its op revision and those of the index it
finds. -/
theorem mem_putKvIndex_allRevisions {found : Option KvIndexInternal} {key : Bytes}
    {op r : RevisionInternal} (h : r ∈ (putKvIndex found key op).kvIndex.allRevisions) :
    r = op ∨ ∃ idx, found = some idx ∧ r ∈ idx.allRevisions := by
  unfold putKvIndex at h
  split at h
  · exact .inl (by simpa [Generation.start, KvIndexInternal.allRevisions] using h)
  · rename_i idx
    split at h
    · exact .inl (by simpa [Generation.start, KvIndexInternal.allRevisions] using h)
    · rename_i latest hl
      simp only [KvIndexInternal.allRevisions, List.flatMap_append, List.flatMap_singleton,
        List.mem_append, putGeneration_revisions, List.mem_singleton] at h
      rcases h with h | h | h
      · exact .inr ⟨idx, rfl, mem_allRevisions_of_dropLast h⟩
      · exact .inr ⟨idx, rfl, mem_allRevisions_of_getLast? hl h⟩
      · exact .inl h

/-- The revisions of the index `KvDeleteApply` writes: its op revision and those of the index it
finds. -/
theorem mem_deleteKvIndex_allRevisions {idx : KvIndexInternal} {op r : RevisionInternal}
    (h : r ∈ (deleteKvIndex idx op).kvIndex.allRevisions) : r = op ∨ r ∈ idx.allRevisions := by
  unfold deleteKvIndex at h
  split at h
  · simp [KvIndexInternal.allRevisions] at h
  · rename_i latest hl
    split at h
    · simp only [KvIndexInternal.allRevisions, List.flatMap_append, List.flatMap_cons,
        List.flatMap_nil, List.mem_append, List.mem_singleton, List.append_nil] at h
      rcases h with h | h | h
      · exact .inr (mem_allRevisions_of_dropLast h)
      · exact .inr (mem_allRevisions_of_getLast? hl h)
      · exact .inl h
    · exact .inr h

/-! ## What compaction keeps and erases -/

/-- Every revision of the generations and of the list of an accumulator of `KvCompactApply`
satisfies `P`. -/
def AllRevisions (P : RevisionInternal → Prop) (acc : List Generation × List RevisionInternal) :
    Prop :=
  (∀ g ∈ acc.1, ∀ r ∈ g.revisions, P r) ∧ ∀ r ∈ acc.2, P r

section AllRevisions

variable {P : RevisionInternal → Prop} {R : RevisionInternal}

theorem AllRevisions.historyStep {acc : List Generation × List RevisionInternal} {old : Generation}
    (h : AllRevisions P acc) (hold : ∀ r ∈ old.revisions, P r) :
    AllRevisions P (compactHistoryStep R acc old) := by
  unfold compactHistoryStep
  split_ifs with hne
  · refine ⟨fun g hg => ?_, h.2⟩
    rcases List.mem_append.mp hg with hg | hg
    · exact h.1 g hg
    · exact (List.mem_singleton.mp hg) ▸ hold
  · split
    · exact h
    · simp only [List.partition_eq_filter_filter, AllRevisions]
      refine ⟨fun g hg r hr => ?_, fun r hr => ?_⟩
      · split_ifs at hg
        · rw [List.mem_singleton] at hg; subst hg
          exact hold r (List.mem_of_mem_filter hr)
        · cases hg
      · rcases List.mem_append.mp hr with hr | hr
        · exact h.2 r hr
        · exact hold r (List.mem_of_mem_filter hr)

theorem AllRevisions.foldl_historyStep {hist : List Generation}
    {acc : List Generation × List RevisionInternal} (h : AllRevisions P acc)
    (hh : ∀ g ∈ hist, ∀ r ∈ g.revisions, P r) :
    AllRevisions P (hist.foldl (compactHistoryStep R) acc) := by
  induction hist generalizing acc with
  | nil => exact h
  | cons g gs ih =>
    exact ih (h.historyStep (hh g (List.mem_cons_self _ _))) fun g' hg' =>
      hh g' (List.mem_cons_of_mem _ hg')

theorem AllRevisions.latest {acc : List Generation × List RevisionInternal} {latest : Generation}
    (h : AllRevisions P acc) (hl : ∀ r ∈ latest.revisions, P r) :
    AllRevisions P (compactLatest R latest acc) := by
  have happend : ∀ g ∈ acc.1 ++ [latest], ∀ r ∈ g.revisions, P r := fun g hg =>
    (List.mem_append.mp hg).elim (h.1 g) fun hg => (List.mem_singleton.mp hg) ▸ hl
  unfold compactLatest
  split
  · refine ⟨fun g hg => ?_, h.2⟩
    split_ifs at hg
    exacts [happend g hg, h.1 g hg]
  · split_ifs
    · exact ⟨happend, h.2⟩
    · simp only [List.partition_eq_filter_filter, AllRevisions]
      refine ⟨fun g hg r hr => ?_, fun r hr => ?_⟩
      · split_ifs at hg
        · rw [List.mem_singleton] at hg; subst hg
          rcases List.mem_append.mp hr with hr | hr
          · exact hl r (List.dropLast_subset _ (List.mem_of_mem_filter hr))
          · exact hl r (List.mem_of_getLast?_eq_some (Option.mem_toList.mp hr))
        · cases hg
      · rcases List.mem_append.mp hr with hr | hr
        · exact h.2 r hr
        · exact hl r (List.dropLast_subset _ (List.mem_of_mem_filter hr))

/-- `KvCompactApply` keeps and erases only revisions of the index it compacts, whatever its
shape. -/
theorem AllRevisions.compactGenerations {idx : KvIndexInternal} {latest : Generation}
    (hl : idx.generations.getLast? = some latest) (h : ∀ r ∈ idx.allRevisions, P r) :
    AllRevisions P (compactGenerations R latest idx.generations.dropLast) :=
  (AllRevisions.foldl_historyStep ⟨List.forall_mem_nil _, List.forall_mem_nil _⟩ fun g hg r hr =>
    h r (List.mem_flatMap.mpr ⟨g, List.dropLast_subset _ hg, hr⟩)).latest
    fun r hr => h r (mem_allRevisions_of_getLast? hl hr)

end AllRevisions

/-! ## The invariant -/

/-- `meta_writer_` holds exactly the two maps, each record under its map key, and the maps hold
what the apply calls write. -/
structure Persisted (s : KvControl) : Prop where
  /-- Each index carries its key as `id`. -/
  ids : IdsMatch s
  /-- Each `KvRevInternal` carries the encoding of its revision as `id`. -/
  rev_ids : ∀ r kr, s.kvRevMap r = some kr → kr.id = revisionToString r
  /-- The revisions of every index are `int64_t` pairs. -/
  int64 : ∀ k idx, s.getRawKvIndex k = some idx →
    ∀ r ∈ idx.allRevisions, IsInt64 r.main ∧ IsInt64 r.sub
  /-- The persisted indexes are `kv_index_map_`. -/
  kvIndexes_eq : s.metaWriter.kvIndexes = s.kvIndexMap.get
  /-- The persisted `KvRevInternal`s are `kv_rev_map_`, keyed as the code keys it. -/
  kvRevs_eq : s.metaWriter.kvRevs = s.kvRevMapByString

variable {s : KvControl}

theorem persisted_init (flags : Flags) (leases : Int → Bool) :
    Persisted { flags, kvLeaseMap := leases } where
  ids _ _ h := nomatch h
  rev_ids _ _ h := nomatch h
  int64 _ _ h := nomatch h
  kvIndexes_eq := rfl
  kvRevs_eq := funext fun _ => by simp [KvControl.kvRevMapByString]

/-! ### One raw write -/

theorem Persisted.putRawKvIndex (hp : Persisted s) {key : Bytes} {v : KvIndexInternal}
    (hid : v.id = key) (hv : ∀ r ∈ v.allRevisions, IsInt64 r.main ∧ IsInt64 r.sub) :
    Persisted (s.putRawKvIndex key v) where
  ids k idx h := by
    rw [KvControl.getRawKvIndex_def, KvControl.putRawKvIndex_kvIndexMap, SortedMap.get_put] at h
    split_ifs at h with hk
    · cases h; exact hk ▸ hid
    · exact hp.ids k idx h
  rev_ids := hp.rev_ids
  int64 k idx h := by
    rw [KvControl.getRawKvIndex_def, KvControl.putRawKvIndex_kvIndexMap, SortedMap.get_put] at h
    split_ifs at h
    · cases h; exact hv
    · exact hp.int64 k idx h
  kvIndexes_eq := by
    funext k
    rw [KvControl.putRawKvIndex_kvIndexes, KvControl.putRawKvIndex_kvIndexMap, SortedMap.get_put,
      hp.kvIndexes_eq, hid, Function.update_apply]
    split_ifs <;> rfl
  kvRevs_eq := hp.kvRevs_eq

theorem Persisted.deleteRawKvIndex (hp : Persisted s) {key : Bytes} {v : KvIndexInternal}
    (hid : v.id = key) : Persisted (s.deleteRawKvIndex key v) where
  ids k idx h := by
    rw [KvControl.getRawKvIndex_def, KvControl.deleteRawKvIndex_kvIndexMap, SortedMap.get_erase] at h
    split_ifs at h
    exact hp.ids k idx h
  rev_ids := hp.rev_ids
  int64 k idx h := by
    rw [KvControl.getRawKvIndex_def, KvControl.deleteRawKvIndex_kvIndexMap, SortedMap.get_erase] at h
    split_ifs at h
    exact hp.int64 k idx h
  kvIndexes_eq := by
    funext k
    rw [KvControl.deleteRawKvIndex_kvIndexes, KvControl.deleteRawKvIndex_kvIndexMap,
      SortedMap.get_erase, hp.kvIndexes_eq, hid, Function.update_apply]
    split_ifs <;> rfl
  kvRevs_eq := hp.kvRevs_eq

theorem Persisted.putRawKvRev (hp : Persisted s) {op : RevisionInternal} {kr : KvRevInternal}
    (hkr : kr.id = revisionToString op) (hm : IsInt64 op.main) (hs : IsInt64 op.sub) :
    Persisted (s.putRawKvRev op kr) where
  ids := hp.ids
  rev_ids r kr' h := by
    rw [KvControl.putRawKvRev_kvRevMap, Function.update_apply] at h
    split_ifs at h with hr
    · cases h; exact hr ▸ hkr
    · exact hp.rev_ids r kr' h
  int64 := hp.int64
  kvIndexes_eq := hp.kvIndexes_eq
  kvRevs_eq := by
    rw [KvControl.putRawKvRev_kvRevs, hp.kvRevs_eq, hkr,
      KvControl.kvRevMapByString_update hm hs _ (KvControl.putRawKvRev_kvRevMap op kr)]

theorem Persisted.deleteRawKvRev (hp : Persisted s) {r : RevisionInternal} (hm : IsInt64 r.main)
    (hs : IsInt64 r.sub) : Persisted (s.deleteRawKvRev r { id := revisionToString r }) where
  ids := hp.ids
  rev_ids r' kr h := by
    rw [KvControl.deleteRawKvRev_kvRevMap, Function.update_apply] at h
    split_ifs at h
    exact hp.rev_ids r' kr h
  int64 := hp.int64
  kvIndexes_eq := hp.kvIndexes_eq
  kvRevs_eq := by
    rw [KvControl.deleteRawKvRev_kvRevs, hp.kvRevs_eq,
      KvControl.kvRevMapByString_update hm hs _ (KvControl.deleteRawKvRev_kvRevMap r _)]

theorem Persisted.deleteRevisions (hp : Persisted s) {rs : List RevisionInternal}
    (h : ∀ r ∈ rs, IsInt64 r.main ∧ IsInt64 r.sub) : Persisted (s.deleteRevisions rs) := by
  induction rs generalizing s with
  | nil => exact hp
  | cons r rs ih =>
    have hr := h r (List.mem_cons_self _ _)
    exact ih (hp.deleteRawKvRev hr.1 hr.2) fun r' hr' => h r' (List.mem_cons_of_mem _ hr')

/-! ### One apply call -/

theorem Persisted.put (hp : Persisted s) (key : Bytes) {op : RevisionInternal}
    (hm : IsInt64 op.main) (hs : IsInt64 op.sub) (il : Bool) (lid : Int) (iv : Bool) (v : Bytes) :
    Persisted (kvPutApply s key op il lid iv v).2.1 := by
  rcases kvPutApply_state s key op il lid iv v with h | ⟨kvRevLast, h⟩ <;> rw [h]
  · exact hp
  refine (hp.putRawKvIndex (putKvIndex_id (hp.ids key) op) fun r hr => ?_).putRawKvRev rfl hm hs
  rcases mem_putKvIndex_allRevisions hr with rfl | ⟨idx, hget, hr⟩
  exacts [⟨hm, hs⟩, hp.int64 key idx hget r hr]

theorem Persisted.delete (hp : Persisted s) (key : Bytes) {op : RevisionInternal}
    (hm : IsInt64 op.main) (hs : IsInt64 op.sub) : Persisted (kvDeleteApply s key op).2.1 := by
  rcases kvDeleteApply_state s key op with h | ⟨idx, hget, h⟩ <;> rw [h]
  · exact hp
  refine (hp.putRawKvIndex ((deleteKvIndex_id idx op).trans (hp.ids key idx hget)) fun r hr => ?_
    ).putRawKvRev rfl hm hs
  rcases mem_deleteKvIndex_allRevisions hr with rfl | hr
  exacts [⟨hm, hs⟩, hp.int64 key idx hget r hr]

theorem Persisted.compact (hp : Persisted s) (key : Bytes) (R : RevisionInternal) :
    Persisted (kvCompactApply s key R).2 := by
  unfold kvCompactApply
  split
  · exact hp
  · rename_i kvIndex hget
    split
    · exact hp
    · rename_i latest hl
      have hall := AllRevisions.compactGenerations (R := R) hl (hp.int64 key kvIndex hget)
      have hid := hp.ids key kvIndex hget
      refine Persisted.deleteRevisions ?_ hall.2
      split
      · exact hp.deleteRawKvIndex hid
      · refine hp.putRawKvIndex hid fun r hr => ?_
        obtain ⟨g, hg, hr⟩ := List.mem_flatMap.mp hr
        exact hall.1 g hg r hr

/-- No apply call at an `int64_t` op revision breaks the agreement. -/
theorem Persisted.step (hp : Persisted s) (st : ApplyStep)
    (h64 : ∀ op ∈ st.opRevision?, IsInt64 op.main ∧ IsInt64 op.sub) :
    Persisted (st.apply s) := by
  cases st with
  | put key op il lid iv v =>
    have h := h64 op rfl
    exact hp.put key h.1 h.2 il lid iv v
  | delete key op =>
    have h := h64 op rfl
    exact hp.delete key h.1 h.2
  | compact key R => exact hp.compact key R

theorem Persisted.run (hp : Persisted s) (steps : List ApplyStep)
    (h64 : ∀ st ∈ steps, ∀ op ∈ st.opRevision?, IsInt64 op.main ∧ IsInt64 op.sub) :
    Persisted (ApplyStep.run s steps) := by
  induction steps generalizing s with
  | nil => exact hp
  | cons st steps ih =>
    exact ih (hp.step st (h64 st (List.mem_cons_self _ _))) fun st' hst' =>
      h64 st' (List.mem_cons_of_mem _ hst')

/-- Under the agreement every persisted record carries its key as `id`. -/
theorem Persisted.ids_persisted (hp : Persisted s) :
    (∀ k idx, s.metaWriter.kvIndexes k = some idx → idx.id = k) ∧
      ∀ b kr, s.metaWriter.kvRevs b = some kr → kr.id = b := by
  refine ⟨fun k idx h => hp.ids k idx (by rwa [hp.kvIndexes_eq] at h), fun b kr h => ?_⟩
  rw [hp.kvRevs_eq, KvControl.kvRevMapByString] at h
  split_ifs at h with hb
  exact (hp.rev_ids _ kr h).trans hb

/-- **`meta_writer_` holds the maps**: after any sequence of `KvPutApply`, `KvDeleteApply` and
`KvCompactApply` calls from empty maps and empty storage whose op revisions are `int64_t` pairs,
the persisted indexes are `kv_index_map_` and the persisted `KvRevInternal`s are `kv_rev_map_`
keyed by `RevisionToString`, each record under its map key as `id`: rebuilding the maps from the
store gives the maps in memory. -/
theorem metaWriter_eq_maps (flags : Flags) (leases : Int → Bool) (steps : List ApplyStep)
    (h64 : ∀ st ∈ steps, ∀ op ∈ st.opRevision?, IsInt64 op.main ∧ IsInt64 op.sub) :
    (ApplyStep.run { flags, kvLeaseMap := leases } steps).metaWriter.kvIndexes =
        (ApplyStep.run { flags, kvLeaseMap := leases } steps).kvIndexMap.get ∧
      (ApplyStep.run { flags, kvLeaseMap := leases } steps).metaWriter.kvRevs =
        (ApplyStep.run { flags, kvLeaseMap := leases } steps).kvRevMapByString ∧
      (∀ k idx, (ApplyStep.run { flags, kvLeaseMap := leases } steps).metaWriter.kvIndexes k =
        some idx → idx.id = k) ∧
      ∀ b kr, (ApplyStep.run { flags, kvLeaseMap := leases } steps).metaWriter.kvRevs b =
        some kr → kr.id = b := by
  have hp := (persisted_init flags leases).run steps h64
  exact ⟨hp.kvIndexes_eq, hp.kvRevs_eq, hp.ids_persisted⟩

/-- A put, a delete twice (the second behind a tombstone), a re-put and a compaction. -/
theorem metaWriter_eq_maps_run :
    let steps := [ApplyStep.put [1] ⟨1, 0⟩ false 0 false [7], .delete [1] ⟨2, 0⟩,
      .delete [1] ⟨3, 0⟩, .put [1] ⟨4, 0⟩ false 0 false [8], .compact [1] ⟨4, 0⟩]
    (∀ st ∈ steps, ∀ op ∈ st.opRevision?, IsInt64 op.main ∧ IsInt64 op.sub) ∧
      (ApplyStep.run { kvLeaseMap := fun _ => false } steps).metaWriter.kvIndexes =
          (ApplyStep.run { kvLeaseMap := fun _ => false } steps).kvIndexMap.get ∧
        (ApplyStep.run { kvLeaseMap := fun _ => false } steps).metaWriter.kvRevs =
          (ApplyStep.run { kvLeaseMap := fun _ => false } steps).kvRevMapByString ∧
        (∀ k idx, (ApplyStep.run { kvLeaseMap := fun _ => false } steps).metaWriter.kvIndexes k =
          some idx → idx.id = k) ∧
        ∀ b kr, (ApplyStep.run { kvLeaseMap := fun _ => false } steps).metaWriter.kvRevs b =
          some kr → kr.id = b := by
  intro steps
  have h64 : ∀ st ∈ steps, ∀ op ∈ st.opRevision?, IsInt64 op.main ∧ IsInt64 op.sub := by decide
  exact ⟨h64, metaWriter_eq_maps {} _ steps h64⟩

end DingoKv
