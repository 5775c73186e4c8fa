import DingoKv.Compact

/-!
# The store invariant over every run of the apply engine

`Reachable` is every state `KvPutApply`, `KvDeleteApply` and `KvCompactApply` reach from empty
maps (any flags, any lease table), each put or delete at an op revision `Fresh` in its state:
past every revision already stored, in `kv_rev_map_` or in an index. Compaction revisions are
arbitrary.

`Consistent` is what every reachable state keeps (`Reachable.consistent`):

* each index carries its key as `id` and is `WellFormed`;
* every revision of a generation of key `k` holds a `KvRevInternal` of key `k`;
* the `KvRevInternal` at the `mod_revision` of a live key is not deleted and carries its latest
  generation's `create_revision` and version.

`Consistent.write` is the one lemma the put and delete steps go through: writing an index at its
key and a `KvRevInternal` at a fresh revision. Compaction goes through `kvCompactApply_eq`.

The spec's "every KvRev in the RevMap is referenced by exactly one revision slot" is not part of
the invariant: a delete of a key whose latest generation is already a tombstone writes a
`KvRevInternal` no generation records, and no compaction erases it
(`double_delete_leaks_kvRev`).
-/

namespace DingoKv

/-- Past every revision stored: every key of `kv_rev_map_`, every revision and `mod_revision`
of every index. -/
def Fresh (s : KvControl) (op : RevisionInternal) : Prop :=
  (∀ r kr, s.kvRevMap r = some kr → r < op) ∧
    ∀ k idx, s.getRawKvIndex k = some idx → idx.modRevision < op ∧ ∀ r ∈ idx.allRevisions, r < op

/-- The state invariant of the apply engine. -/
structure Consistent (s : KvControl) : Prop where
  /-- Each index carries its key as `id`. -/
  id_eq : IdsMatch s
  /-- Each index is well formed. -/
  wellFormed : ∀ k idx, s.getRawKvIndex k = some idx → WellFormed idx
  /-- Every revision of a generation of `k` holds a `KvRevInternal` of key `k`. -/
  rev_of_index : ∀ k idx, s.getRawKvIndex k = some idx →
    ∀ r ∈ idx.allRevisions, ∃ kr, s.kvRevMap r = some kr ∧ kr.kv.id = k
  /-- The `KvRevInternal` at a live key's `mod_revision` is its latest generation's. -/
  live_rev : ∀ k idx, s.getRawKvIndex k = some idx → ∀ g ∈ idx.generations.getLast?, g.isLive →
    ∃ kr, s.kvRevMap idx.modRevision = some kr ∧ kr.kv.isDeleted = false ∧
      some kr.kv.createRevision = g.createRevision ∧ kr.kv.version = g.verison

/-- A put or a delete at a revision fresh in the state; any compaction. -/
def ApplyStep.Admissible (s : KvControl) : ApplyStep → Prop
  | .put _ op .. | .delete _ op => Fresh s op
  | .compact .. => True

/-- The reachable states of the apply engine. -/
inductive Reachable : KvControl → Prop where
  | init (flags : Flags) (leases : Int → Bool) : Reachable { flags, kvLeaseMap := leases }
  | step {s : KvControl} (st : ApplyStep) : Reachable s → st.Admissible s → Reachable (st.apply s)

/-! ## What each step writes -/

/-- What `KvPutApply` and `KvDeleteApply` write at `op`: the index `newIdx` at `key`, new only at
`op` and ending there, and the `KvRevInternal` `kr` of `key` at `op`, which carries a live latest
generation's `create_revision` and version. -/
structure WriteAt (s : KvControl) (op : RevisionInternal) (key : Bytes) (newIdx : KvIndexInternal)
    (kr : KvRevInternal) : Prop where
  id_eq : newIdx.id = key
  wellFormed : WellFormed newIdx
  kr_id : kr.kv.id = key
  mod_eq : newIdx.modRevision = op
  revisions : ∀ r ∈ newIdx.allRevisions,
    r = op ∨ ∃ idx, s.getRawKvIndex key = some idx ∧ r ∈ idx.allRevisions
  live : ∀ g ∈ newIdx.generations.getLast?, g.isLive →
    kr.kv.isDeleted = false ∧ some kr.kv.createRevision = g.createRevision ∧
      kr.kv.version = g.verison

theorem kvPutApply_state (s : KvControl) (key : Bytes) (op : RevisionInternal) (il : Bool)
    (lid : Int) (iv : Bool) (v : Bytes) :
    (kvPutApply s key op il lid iv v).2.1 = s ∨
      ∃ kvRevLast, (kvPutApply s key op il lid iv v).2.1 =
        (s.putRawKvIndex key (putKvIndex (s.getRawKvIndex key) key op).kvIndex).putRawKvRev op
          (putKvRev key op il lid iv v (putKvIndex (s.getRawKvIndex key) key op) kvRevLast) := by
  dsimp only [kvPutApply]
  split
  · exact .inl rfl
  · exact .inr ⟨_, rfl⟩

theorem kvDeleteApply_state (s : KvControl) (key : Bytes) (op : RevisionInternal) :
    (kvDeleteApply s key op).2.1 = s ∨
      ∃ idx, s.getRawKvIndex key = some idx ∧ (kvDeleteApply s key op).2.1 =
        (s.putRawKvIndex key (deleteKvIndex idx op).kvIndex).putRawKvRev op
          (deleteKvRev key op (deleteKvIndex idx op)) := by
  dsimp only [kvDeleteApply]
  split
  · exact .inl rfl
  · exact .inr ⟨_, ‹_›, rfl⟩

@[simp] theorem getRawKvIndex_write (s : KvControl) (key k : Bytes) (idx : KvIndexInternal)
    (op : RevisionInternal) (kr : KvRevInternal) :
    ((s.putRawKvIndex key idx).putRawKvRev op kr).getRawKvIndex k =
      if k = key then some idx else s.getRawKvIndex k := by
  simp

@[simp] theorem kvRevMap_write (s : KvControl) (key : Bytes) (idx : KvIndexInternal)
    (op r : RevisionInternal) (kr : KvRevInternal) :
    ((s.putRawKvIndex key idx).putRawKvRev op kr).kvRevMap r =
      if r = op then some kr else s.kvRevMap r := by
  simp [Function.update_apply]

@[simp] theorem deleteRevisions_kvIndexMap (s : KvControl) (rs : List RevisionInternal) :
    (s.deleteRevisions rs).kvIndexMap = s.kvIndexMap := by
  induction rs generalizing s with
  | nil => rfl
  | cons r rs ih => exact (ih _).trans rfl

@[simp] theorem deleteRevisions_kvRevMap (s : KvControl) (rs : List RevisionInternal)
    (r : RevisionInternal) :
    (s.deleteRevisions rs).kvRevMap r = if r ∈ rs then none else s.kvRevMap r := by
  induction rs generalizing s with
  | nil => rfl
  | cons x rs ih =>
    simp only [KvControl.deleteRevisions, List.foldl_cons] at ih ⊢
    rw [ih]
    by_cases h : r = x <;> simp [h, Function.update_apply]

@[simp] theorem deleteRevisions_kvLeaseMap (s : KvControl) (rs : List RevisionInternal) :
    (s.deleteRevisions rs).kvLeaseMap = s.kvLeaseMap := by
  induction rs generalizing s with
  | nil => rfl
  | cons r rs ih => exact (ih _).trans rfl

@[simp] theorem deleteRevisions_flags (s : KvControl) (rs : List RevisionInternal) :
    (s.deleteRevisions rs).flags = s.flags := by
  induction rs generalizing s with
  | nil => rfl
  | cons r rs ih => exact (ih _).trans rfl

/-- **`KvCompactApply` on a well-formed index**: the index of `key` becomes `compactSpec`, erased
when empty, and nothing else of `kv_index_map_` changes. -/
theorem kvCompactApply_getRawKvIndex {s : KvControl} {key : Bytes} {idx : KvIndexInternal}
    (hget : s.getRawKvIndex key = some idx) (hw : WellFormed idx) {hist : List Generation}
    {latest : Generation} (h : idx.generations = hist ++ [latest]) (R : RevisionInternal)
    (k : Bytes) : (kvCompactApply s key R).2.getRawKvIndex k =
      if k = key then
        (if compactSpec R hist latest = [] then none
          else some { idx with generations := compactSpec R hist latest })
      else s.getRawKvIndex k := by
  rw [kvCompactApply_eq hget hw h R]
  split_ifs <;> simp_all

/-- **`KvCompactApply` on a well-formed index** erases `compactDeletedSpec` from `kv_rev_map_`. -/
theorem kvCompactApply_kvRevMap {s : KvControl} {key : Bytes} {idx : KvIndexInternal}
    (hget : s.getRawKvIndex key = some idx) (hw : WellFormed idx) {hist : List Generation}
    {latest : Generation} (h : idx.generations = hist ++ [latest]) (R r : RevisionInternal) :
    (kvCompactApply s key R).2.kvRevMap r =
      if r ∈ compactDeletedSpec R hist latest then none else s.kvRevMap r := by
  rw [kvCompactApply_eq hget hw h R]
  split_ifs <;> simp_all

@[simp] theorem kvCompactApply_flags (s : KvControl) (key : Bytes) (R : RevisionInternal) :
    (kvCompactApply s key R).2.flags = s.flags := by
  unfold kvCompactApply; split
  · rfl
  · split
    · rfl
    · dsimp only; split <;> simp

theorem mem_allRevisions_of_deleted {idx : KvIndexInternal} {hist : List Generation}
    {latest : Generation} (h : idx.generations = hist ++ [latest]) {R r : RevisionInternal}
    (hd : r ∈ compactDeletedSpec R hist latest) : r ∈ idx.allRevisions := by
  rw [allRevisions_of_split h, List.mem_append]
  rcases (mem_compactDeletedSpec.mp hd).2 with hr | ⟨-, hr⟩
  · exact .inl hr
  · exact .inr (List.dropLast_subset _ hr)

/-- Compaction erases only revisions its key's index records. -/
theorem kvCompactApply_kvRevMap_of_not_mem {s : KvControl} {key : Bytes}
    (hw : ∀ idx, s.getRawKvIndex key = some idx → WellFormed idx) (R : RevisionInternal)
    {r : RevisionInternal} (hr : ∀ idx, s.getRawKvIndex key = some idx → r ∉ idx.allRevisions) :
    (kvCompactApply s key R).2.kvRevMap r = s.kvRevMap r := by
  cases hget : s.getRawKvIndex key with
  | none => simp only [kvCompactApply, hget]
  | some idx =>
    obtain ⟨hist, latest, hsplit⟩ := exists_split (hw idx hget).nonempty
    rw [kvCompactApply_kvRevMap hget (hw idx hget) hsplit,
      if_neg fun hd => hr idx hget (mem_allRevisions_of_deleted hsplit hd)]

/-! ## The invariant is kept -/

theorem consistent_init (flags : Flags) (leases : Int → Bool) :
    Consistent { flags, kvLeaseMap := leases } where
  id_eq _ _ h := by simp [KvControl.getRawKvIndex] at h
  wellFormed _ _ h := by simp [KvControl.getRawKvIndex] at h
  rev_of_index _ _ h := by simp [KvControl.getRawKvIndex] at h
  live_rev _ _ h := by simp [KvControl.getRawKvIndex] at h

theorem fresh_init (flags : Flags) (leases : Int → Bool) (op : RevisionInternal) :
    Fresh { flags, kvLeaseMap := leases } op :=
  ⟨fun _ _ h => (nomatch h), fun _ _ h => by simp [KvControl.getRawKvIndex] at h⟩

variable {s : KvControl} {op : RevisionInternal}

/-- **`KvPutApply` at a fresh revision** writes its index and `KvRevInternal`, or nothing. -/
theorem Consistent.kvPutApply_writeAt (hc : Consistent s) (hf : Fresh s op) (key : Bytes)
    (il : Bool) (lid : Int) (iv : Bool) (v : Bytes) :
    (kvPutApply s key op il lid iv v).2.1 = s ∨ ∃ newIdx kr, WriteAt s op key newIdx kr ∧
      (kvPutApply s key op il lid iv v).2.1 = (s.putRawKvIndex key newIdx).putRawKvRev op kr := by
  rcases kvPutApply_state s key op il lid iv v with h | ⟨kvRevLast, h⟩
  · exact .inl h
  refine .inr ⟨_, _, ?_, h⟩
  cases hget : s.getRawKvIndex key with
  | none =>
    exact ⟨rfl, wellFormed_start key op, rfl, rfl, by simp [putKvIndex, Generation.start],
      by simp [Generation.start, putKvIndex, putKvRev]⟩
  | some idx =>
    have hw := hc.wellFormed key idx hget
    obtain ⟨hist, latest, hsplit⟩ := exists_split hw.nonempty
    rw [putKvIndex_some hsplit]
    refine ⟨hc.id_eq key idx hget, hw.put hsplit (hf.2 key idx hget).2, rfl, rfl, ?_, ?_⟩
    · intro r hr
      have : r ∈ idx.allRevisions ∨ r = op := by
        simpa [allRevisions_of_split hsplit, or_assoc] using hr
      exact this.elim (fun h => .inr ⟨idx, hget, h⟩) .inl
    · intro g hg _
      simp only [List.getLast?_concat, Option.mem_def, Option.some.injEq] at hg
      subst hg
      obtain ⟨c, hc⟩ := Option.isSome_iff_exists.mp
        (Generation.isLive_iff.mp (putGeneration_isLive latest op)).1
      exact ⟨rfl, by simp [putKvRev, hc], rfl⟩

/-- **`KvDeleteApply` at a fresh revision** writes its index and `KvRevInternal`, or nothing. -/
theorem Consistent.kvDeleteApply_writeAt (hc : Consistent s) (hf : Fresh s op) (key : Bytes) :
    (kvDeleteApply s key op).2.1 = s ∨ ∃ newIdx kr, WriteAt s op key newIdx kr ∧
      (kvDeleteApply s key op).2.1 = (s.putRawKvIndex key newIdx).putRawKvRev op kr := by
  rcases kvDeleteApply_state s key op with h | ⟨idx, hget, h⟩
  · exact .inl h
  refine .inr ⟨_, _, ?_, h⟩
  have hw := hc.wellFormed key idx hget
  obtain ⟨hist, latest, hsplit⟩ := exists_split hw.nonempty
  have hold : ∀ r ∈ idx.allRevisions,
      r = op ∨ ∃ idx', s.getRawKvIndex key = some idx' ∧ r ∈ idx'.allRevisions :=
    fun r hr => .inr ⟨idx, hget, hr⟩
  by_cases ho : latest.createRevision.isSome
  · rw [deleteKvIndex_open hsplit ho]
    refine ⟨hc.id_eq key idx hget, hw.deleteOpen hsplit ho (hf.2 key idx hget).2, rfl, rfl,
      fun r hr => ?_, by simp [List.getLast?_concat, Generation.isLive]⟩
    have : r ∈ idx.allRevisions ∨ r = op := by
      simpa [allRevisions_of_split hsplit, closeGeneration, or_assoc] using hr
    exact this.elim (hold r) .inl
  · have ht : latest.createRevision = none := by simpa using ho
    rw [deleteKvIndex_tombstone hsplit ht]
    have hnl : ¬ latest.isLive := by simp [Generation.isLive, ht]
    exact ⟨hc.id_eq key idx hget, hw.deleteTombstone hsplit ht (hf.2 key idx hget).2, rfl, rfl,
      hold, by simp [hsplit, List.getLast?_concat, hnl]⟩

/-- **Writing an index and a fresh `KvRevInternal`** keeps the invariant. -/
theorem Consistent.write (hc : Consistent s) (hf : Fresh s op) {key : Bytes}
    {newIdx : KvIndexInternal} {kr : KvRevInternal} (hw : WriteAt s op key newIdx kr) :
    Consistent ((s.putRawKvIndex key newIdx).putRawKvRev op kr) := by
  have hold : ∀ k idx, s.getRawKvIndex k = some idx → ∀ r ∈ idx.allRevisions, r ≠ op :=
    fun k idx h r hr => ((hf.2 k idx h).2 r hr).ne
  constructor
  · intro k idx h
    rw [getRawKvIndex_write] at h
    split_ifs at h with hk
    · cases h; exact hk ▸ hw.id_eq
    · exact hc.id_eq k idx h
  · intro k idx h
    rw [getRawKvIndex_write] at h
    split_ifs at h with hk
    · cases h; exact hw.wellFormed
    · exact hc.wellFormed k idx h
  · intro k idx h r hr
    rw [getRawKvIndex_write] at h
    split_ifs at h with hk
    · cases h
      rcases hw.revisions r hr with rfl | ⟨idx, hidx, hr'⟩
      · exact ⟨kr, by simp, hk ▸ hw.kr_id⟩
      · obtain ⟨kr', h1, h2⟩ := hc.rev_of_index key idx hidx r hr'
        exact ⟨kr', by simp [hold key idx hidx r hr', h1], hk ▸ h2⟩
    · obtain ⟨kr', h1, h2⟩ := hc.rev_of_index k idx h r hr
      exact ⟨kr', by simp [hold k idx h r hr, h1], h2⟩
  · intro k idx h g hg hl
    rw [getRawKvIndex_write] at h
    split_ifs at h with hk
    · cases h
      exact ⟨kr, by simp [hw.mod_eq], hw.live g hg hl⟩
    · obtain ⟨kr', h1, h2, h3, h4⟩ := hc.live_rev k idx h g hg hl
      exact ⟨kr', by simp [(hf.2 k idx h).1.ne, h1], h2, h3, h4⟩

/-- `KvPutApply` at a fresh revision keeps the invariant. -/
theorem Consistent.put (hc : Consistent s) (hf : Fresh s op) (key : Bytes) (il : Bool) (lid : Int)
    (iv : Bool) (v : Bytes) : Consistent (kvPutApply s key op il lid iv v).2.1 := by
  rcases hc.kvPutApply_writeAt hf key il lid iv v with h | ⟨_, _, hw, h⟩ <;> rw [h]
  exacts [hc, hc.write hf hw]

/-- `KvDeleteApply` at a fresh revision keeps the invariant. -/
theorem Consistent.delete (hc : Consistent s) (hf : Fresh s op) (key : Bytes) :
    Consistent (kvDeleteApply s key op).2.1 := by
  rcases hc.kvDeleteApply_writeAt hf key with h | ⟨_, _, hw, h⟩ <;> rw [h]
  exacts [hc, hc.write hf hw]

/-- Two keys share no revision. -/
theorem Consistent.key_eq_of_mem (hc : Consistent s) {k k' : Bytes} {idx idx' : KvIndexInternal}
    (h : s.getRawKvIndex k = some idx) (h' : s.getRawKvIndex k' = some idx')
    {r : RevisionInternal} (hr : r ∈ idx.allRevisions) (hr' : r ∈ idx'.allRevisions) : k = k' := by
  obtain ⟨kr, h1, h2⟩ := hc.rev_of_index k idx h r hr
  obtain ⟨kr', h1', h2'⟩ := hc.rev_of_index k' idx' h' r hr'
  rw [h1, Option.some.injEq] at h1'
  rw [← h2, ← h2', h1']

theorem compactLatestSpec_verison (R : RevisionInternal) (latest : Generation) :
    (compactLatestSpec R latest).verison = latest.verison := by
  unfold compactLatestSpec; split <;> rfl

/-- A live key's `mod_revision` is one of its revisions. -/
theorem WellFormed.mod_mem {idx : KvIndexInternal} (hw : WellFormed idx) {g : Generation}
    (hg : g ∈ idx.generations.getLast?) (hl : g.isLive) : idx.modRevision ∈ idx.allRevisions :=
  List.mem_flatMap.mpr ⟨g, List.mem_of_getLast?_eq_some hg,
    List.mem_of_getLast?_eq_some (hw.latest_mod g hg hl)⟩

/-- The final revision of a live latest generation survives compaction. -/
theorem mod_mem_compactSpec {idx : KvIndexInternal} (hw : WellFormed idx) {hist : List Generation}
    {latest : Generation} (h : idx.generations = hist ++ [latest]) (hl : latest.isLive)
    (R : RevisionInternal) : idx.modRevision ∈ (compactSpec R hist latest).flatMap (·.revisions) := by
  have hm := hw.latest_mod latest (by simp [h]) hl
  obtain ⟨c, hc⟩ := Option.isSome_iff_exists.mp (Generation.isLive_iff.mp hl).1
  have hne : compactSpec R hist latest ≠ [] := by simp [compactSpec, hc]
  rw [compactSpec_of_ne_nil hne, List.flatMap_append, List.flatMap_singleton]
  exact List.mem_append_right _
    (List.mem_of_getLast?_eq_some ((compactLatestSpec_getLast? R latest).trans hm))

/-- `KvCompactApply` keeps the invariant. -/
theorem Consistent.compact (hc : Consistent s) (key : Bytes) (R : RevisionInternal) :
    Consistent (kvCompactApply s key R).2 := by
  cases hget : s.getRawKvIndex key with
  | none => simp only [kvCompactApply, hget]; exact hc
  | some idx =>
    have hw := hc.wellFormed key idx hget
    obtain ⟨hist, latest, hsplit⟩ := exists_split hw.nonempty
    have hget' := kvCompactApply_getRawKvIndex hget hw hsplit R
    have hrev := kvCompactApply_kvRevMap hget hw hsplit R
    set spec := compactSpec R hist latest with hspec
    set D := compactDeletedSpec R hist latest
    have hother : ∀ k idx', s.getRawKvIndex k = some idx' → k ≠ key → ∀ r ∈ idx'.allRevisions,
        r ∉ D := fun k idx' h hk r hr hd =>
      hk (hc.key_eq_of_mem h hget hr (mem_allRevisions_of_deleted hsplit hd))
    have hkept : ∀ r ∈ spec.flatMap (·.revisions), r ∉ D ∧ r ∈ idx.allRevisions := fun r hr =>
      ⟨fun hd => not_mem_compactSpec_of_deleted hw hsplit hd hr,
        by rw [allRevisions_of_split hsplit]; exact (compactSpec_sublist R hist latest).subset hr⟩
    constructor
    · intro k idx' h
      rw [hget'] at h
      split_ifs at h with hk hne
      · cases h; exact hk ▸ hc.id_eq key idx hget
      · exact hc.id_eq k idx' h
    · intro k idx' h
      rw [hget'] at h
      split_ifs at h with hk hne
      · cases h; exact wellFormed_compactSpec hw hsplit R hne
      · exact hc.wellFormed k idx' h
    · intro k idx' h r hr
      rw [hget'] at h
      split_ifs at h with hk hne
      · cases h
        obtain ⟨hd, hr'⟩ := hkept r hr
        obtain ⟨kr, h1, h2⟩ := hc.rev_of_index key idx hget r hr'
        exact ⟨kr, by rw [hrev, if_neg hd, h1], hk ▸ h2⟩
      · obtain ⟨kr, h1, h2⟩ := hc.rev_of_index k idx' h r hr
        exact ⟨kr, by rw [hrev, if_neg (hother k idx' h hk r hr), h1], h2⟩
    · intro k idx' h g hg hl
      rw [hget'] at h
      split_ifs at h with hk hne
      · cases h
        simp only [hspec, compactSpec_of_ne_nil (hspec ▸ hne : compactSpec R hist latest ≠ []),
          List.getLast?_concat, Option.mem_def, Option.some.injEq] at hg
        subst hg
        have hl' : latest.isLive := by rwa [compactLatestSpec_isLive] at hl
        obtain ⟨kr, h1, h2, h3, h4⟩ := hc.live_rev key idx hget latest (by simp [hsplit]) hl'
        refine ⟨kr, ?_, h2, by rw [h3, compactLatestSpec_createRevision],
          by rw [h4, compactLatestSpec_verison]⟩
        rw [hrev, if_neg (hkept _ (mod_mem_compactSpec hw hsplit hl' R)).1, h1]
      · obtain ⟨kr, h1, h2, h3, h4⟩ := hc.live_rev k idx' h g hg hl
        have hm := (hc.wellFormed k idx' h).mod_mem hg hl
        exact ⟨kr, by rw [hrev, if_neg (hother k idx' h hk _ hm), h1], h2, h3, h4⟩

/-- Each admissible call keeps the invariant. -/
theorem Consistent.step (hc : Consistent s) (st : ApplyStep) (ha : st.Admissible s) :
    Consistent (st.apply s) := by
  cases st with
  | put key op il lid iv v => exact hc.put ha key il lid iv v
  | delete key op => exact hc.delete ha key
  | compact key R => exact hc.compact key R

/-- Every reachable state is consistent. -/
theorem Reachable.consistent {s : KvControl} (hs : Reachable s) : Consistent s := by
  induction hs with
  | init flags leases => exact consistent_init flags leases
  | step st _ ha ih => exact ih.step st ha

/-! ## Fresh revisions along a run -/

theorem Fresh.mono (hf : Fresh s op) {op' : RevisionInternal} (h : op ≤ op') : Fresh s op' :=
  ⟨fun r kr hr => (hf.1 r kr hr).trans_le h,
    fun k idx hk => ⟨(hf.2 k idx hk).1.trans_le h, fun r hr => ((hf.2 k idx hk).2 r hr).trans_le h⟩⟩

theorem Fresh.write (hf : Fresh s op) {key : Bytes} {newIdx : KvIndexInternal} {kr : KvRevInternal}
    (hw : WriteAt s op key newIdx kr) {op' : RevisionInternal} (hop : op < op') :
    Fresh ((s.putRawKvIndex key newIdx).putRawKvRev op kr) op' := by
  refine ⟨fun r kr' h => ?_, fun k idx h => ?_⟩
  · rw [kvRevMap_write] at h
    split_ifs at h with hr
    · exact hr ▸ hop
    · exact (hf.1 r kr' h).trans hop
  · rw [getRawKvIndex_write] at h
    split_ifs at h with hk
    · cases h
      refine ⟨hw.mod_eq ▸ hop, fun r hr => ?_⟩
      rcases hw.revisions r hr with rfl | ⟨idx, hidx, hr'⟩
      · exact hop
      · exact ((hf.2 key idx hidx).2 r hr').trans hop
    · exact (hf.mono hop.le).2 k idx h

theorem Consistent.fresh_put (hc : Consistent s) (hf : Fresh s op) {op' : RevisionInternal}
    (hop : op < op') (key : Bytes) (il : Bool) (lid : Int) (iv : Bool) (v : Bytes) :
    Fresh (kvPutApply s key op il lid iv v).2.1 op' := by
  rcases hc.kvPutApply_writeAt hf key il lid iv v with h | ⟨_, _, hw, h⟩ <;> rw [h]
  exacts [hf.mono hop.le, hf.write hw hop]

theorem Consistent.fresh_delete (hc : Consistent s) (hf : Fresh s op) {op' : RevisionInternal}
    (hop : op < op') (key : Bytes) : Fresh (kvDeleteApply s key op).2.1 op' := by
  rcases hc.kvDeleteApply_writeAt hf key with h | ⟨_, _, hw, h⟩ <;> rw [h]
  exacts [hf.mono hop.le, hf.write hw hop]

/-- Compaction stores no new revision. -/
theorem Consistent.fresh_compact (hc : Consistent s) (hf : Fresh s op) (key : Bytes)
    (R : RevisionInternal) : Fresh (kvCompactApply s key R).2 op := by
  cases hget : s.getRawKvIndex key with
  | none => simp only [kvCompactApply, hget]; exact hf
  | some idx =>
    have hw := hc.wellFormed key idx hget
    obtain ⟨hist, latest, hsplit⟩ := exists_split hw.nonempty
    refine ⟨fun r kr h => ?_, fun k idx' h => ?_⟩
    · rw [kvCompactApply_kvRevMap hget hw hsplit] at h
      split_ifs at h
      exact hf.1 r kr h
    · rw [kvCompactApply_getRawKvIndex hget hw hsplit] at h
      split_ifs at h with hk
      · cases h
        refine ⟨(hf.2 key idx hget).1, fun r hr => (hf.2 key idx hget).2 r ?_⟩
        rw [allRevisions_of_split hsplit]
        exact (compactSpec_sublist R hist latest).subset hr
      · exact hf.2 k idx' h

/-! ## Every reachable index is well formed -/

/-- **The store invariant, spelled out**: in every reachable state each index is well formed,
each revision of a generation of `k` holds a `KvRevInternal` of `k`, and the one at the last
revision of an open latest generation is not deleted and carries its `create_revision` and
version. -/
theorem reachable_wellFormed {s : KvControl} (hs : Reachable s) :
    ∀ k idx, s.getRawKvIndex k = some idx → WellFormed idx ∧
      (∀ r ∈ idx.allRevisions, ∃ kr, s.kvRevMap r = some kr ∧ kr.kv.id = k) ∧
      ∀ g ∈ idx.generations.getLast?, g.createRevision.isSome → ∀ r ∈ g.revisions.getLast?,
        ∃ kr, s.kvRevMap r = some kr ∧ kr.kv.isDeleted = false ∧
          some kr.kv.createRevision = g.createRevision ∧ kr.kv.version = g.verison := by
  intro k idx h
  have hc := hs.consistent
  have hw := hc.wellFormed k idx h
  refine ⟨hw, hc.rev_of_index k idx h, fun g hg ho r hr => ?_⟩
  have hl := hw.isLive_of_open (List.mem_of_getLast?_eq_some hg) ho
  rw [hw.latest_mod g hg hl, Option.mem_def, Option.some.injEq] at hr
  exact hr ▸ hc.live_rev k idx h g hg hl

theorem reachable_wellFormed_reopen :
    let s := ApplyStep.run { kvLeaseMap := fun _ => false }
      [.put [1] ⟨1, 0⟩ false 0 false [7], .put [1] ⟨2, 0⟩ false 0 false [8], .delete [1] ⟨3, 0⟩,
        .compact [1] ⟨2, 0⟩, .put [1] ⟨4, 0⟩ false 0 false [9]]
    Reachable s ∧ ∀ k idx, s.getRawKvIndex k = some idx → WellFormed idx ∧
      (∀ r ∈ idx.allRevisions, ∃ kr, s.kvRevMap r = some kr ∧ kr.kv.id = k) ∧
      ∀ g ∈ idx.generations.getLast?, g.createRevision.isSome → ∀ r ∈ g.revisions.getLast?,
        ∃ kr, s.kvRevMap r = some kr ∧ kr.kv.isDeleted = false ∧
          some kr.kv.createRevision = g.createRevision ∧ kr.kv.version = g.verison := by
  intro s
  have c0 := consistent_init {} fun _ => false
  have f1 := fresh_init {} (fun _ => false) ⟨1, 0⟩
  have f2 := c0.fresh_put f1 (by decide : (⟨1, 0⟩ : RevisionInternal) < ⟨2, 0⟩) [1] false 0 false [7]
  have c1 := c0.put f1 [1] false 0 false [7]
  have f3 := c1.fresh_put f2 (by decide : (⟨2, 0⟩ : RevisionInternal) < ⟨3, 0⟩) [1] false 0 false [8]
  have c2 := c1.put f2 [1] false 0 false [8]
  have f4 := (c2.delete f3 [1]).fresh_compact
    (c2.fresh_delete f3 (by decide : (⟨3, 0⟩ : RevisionInternal) < ⟨4, 0⟩) [1]) [1] ⟨2, 0⟩
  have hs : Reachable s := .step (.put [1] ⟨4, 0⟩ false 0 false [9]) (.step (.compact [1] ⟨2, 0⟩)
    (.step (.delete [1] ⟨3, 0⟩) (.step (.put [1] ⟨2, 0⟩ false 0 false [8])
      (.step (.put [1] ⟨1, 0⟩ false 0 false [7]) (.init _ _) f1) f2) f3) trivial) f4
  exact ⟨hs, reachable_wellFormed hs⟩

/-- The run of `reachable_wellFormed_reopen` leaves `[1]` with a closed generation, compacted
below `(2,0)` and ended by the delete, and an open one. -/
example :
    (ApplyStep.run { kvLeaseMap := fun _ => false }
      [.put [1] ⟨1, 0⟩ false 0 false [7], .put [1] ⟨2, 0⟩ false 0 false [8], .delete [1] ⟨3, 0⟩,
        .compact [1] ⟨2, 0⟩, .put [1] ⟨4, 0⟩ false 0 false [9]]).getRawKvIndex [1] =
      some { id := [1], modRevision := ⟨4, 0⟩, generations :=
        [{ createRevision := some ⟨1, 0⟩, revisions := [⟨2, 0⟩, ⟨3, 0⟩], verison := 3 },
          { createRevision := some ⟨4, 0⟩, revisions := [⟨4, 0⟩], verison := 1 }] } := by
  decide

/-! ## A delete behind a tombstone -/

/-- A delete of a key whose latest generation is a tombstone writes a `KvRevInternal` of the key
at `op` that no generation of any key records. -/
theorem Consistent.kvDeleteApply_unrecorded (hc : Consistent s) (hf : Fresh s op) {key : Bytes}
    {idx : KvIndexInternal} (hget : s.getRawKvIndex key = some idx)
    (ht : ∀ g ∈ idx.generations.getLast?, g.IsTombstone) :
    (∃ kr, (kvDeleteApply s key op).2.1.kvRevMap op = some kr ∧ kr.kv.id = key) ∧
      ∀ k idx', (kvDeleteApply s key op).2.1.getRawKvIndex k = some idx' →
        op ∉ idx'.allRevisions := by
  obtain ⟨hist, latest, hsplit⟩ := exists_split (hc.wellFormed key idx hget).nonempty
  have hs : (kvDeleteApply s key op).2.1 =
      (s.putRawKvIndex key (deleteKvIndex idx op).kvIndex).putRawKvRev op
        (deleteKvRev key op (deleteKvIndex idx op)) := by
    simp only [kvDeleteApply, hget]
  rw [hs, deleteKvIndex_tombstone hsplit (ht latest (by simp [hsplit])).1]
  refine ⟨⟨_, (kvRevMap_write _ _ _ _ _ _).trans (if_pos rfl), rfl⟩, fun k idx' h hr => ?_⟩
  rw [getRawKvIndex_write] at h
  split_ifs at h with hk
  · cases h; exact lt_irrefl op ((hf.2 key idx hget).2 op hr)
  · exact lt_irrefl op ((hf.2 k idx' h).2 op hr)

/-- **A delete behind a tombstone leaks**: in a reachable state, a delete at a fresh revision of a key
whose latest generation is a tombstone leaves a reachable state with a `KvRevInternal` of the key
at `op` that no generation records and that no compaction of any key erases. -/
theorem tombstone_delete_leaks_kvRev (hs : Reachable s) (hf : Fresh s op) {key : Bytes}
    {idx : KvIndexInternal} (hget : s.getRawKvIndex key = some idx)
    (ht : ∀ g ∈ idx.generations.getLast?, g.IsTombstone) :
    Reachable (kvDeleteApply s key op).2.1 ∧
      (∃ kr, (kvDeleteApply s key op).2.1.kvRevMap op = some kr ∧ kr.kv.id = key) ∧
      (∀ k idx', (kvDeleteApply s key op).2.1.getRawKvIndex k = some idx' →
        op ∉ idx'.allRevisions) ∧
      ∀ k R, (kvCompactApply (kvDeleteApply s key op).2.1 k R).2.kvRevMap op =
        (kvDeleteApply s key op).2.1.kvRevMap op := by
  have hr : Reachable (kvDeleteApply s key op).2.1 := .step (.delete key op) hs hf
  obtain ⟨hkr, hnot⟩ := hs.consistent.kvDeleteApply_unrecorded hf hget ht
  exact ⟨hr, hkr, hnot, fun k R =>
    kvCompactApply_kvRevMap_of_not_mem (hr.consistent.wellFormed k) R (hnot k)⟩

/-- Put `[1]` at `(1,0)`, then delete it at `(2,0)` and again at `(3,0)`. -/
theorem double_delete_leaks_kvRev :
    let s := (kvDeleteApply (kvPutApply { kvLeaseMap := fun _ => false } [1] ⟨1, 0⟩
      false 0 false [7]).2.1 [1] ⟨2, 0⟩).2.1
    let idx : KvIndexInternal := { id := [1], modRevision := ⟨2, 0⟩, generations :=
      [{ createRevision := some ⟨1, 0⟩, revisions := [⟨1, 0⟩, ⟨2, 0⟩], verison := 2 }, {}] }
    (Reachable s ∧ Fresh s ⟨3, 0⟩ ∧ s.getRawKvIndex [1] = some idx ∧
      ∀ g ∈ idx.generations.getLast?, g.IsTombstone) ∧
    Reachable (kvDeleteApply s [1] ⟨3, 0⟩).2.1 ∧
      (∃ kr, (kvDeleteApply s [1] ⟨3, 0⟩).2.1.kvRevMap ⟨3, 0⟩ = some kr ∧ kr.kv.id = [1]) ∧
      (∀ k idx', (kvDeleteApply s [1] ⟨3, 0⟩).2.1.getRawKvIndex k = some idx' →
        ⟨3, 0⟩ ∉ idx'.allRevisions) ∧
      ∀ k R, (kvCompactApply (kvDeleteApply s [1] ⟨3, 0⟩).2.1 k R).2.kvRevMap ⟨3, 0⟩ =
        (kvDeleteApply s [1] ⟨3, 0⟩).2.1.kvRevMap ⟨3, 0⟩ := by
  intro s idx
  have h0 := consistent_init {} fun _ => false
  have f1 := fresh_init {} (fun _ => false) ⟨1, 0⟩
  have f2 := h0.fresh_put f1 (by decide : (⟨1, 0⟩ : RevisionInternal) < ⟨2, 0⟩) [1] false 0 false [7]
  have f3 := (h0.put f1 [1] false 0 false [7]).fresh_delete f2
    (by decide : (⟨2, 0⟩ : RevisionInternal) < ⟨3, 0⟩) [1]
  have hs : Reachable s := .step (.delete [1] ⟨2, 0⟩) (.step (.put [1] ⟨1, 0⟩ false 0 false [7])
    (.init _ _) f1) f2
  have hget : s.getRawKvIndex [1] = some idx := by decide
  have ht : ∀ g ∈ idx.generations.getLast?, g.IsTombstone := by simp [idx, Generation.IsTombstone]
  exact ⟨⟨hs, f3, hget, ht⟩, tombstone_delete_leaks_kvRev hs f3 hget ht⟩

end DingoKv
