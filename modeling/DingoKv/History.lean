import DingoKv.Read

/-!
# Runs of the apply engine: compaction twice, and the generations of a key

* `compact_compact` (`kv_control_kv.cc:914-1027`): in a reachable state, compacting a key at
  `R1` and then at `R2` leaves both maps as one compaction at the later cut does. It rests on
  `compactSpec_compactSpec` and `mem_compactDeletedSpec_compose`: the filters compose, and what
  the two erase together is what the one erases.
* `same_generation_iff_no_delete`: over a run from empty maps whose op revisions strictly
  increase, two put revisions of a key that its index still holds share a generation iff no
  delete of the key falls between them.

The second is a run invariant with the run itself as ghost state. `GenShape P D idx` says how the
generations of an index sit against the put revisions `P` and delete revisions `D` of its key: a
put revision is in the latest generation iff no delete follows it, and two put revisions share a
generation iff no delete falls between them. Each step keeps it (`GenShape.put`,
`GenShape.deleteOpen`, `GenShape.deleteTombstone`, `GenShape.compact`); `RunInv` adds that the
state stores only op revisions of the run, which makes each next op revision fresh
(`RunInv.fresh`), and `runInv_run` carries it along the run.
-/

namespace DingoKv

variable {s : KvControl}

/-! ## Two compactions of one key -/

theorem kvCompactApply_of_none {key : Bytes} (h : s.getRawKvIndex key = none) (R : RevisionInternal) :
    (kvCompactApply s key R).2 = s := by
  simp only [kvCompactApply, h]

/-- **Two compactions are one at the later cut**: compacting `key` at `R1` and then at `R2`
leaves `kv_index_map_` and `kv_rev_map_` as compacting it once at `R` with
`R.main = max R1.main R2.main`. -/
theorem compact_compact (hs : Reachable s) (key : Bytes) (R1 R2 R : RevisionInternal)
    (hR : R.main = max R1.main R2.main) :
    (kvCompactApply (kvCompactApply s key R1).2 key R2).2.kvIndexMap =
        (kvCompactApply s key R).2.kvIndexMap ∧
      (kvCompactApply (kvCompactApply s key R1).2 key R2).2.kvRevMap =
        (kvCompactApply s key R).2.kvRevMap := by
  have hc := hs.consistent
  cases hget : s.getRawKvIndex key with
  | none => simp only [kvCompactApply_of_none hget, and_self]
  | some idx =>
    have hw := hc.wellFormed key idx hget
    obtain ⟨hist, latest, hsplit⟩ := exists_split hw.nonempty
    have hget1 := kvCompactApply_getRawKvIndex hget hw hsplit R1 key
    rw [if_pos rfl] at hget1
    by_cases h1 : compactSpec R1 hist latest = []
    · rw [if_pos h1] at hget1
      have hnil : hist.filterMap (compactHistorySpec R1) = [] ∧ latest.createRevision = none := by
        unfold compactSpec at h1
        split_ifs at h1 with hc1
        · exact ⟨hc1.2, by simpa using hc1.1⟩
        · simp at h1
      have hD2 : ∀ r, r ∉ compactDeletedSpec R2 (hist.filterMap (compactHistorySpec R1))
          (compactLatestSpec R1 latest) := fun r hr => by
        simp [mem_compactDeletedSpec, hnil.1, compactLatestSpec_createRevision, hnil.2] at hr
      rw [kvCompactApply_of_none hget1, kvCompactApply_eq hget hw hsplit R1,
        kvCompactApply_eq hget hw hsplit R, if_pos h1, if_pos (compactSpec_eq_nil_of_compose hR h1)]
      refine ⟨by simp, funext fun r => ?_⟩
      simp only [deleteRevisions_kvRevMap, KvControl.deleteRawKvIndex_kvRevMap,
        ← mem_compactDeletedSpec_compose hR, hD2 r, or_false]
    · rw [if_neg h1] at hget1
      have hw1 := wellFormed_compactSpec hw hsplit R1 h1
      rw [kvCompactApply_eq hget1 hw1 (compactSpec_of_ne_nil h1) R2, compactSpec_compactSpec hR,
        kvCompactApply_eq hget hw hsplit R1, kvCompactApply_eq hget hw hsplit R, if_neg h1]
      constructor
      · split_ifs <;> simp
      · funext r
        simp only [deleteRevisions_kvRevMap, apply_ite KvControl.kvRevMap, KvControl.putRawKvIndex_kvRevMap,
          KvControl.deleteRawKvIndex_kvRevMap, ite_self, ← mem_compactDeletedSpec_compose hR]
        by_cases hr1 : r ∈ compactDeletedSpec R1 hist latest <;> simp [hr1]

theorem compact_compact_put_put :
    let s := (kvPutApply (kvPutApply { kvLeaseMap := fun _ => false } [1] ⟨1, 0⟩ false 0 false [7]).2.1
      [1] ⟨2, 0⟩ false 0 false [8]).2.1
    (Reachable s ∧ (⟨3, 0⟩ : RevisionInternal).main = max (⟨2, 0⟩ : RevisionInternal).main 3) ∧
      (kvCompactApply (kvCompactApply s [1] ⟨2, 0⟩).2 [1] ⟨3, 0⟩).2.kvIndexMap =
          (kvCompactApply s [1] ⟨3, 0⟩).2.kvIndexMap ∧
        (kvCompactApply (kvCompactApply s [1] ⟨2, 0⟩).2 [1] ⟨3, 0⟩).2.kvRevMap =
          (kvCompactApply s [1] ⟨3, 0⟩).2.kvRevMap := by
  intro s
  have f1 := fresh_init {} (fun _ => false) ⟨1, 0⟩
  have f2 := (consistent_init {} fun _ => false).fresh_put f1
    (by decide : (⟨1, 0⟩ : RevisionInternal) < ⟨2, 0⟩) [1] false 0 false [7]
  have hs : Reachable s := .step (.put [1] ⟨2, 0⟩ false 0 false [8])
    (.step (.put [1] ⟨1, 0⟩ false 0 false [7]) (.init _ _) f1) f2
  exact ⟨⟨hs, by decide⟩, compact_compact hs [1] ⟨2, 0⟩ ⟨3, 0⟩ ⟨3, 0⟩ (by decide)⟩

/-! ## The generation structure against the history of a run -/

/-- Two revisions lie in one generation of the index. -/
def SameGeneration (idx : KvIndexInternal) (r1 r2 : RevisionInternal) : Prop :=
  ∃ g ∈ idx.generations, r1 ∈ g.revisions ∧ r2 ∈ g.revisions

/-- The generations of an index against the put revisions `P` and delete revisions `D` of its
key: a put revision is in the latest generation iff no delete follows it, and two put revisions
share a generation iff no delete falls between them. -/
structure GenShape (P D : List RevisionInternal) (idx : KvIndexInternal) : Prop where
  latest : ∀ g ∈ idx.generations.getLast?, ∀ r ∈ idx.allRevisions, r ∈ P →
    (r ∈ g.revisions ↔ ¬ ∃ d ∈ D, r < d)
  same : ∀ r1 ∈ idx.allRevisions, ∀ r2 ∈ idx.allRevisions, r1 ∈ P → r2 ∈ P → r1 < r2 →
    (SameGeneration idx r1 r2 ↔ ¬ ∃ d ∈ D, r1 < d ∧ d < r2)

theorem sameGeneration_split {idx : KvIndexInternal} {hist : List Generation} {latest : Generation}
    (h : idx.generations = hist ++ [latest]) (r1 r2 : RevisionInternal) :
    SameGeneration idx r1 r2 ↔
      (∃ g ∈ hist, r1 ∈ g.revisions ∧ r2 ∈ g.revisions) ∨
        (r1 ∈ latest.revisions ∧ r2 ∈ latest.revisions) := by
  simp [SameGeneration, h, or_and_right, exists_or]

theorem WellFormed.hist_lt_latest {idx : KvIndexInternal} (hw : WellFormed idx)
    {hist : List Generation} {latest : Generation} (h : idx.generations = hist ++ [latest])
    {x y : RevisionInternal} (hx : x ∈ hist.flatMap (·.revisions)) (hy : y ∈ latest.revisions) :
    x < y := by
  have hs := hw.sorted_split h
  rw [List.Sorted, List.pairwise_append] at hs
  exact hs.2.2 x hx y hy

variable {P D : List RevisionInternal} {idx : KvIndexInternal} {hist : List Generation}
  {latest : Generation} {op : RevisionInternal}

theorem GenShape.of_puts {P' : List RevisionInternal} (hs : GenShape P D idx)
    (hP : ∀ r ∈ idx.allRevisions, r ∈ P' → r ∈ P) : GenShape P' D idx :=
  ⟨fun g hg r hr hp => hs.latest g hg r hr (hP r hr hp),
    fun r1 h1 r2 h2 hp1 hp2 => hs.same r1 h1 r2 h2 (hP r1 h1 hp1) (hP r2 h2 hp2)⟩

/-- A key's first put. -/
theorem genShape_start (P D : List RevisionInternal) (key : Bytes) (hD : ∀ d ∈ D, d < op) :
    GenShape P D { id := key, modRevision := op, generations := [.start op] } where
  latest g hg r hr _ := by
    simp only [List.getLast?_singleton, Option.mem_def, Option.some.injEq] at hg
    simp only [allRevisions_mk, List.flatMap_singleton, Generation.start, List.mem_singleton] at hr
    subst hg hr
    simpa [Generation.start] using fun d hd => (hD d hd).le
  same r1 h1 r2 h2 _ _ h12 := by
    simp only [allRevisions_mk, List.flatMap_singleton, Generation.start, List.mem_singleton] at h1 h2
    subst h1 h2
    exact absurd h12 (lt_irrefl _)

/-- A put appended to the latest generation. -/
theorem GenShape.put {P' : List RevisionInternal} (hs : GenShape P D idx)
    (h : idx.generations = hist ++ [latest]) (hfresh : ∀ r ∈ idx.allRevisions, r < op)
    (hD : ∀ d ∈ D, d < op) (hP : ∀ r, r ∈ P' → r ∈ P ∨ r = op) :
    GenShape P' D { idx with generations := hist ++ [putGeneration latest op], modRevision := op } := by
  have hold : ∀ r, r ∈ (hist ++ [putGeneration latest op]).flatMap (·.revisions) → r ≠ op →
      r ∈ idx.allRevisions := by
    intro r hr hne
    simpa [allRevisions_of_split h, hne] using hr
  have hmem : ∀ r, r ≠ op → (r ∈ (putGeneration latest op).revisions ↔ r ∈ latest.revisions) :=
    fun r hne => by simp [hne]
  have hlatest := hs.latest latest (by simp [h])
  constructor
  · intro g hg r hr hp
    simp only [List.getLast?_concat, Option.mem_def, Option.some.injEq] at hg
    subst hg
    by_cases hro : r = op
    · subst hro
      simpa using fun d hd => (hD d hd).le
    · rw [hmem r hro]
      exact hlatest r (hold r hr hro) ((hP r hp).resolve_right hro)
  · intro r1 h1 r2 h2 hp1 hp2 h12
    have hne1 : r1 ≠ op := fun he => by
      rw [he] at h12
      by_cases h2o : r2 = op
      · exact lt_irrefl op (h2o ▸ h12)
      · exact lt_asymm h12 (hfresh r2 (hold r2 h2 h2o))
    have hr1 := hold r1 h1 hne1
    have hp1' := (hP r1 hp1).resolve_right hne1
    rw [sameGeneration_split rfl]
    by_cases h2o : r2 = op
    · subst h2o
      have hnh : ¬ ∃ g ∈ hist, r1 ∈ g.revisions ∧ r2 ∈ g.revisions := by
        rintro ⟨g, hg, -, h2g⟩
        have : r2 ∈ idx.allRevisions := by
          rw [allRevisions_of_split h]
          exact List.mem_append_left _ (List.mem_flatMap.mpr ⟨g, hg, h2g⟩)
        exact lt_irrefl _ (hfresh r2 this)
      rw [or_iff_right hnh, hmem r1 hne1, putGeneration_revisions, List.mem_append,
        List.mem_singleton, or_iff_right_of_imp (fun _ => rfl), and_iff_left rfl, hlatest r1 hr1 hp1']
      exact not_congr ⟨fun ⟨d, hd, h⟩ => ⟨d, hd, h, hD d hd⟩, fun ⟨d, hd, h, _⟩ => ⟨d, hd, h⟩⟩
    · rw [hmem r1 hne1, hmem r2 h2o, ← sameGeneration_split h]
      exact hs.same r1 hr1 r2 (hold r2 h2 h2o) hp1' ((hP r2 hp2).resolve_right h2o) h12

theorem exists_between_congr {D' : List RevisionInternal} (hD : ∀ d, d ∈ D' ↔ d ∈ D ∨ d = op)
    {r1 r2 : RevisionInternal} (h2 : r2 < op) :
    (∃ d ∈ D', r1 < d ∧ d < r2) ↔ ∃ d ∈ D, r1 < d ∧ d < r2 := by
  constructor
  · rintro ⟨d, hd, h1d, hd2⟩
    rcases (hD d).mp hd with hd | rfl
    · exact ⟨d, hd, h1d, hd2⟩
    · exact absurd (hd2.trans h2) (lt_irrefl _)
  · rintro ⟨d, hd, h1d, hd2⟩
    exact ⟨d, (hD d).mpr (.inl hd), h1d, hd2⟩

/-- A delete closing the open latest generation behind a tombstone. -/
theorem GenShape.deleteOpen {D' : List RevisionInternal} (hs : GenShape P D idx)
    (h : idx.generations = hist ++ [latest]) (hfresh : ∀ r ∈ idx.allRevisions, r < op)
    (hop : op ∉ P) (hD : ∀ d, d ∈ D' ↔ d ∈ D ∨ d = op) :
    GenShape P D' { idx with generations := hist ++ [closeGeneration latest op] ++ [{}],
                              modRevision := op } := by
  have hne : ∀ r ∈ P, r ≠ op := fun r hp he => hop (he ▸ hp)
  have hmem : ∀ r ∈ P, r ∈ (closeGeneration latest op).revisions ↔ r ∈ latest.revisions :=
    fun r hp => by simp [closeGeneration, hne r hp]
  have hold : ∀ r, r ∈ (hist ++ [closeGeneration latest op] ++ [({} : Generation)]).flatMap
      (·.revisions) → r ∈ P → r ∈ idx.allRevisions := fun r hr hp => by
    simpa [allRevisions_of_split h, closeGeneration, hne r hp] using hr
  constructor
  · intro g hg r hr hp
    simp only [List.getLast?_concat, Option.mem_def, Option.some.injEq] at hg
    subst hg
    simp only [List.not_mem_nil, false_iff, not_not]
    exact ⟨op, (hD op).mpr (.inr rfl), hfresh r (hold r hr hp)⟩
  · intro r1 h1 r2 h2 hp1 hp2 h12
    have hr2 := hold r2 h2 hp2
    refine Iff.trans ?_ ((hs.same r1 (hold r1 h1 hp1) r2 hr2 hp1 hp2 h12).trans
      (not_congr (exists_between_congr hD (hfresh r2 hr2)).symm))
    simp [SameGeneration, h, or_and_right, exists_or, hmem r1 hp1, hmem r2 hp2]

/-- A delete behind a tombstone: only `mod_revision` moves. -/
theorem GenShape.deleteTombstone {D' : List RevisionInternal} (hs : GenShape P D idx)
    (h : idx.generations = hist ++ [latest]) (ht : latest.IsTombstone)
    (hfresh : ∀ r ∈ idx.allRevisions, r < op) (hD : ∀ d, d ∈ D' ↔ d ∈ D ∨ d = op) :
    GenShape P D' { idx with modRevision := op } := by
  constructor
  · intro g hg r hr _
    have hgl : g = latest := by simpa [h] using hg.symm
    subst hgl
    rw [ht.2]
    simp only [List.not_mem_nil, false_iff, not_not]
    exact ⟨op, (hD op).mpr (.inr rfl), hfresh r hr⟩
  · intro r1 h1 r2 h2 hp1 hp2 h12
    rw [show SameGeneration { idx with modRevision := op } r1 r2 ↔ SameGeneration idx r1 r2 from
      Iff.rfl, hs.same r1 h1 r2 h2 hp1 hp2 h12, exists_between_congr hD (hfresh r2 h2)]

/-- A survivor of compaction is in the compacted latest generation iff it was in the latest. -/
theorem mem_compactLatestSpec_iff (hw : WellFormed idx) (h : idx.generations = hist ++ [latest])
    (R : RevisionInternal) (hne : compactSpec R hist latest ≠ []) {r : RevisionInternal}
    (hr : r ∈ (compactSpec R hist latest).flatMap (·.revisions)) :
    r ∈ (compactLatestSpec R latest).revisions ↔ r ∈ latest.revisions := by
  refine ⟨fun h' => (compactLatestSpec_revisions_sublist R latest).subset h', fun hl => ?_⟩
  rw [compactSpec_of_ne_nil hne, List.flatMap_append, List.flatMap_singleton, List.mem_append] at hr
  refine hr.resolve_left fun hh => lt_irrefl r (hw.hist_lt_latest h ?_ hl)
  exact (filterMap_compactHistorySpec_sublist R hist).subset hh

/-- Compaction keeps the generation of every surviving revision: two survivors share a generation
after it iff they did before. -/
theorem sameGeneration_compact (hw : WellFormed idx) (h : idx.generations = hist ++ [latest])
    (R : RevisionInternal) (hne : compactSpec R hist latest ≠ []) {r1 r2 : RevisionInternal}
    (h1 : r1 ∈ (compactSpec R hist latest).flatMap (·.revisions))
    (h2 : r2 ∈ (compactSpec R hist latest).flatMap (·.revisions)) :
    SameGeneration { idx with generations := compactSpec R hist latest } r1 r2 ↔
      SameGeneration idx r1 r2 := by
  have hspec := compactSpec_of_ne_nil hne
  -- a survivor of a history generation is in its compacted form
  have hhist : ∀ r ∈ (compactSpec R hist latest).flatMap (·.revisions),
      r ∈ hist.flatMap (·.revisions) → !below R r := fun r hr hh => by
    rw [hspec, List.flatMap_append, List.flatMap_singleton, List.mem_append,
      mem_flatMap_compactHistorySpec] at hr
    rcases hr with hr | hr
    · exact hr.2
    · exact absurd (hw.hist_lt_latest h hh ((compactLatestSpec_revisions_sublist R latest).subset hr))
        (lt_irrefl r)
  rw [sameGeneration_split hspec, sameGeneration_split h, mem_compactLatestSpec_iff hw h R hne h1,
    mem_compactLatestSpec_iff hw h R hne h2]
  refine or_congr ⟨?_, ?_⟩ Iff.rfl
  · rintro ⟨g', hg', hr1, hr2⟩
    obtain ⟨g, hg, hgs⟩ := List.mem_filterMap.mp hg'
    obtain ⟨rfl, -⟩ := compactHistorySpec_eq_some hgs
    exact ⟨g, hg, (List.mem_filter.mp hr1).1, (List.mem_filter.mp hr2).1⟩
  · rintro ⟨g, hg, hr1, hr2⟩
    have hk1 := hhist r1 h1 (List.mem_flatMap.mpr ⟨g, hg, hr1⟩)
    have hk2 := hhist r2 h2 (List.mem_flatMap.mpr ⟨g, hg, hr2⟩)
    have hkept : g.revisions.filter (fun r => !below R r) ≠ [] :=
      List.ne_nil_of_mem (List.mem_filter.mpr ⟨hr1, hk1⟩)
    exact ⟨{ g with revisions := g.revisions.filter fun r => !below R r },
      List.mem_filterMap.mpr ⟨g, hg, by simp [compactHistorySpec, hkept]⟩,
      List.mem_filter.mpr ⟨hr1, hk1⟩, List.mem_filter.mpr ⟨hr2, hk2⟩⟩

/-- Compaction keeps the generation structure. -/
theorem GenShape.compact (hs : GenShape P D idx) (hw : WellFormed idx)
    (h : idx.generations = hist ++ [latest]) (R : RevisionInternal)
    (hne : compactSpec R hist latest ≠ []) :
    GenShape P D { idx with generations := compactSpec R hist latest } := by
  have hsub : ∀ r ∈ (compactSpec R hist latest).flatMap (·.revisions), r ∈ idx.allRevisions :=
    fun r hr => by
      rw [allRevisions_of_split h]; exact (compactSpec_sublist R hist latest).subset hr
  constructor
  · intro g hg r hr hp
    simp only [compactSpec_of_ne_nil hne, List.getLast?_concat, Option.mem_def,
      Option.some.injEq] at hg
    subst hg
    rw [mem_compactLatestSpec_iff hw h R hne hr]
    exact hs.latest latest (by simp [h]) r (hsub r hr) hp
  · intro r1 h1 r2 h2 hp1 hp2 h12
    rw [sameGeneration_compact hw h R hne h1 h2]
    exact hs.same r1 (hsub r1 h1) r2 (hsub r2 h2) hp1 hp2 h12

/-! ## The generation structure over a run -/

/-- The put revision of `key` a call makes. -/
def ApplyStep.putOf? (key : Bytes) : ApplyStep → Option RevisionInternal
  | .put k op .. => if k = key then some op else none
  | _ => none

/-- The delete revision of `key` a call makes. -/
def ApplyStep.deleteOf? (key : Bytes) : ApplyStep → Option RevisionInternal
  | .delete k op => if k = key then some op else none
  | _ => none

/-- Every index of the state is shaped by the puts and deletes of its key in the run `H`. -/
def Shaped (H : List ApplyStep) (s : KvControl) : Prop :=
  ∀ k idx, s.getRawKvIndex k = some idx →
    GenShape (H.filterMap (·.putOf? k)) (H.filterMap (·.deleteOf? k)) idx

theorem mem_filterMap_snoc {α β : Type} (f : α → Option β) (H : List α) (a : α) (b : β) :
    b ∈ (H ++ [a]).filterMap f ↔ b ∈ H.filterMap f ∨ f a = some b := by
  simp [List.mem_filterMap, or_and_right, exists_or]

theorem filterMap_snoc_of_none {α β : Type} {f : α → Option β} (H : List α) {a : α}
    (h : f a = none) : (H ++ [a]).filterMap f = H.filterMap f := by
  simp [List.filterMap_append, h]

theorem ApplyStep.opRevision?_of_putOf? {k : Bytes} {st : ApplyStep} {r : RevisionInternal}
    (h : st.putOf? k = some r) : st.opRevision? = some r := by
  cases st <;> simp_all [ApplyStep.putOf?, ApplyStep.opRevision?]

theorem ApplyStep.opRevision?_of_deleteOf? {k : Bytes} {st : ApplyStep} {r : RevisionInternal}
    (h : st.deleteOf? k = some r) : st.opRevision? = some r := by
  cases st <;> simp_all [ApplyStep.deleteOf?, ApplyStep.opRevision?]

variable {H : List ApplyStep}

theorem lt_of_mem_puts (hop : ∀ o ∈ H.filterMap ApplyStep.opRevision?, o < op) {k : Bytes}
    {r : RevisionInternal} (hr : r ∈ H.filterMap (·.putOf? k)) : r < op := by
  obtain ⟨st, hst, h⟩ := List.mem_filterMap.mp hr
  exact hop r (List.mem_filterMap.mpr ⟨st, hst, ApplyStep.opRevision?_of_putOf? h⟩)

theorem lt_of_mem_deletes (hop : ∀ o ∈ H.filterMap ApplyStep.opRevision?, o < op) {k : Bytes}
    {r : RevisionInternal} (hr : r ∈ H.filterMap (·.deleteOf? k)) : r < op := by
  obtain ⟨st, hst, h⟩ := List.mem_filterMap.mp hr
  exact hop r (List.mem_filterMap.mpr ⟨st, hst, ApplyStep.opRevision?_of_deleteOf? h⟩)

/-- A put at a revision past the run keeps every index shaped. -/
theorem Shaped.put (hc : Consistent s) (hsh : Shaped H s) (hf : Fresh s op)
    (hop : ∀ o ∈ H.filterMap ApplyStep.opRevision?, o < op) (key : Bytes) (il : Bool) (lid : Int)
    (iv : Bool) (v : Bytes) :
    Shaped (H ++ [.put key op il lid iv v]) (kvPutApply s key op il lid iv v).2.1 := by
  intro k idx' h'
  rw [@filterMap_snoc_of_none _ _ (·.deleteOf? k) H _ (by simp [ApplyStep.deleteOf?])]
  by_cases hk : k = key
  · subst hk
    have hP : ∀ r, r ∈ (H ++ [ApplyStep.put k op il lid iv v]).filterMap (·.putOf? k) →
        r ∈ H.filterMap (·.putOf? k) ∨ r = op := fun r hr =>
      ((mem_filterMap_snoc _ H _ r).mp hr).imp_right fun h => by
        simp only [ApplyStep.putOf?, ↓reduceIte, Option.some.injEq] at h; exact h.symm
    have hD : ∀ d ∈ H.filterMap (·.deleteOf? k), d < op := fun d hd => lt_of_mem_deletes hop hd
    rcases kvPutApply_state s k op il lid iv v with h | ⟨_, h⟩
    · rw [h] at h'
      exact (hsh k idx' h').of_puts fun r hr hp =>
        (hP r hp).resolve_right fun he => lt_irrefl r (he ▸ (hf.2 k idx' h').2 r hr)
    · rw [h, getRawKvIndex_write, if_pos rfl, Option.some.injEq] at h'
      subst h'
      cases hget : s.getRawKvIndex k with
      | none => exact genShape_start _ _ k hD
      | some idx =>
        obtain ⟨hist, latest, hsplit⟩ := exists_split (hc.wellFormed k idx hget).nonempty
        rw [putKvIndex_some hsplit]
        exact (hsh k idx hget).put hsplit (hf.2 k idx hget).2 hD hP
  · have hframe : (kvPutApply s key op il lid iv v).2.1.getRawKvIndex k = s.getRawKvIndex k := by
      rcases kvPutApply_state s key op il lid iv v with h | ⟨_, h⟩ <;> simp [h, hk]
    rw [@filterMap_snoc_of_none _ _ (·.putOf? k) H _ (by simp [ApplyStep.putOf?, Ne.symm hk])]
    exact hsh k idx' (hframe ▸ h')

theorem kvDeleteApply_of_some {key : Bytes} {idx : KvIndexInternal}
    (hget : s.getRawKvIndex key = some idx) (op : RevisionInternal) :
    (kvDeleteApply s key op).2.1 = (s.putRawKvIndex key (deleteKvIndex idx op).kvIndex).putRawKvRev
      op (deleteKvRev key op (deleteKvIndex idx op)) := by
  simp only [kvDeleteApply, hget]

/-- A delete at a revision past the run keeps every index shaped. -/
theorem Shaped.delete (hc : Consistent s) (hsh : Shaped H s) (hf : Fresh s op)
    (hop : ∀ o ∈ H.filterMap ApplyStep.opRevision?, o < op) (key : Bytes) :
    Shaped (H ++ [.delete key op]) (kvDeleteApply s key op).2.1 := by
  intro k idx' h'
  rw [@filterMap_snoc_of_none _ _ (·.putOf? k) H _ (by simp [ApplyStep.putOf?])]
  by_cases hk : k = key
  · subst hk
    have hD : ∀ d, d ∈ (H ++ [ApplyStep.delete k op]).filterMap (·.deleteOf? k) ↔
        d ∈ H.filterMap (·.deleteOf? k) ∨ d = op := fun d => by
      rw [mem_filterMap_snoc]
      simp only [ApplyStep.deleteOf?, ↓reduceIte, Option.some.injEq, eq_comm]
    have hnp : op ∉ H.filterMap (·.putOf? k) := fun h => lt_irrefl op (lt_of_mem_puts hop h)
    cases hget : s.getRawKvIndex k with
    | none => simp only [kvDeleteApply, hget] at h'; cases h'
    | some idx =>
      rw [kvDeleteApply_of_some hget, getRawKvIndex_write, if_pos rfl, Option.some.injEq] at h'
      subst h'
      have hw := hc.wellFormed k idx hget
      obtain ⟨hist, latest, hsplit⟩ := exists_split hw.nonempty
      by_cases ho : latest.createRevision.isSome
      · rw [deleteKvIndex_open hsplit ho]
        exact (hsh k idx hget).deleteOpen hsplit (hf.2 k idx hget).2 hnp hD
      · have ht : latest.createRevision = none := by simpa using ho
        rw [deleteKvIndex_tombstone hsplit ht]
        exact (hsh k idx hget).deleteTombstone hsplit ((hw.latest_split hsplit).resolve_left
          (by simp [Generation.isLive, ht])) (hf.2 k idx hget).2 hD
  · have hframe : (kvDeleteApply s key op).2.1.getRawKvIndex k = s.getRawKvIndex k := by
      rcases kvDeleteApply_state s key op with h | ⟨_, _, h⟩ <;> simp [h, hk]
    rw [@filterMap_snoc_of_none _ _ (·.deleteOf? k) H _ (by simp [ApplyStep.deleteOf?, Ne.symm hk])]
    exact hsh k idx' (hframe ▸ h')

/-- A compaction keeps every index shaped. -/
theorem Shaped.compact (hc : Consistent s) (hsh : Shaped H s) (key : Bytes) (R : RevisionInternal) :
    Shaped (H ++ [.compact key R]) (kvCompactApply s key R).2 := by
  intro k idx' h'
  rw [@filterMap_snoc_of_none _ _ (·.putOf? k) H _ rfl,
    @filterMap_snoc_of_none _ _ (·.deleteOf? k) H _ rfl]
  cases hget : s.getRawKvIndex key with
  | none => rw [kvCompactApply_of_none hget] at h'; exact hsh k idx' h'
  | some idx =>
    have hw := hc.wellFormed key idx hget
    obtain ⟨hist, latest, hsplit⟩ := exists_split hw.nonempty
    rw [kvCompactApply_getRawKvIndex hget hw hsplit] at h'
    split_ifs at h' with hk hne
    · subst hk
      obtain rfl := Option.some.inj h'
      exact (hsh k idx hget).compact hw hsplit R hne
    · exact hsh k idx' h'

/-- A revision the state stores: a key of `kv_rev_map_`, or a `mod_revision` or revision of an
index. -/
def StoredAt (s : KvControl) (r : RevisionInternal) : Prop :=
  (∃ kr, s.kvRevMap r = some kr) ∨
    ∃ k idx, s.getRawKvIndex k = some idx ∧ (idx.modRevision = r ∨ r ∈ idx.allRevisions)

theorem storedAt_write {key : Bytes} {newIdx : KvIndexInternal} {kr : KvRevInternal}
    (hw : WriteAt s op key newIdx kr) {r : RevisionInternal}
    (h : StoredAt ((s.putRawKvIndex key newIdx).putRawKvRev op kr) r) : StoredAt s r ∨ r = op := by
  rcases h with ⟨kr', h⟩ | ⟨k, idx, h, hr⟩
  · rw [kvRevMap_write] at h
    split_ifs at h with hro
    · exact .inr hro
    · exact .inl (.inl ⟨kr', h⟩)
  · rw [getRawKvIndex_write] at h
    split_ifs at h with hk
    · cases h
      rcases hr with hr | hr
      · exact .inr (hr ▸ hw.mod_eq)
      · rcases hw.revisions r hr with hro | ⟨idx, hidx, hr'⟩
        · exact .inr hro
        · exact .inl (.inr ⟨key, idx, hidx, .inr hr'⟩)
    · exact .inl (.inr ⟨k, idx, h, hr⟩)

/-- A call stores no revision but its own op revision. -/
theorem Consistent.storedAt_step (hc : Consistent s) (st : ApplyStep) (ha : st.Admissible s)
    {r : RevisionInternal} (h : StoredAt (st.apply s) r) : StoredAt s r ∨ st.opRevision? = some r := by
  cases st with
  | put key op il lid iv v =>
    rcases hc.kvPutApply_writeAt ha key il lid iv v with he | ⟨_, _, hw, he⟩
    · exact .inl (he ▸ h)
    · exact (storedAt_write hw (he ▸ h)).imp_right fun hro => by simp [ApplyStep.opRevision?, hro]
  | delete key op =>
    rcases hc.kvDeleteApply_writeAt ha key with he | ⟨_, _, hw, he⟩
    · exact .inl (he ▸ h)
    · exact (storedAt_write hw (he ▸ h)).imp_right fun hro => by simp [ApplyStep.opRevision?, hro]
  | compact key R =>
    refine .inl ?_
    cases hget : s.getRawKvIndex key with
    | none => rwa [ApplyStep.apply, kvCompactApply_of_none hget] at h
    | some idx =>
      have hw := hc.wellFormed key idx hget
      obtain ⟨hist, latest, hsplit⟩ := exists_split hw.nonempty
      rcases h with ⟨kr, h⟩ | ⟨k, idx', h, hr⟩
      · rw [ApplyStep.apply, kvCompactApply_kvRevMap hget hw hsplit] at h
        split_ifs at h
        exact .inl ⟨kr, h⟩
      · rw [ApplyStep.apply, kvCompactApply_getRawKvIndex hget hw hsplit] at h
        split_ifs at h with hk hne
        · obtain rfl := Option.some.inj h
          refine .inr ⟨key, idx, hget, hr.imp id fun hr => ?_⟩
          rw [allRevisions_of_split hsplit]
          exact (compactSpec_sublist R hist latest).subset hr
        · exact .inr ⟨k, idx', h, hr⟩

/-- The run invariant: a consistent state that stores only op revisions of the run `H`, with every
index shaped by its key's puts and deletes in `H`. -/
structure RunInv (H : List ApplyStep) (s : KvControl) : Prop where
  consistent : Consistent s
  stored : ∀ r, StoredAt s r → r ∈ H.filterMap ApplyStep.opRevision?
  shaped : Shaped H s

theorem RunInv.fresh (hi : RunInv H s) (hop : ∀ o ∈ H.filterMap ApplyStep.opRevision?, o < op) :
    Fresh s op :=
  ⟨fun r kr h => hop r (hi.stored r (.inl ⟨kr, h⟩)), fun k idx h =>
    ⟨hop _ (hi.stored _ (.inr ⟨k, idx, h, .inl rfl⟩)),
      fun r hr => hop r (hi.stored r (.inr ⟨k, idx, h, .inr hr⟩))⟩⟩

theorem runInv_init (flags : Flags) (leases : Int → Bool) :
    RunInv [] { flags, kvLeaseMap := leases } where
  consistent := consistent_init flags leases
  stored _ h := by rcases h with ⟨_, h⟩ | ⟨_, _, h, _⟩ <;> simp [KvControl.getRawKvIndex] at h
  shaped _ _ h := by simp [KvControl.getRawKvIndex] at h

/-- **One call past the run keeps the run invariant.** -/
theorem RunInv.step (hi : RunInv H s) (st : ApplyStep)
    (hop : ∀ o ∈ H.filterMap ApplyStep.opRevision?, ∀ o' ∈ st.opRevision?, o < o') :
    RunInv (H ++ [st]) (st.apply s) := by
  have hc := hi.consistent
  have ha : st.Admissible s := by
    cases st with
    | put _ op _ _ _ _ => exact hi.fresh fun o ho => hop o ho op rfl
    | delete _ op => exact hi.fresh fun o ho => hop o ho op rfl
    | compact _ _ => trivial
  refine ⟨hc.step st ha, fun r h => ?_, ?_⟩
  · rw [mem_filterMap_snoc]
    exact (hc.storedAt_step st ha h).imp_left (hi.stored r)
  · cases st with
    | put key op il lid iv v =>
      exact hi.shaped.put hc ha (fun o ho => hop o ho op rfl) key il lid iv v
    | delete key op => exact hi.shaped.delete hc ha (fun o ho => hop o ho op rfl) key
    | compact key R => exact hi.shaped.compact hc key R

/-- Every run from empty maps with strictly increasing op revisions keeps the run invariant. -/
theorem runInv_run (flags : Flags) (leases : Int → Bool) (steps : List ApplyStep)
    (hinc : (steps.filterMap ApplyStep.opRevision?).Pairwise (· < ·)) :
    RunInv steps (ApplyStep.run { flags, kvLeaseMap := leases } steps) := by
  induction steps using List.reverseRecOn with
  | nil => exact runInv_init flags leases
  | append_singleton steps st ih =>
    rw [List.filterMap_append, List.pairwise_append] at hinc
    rw [ApplyStep.run_append, ApplyStep.run_cons, ApplyStep.run_nil]
    exact (ih hinc.1).step st fun o ho o' ho' =>
      hinc.2.2 o ho o' (List.mem_filterMap.mpr ⟨st, List.mem_singleton_self _, ho'⟩)

/-- **Generations are separated by deletes**: in a run from empty maps with strictly increasing
op revisions, two put revisions `r1 < r2` of a key that its index still holds lie in one
generation iff no delete of the key was applied at a revision between them. -/
theorem same_generation_iff_no_delete (flags : Flags) (leases : Int → Bool)
    (steps : List ApplyStep) (hinc : (steps.filterMap ApplyStep.opRevision?).Pairwise (· < ·))
    (key : Bytes) {idx : KvIndexInternal}
    (hidx : (ApplyStep.run { flags, kvLeaseMap := leases } steps).getRawKvIndex key = some idx)
    {r1 r2 : RevisionInternal} (h12 : r1 < r2) (hp1 : r1 ∈ steps.filterMap (·.putOf? key))
    (hp2 : r2 ∈ steps.filterMap (·.putOf? key)) (hm1 : r1 ∈ idx.allRevisions)
    (hm2 : r2 ∈ idx.allRevisions) :
    (∃ g ∈ idx.generations, r1 ∈ g.revisions ∧ r2 ∈ g.revisions) ↔
      ¬ ∃ d ∈ steps.filterMap (·.deleteOf? key), r1 < d ∧ d < r2 :=
  ((runInv_run flags leases steps hinc).shaped key idx hidx).same r1 hm1 r2 hm2 hp1 hp2 h12

theorem same_generation_iff_no_delete_reopen :
    let steps := [ApplyStep.put [1] ⟨1, 0⟩ false 0 false [7], .put [1] ⟨2, 0⟩ false 0 false [8],
      .delete [1] ⟨3, 0⟩, .put [1] ⟨4, 0⟩ false 0 false [9]]
    let idx : KvIndexInternal := { id := [1], modRevision := ⟨4, 0⟩, generations :=
      [{ createRevision := some ⟨1, 0⟩, revisions := [⟨1, 0⟩, ⟨2, 0⟩, ⟨3, 0⟩], verison := 3 },
       { createRevision := some ⟨4, 0⟩, revisions := [⟨4, 0⟩], verison := 1 }] }
    ((steps.filterMap ApplyStep.opRevision?).Pairwise (· < ·) ∧
      (ApplyStep.run { kvLeaseMap := fun _ => false } steps).getRawKvIndex [1] = some idx ∧
      (⟨1, 0⟩ : RevisionInternal) < ⟨4, 0⟩ ∧ ⟨1, 0⟩ ∈ steps.filterMap (·.putOf? [1]) ∧
      ⟨4, 0⟩ ∈ steps.filterMap (·.putOf? [1]) ∧ ⟨1, 0⟩ ∈ idx.allRevisions ∧
      ⟨4, 0⟩ ∈ idx.allRevisions) ∧
    ((∃ g ∈ idx.generations, ⟨1, 0⟩ ∈ g.revisions ∧ ⟨4, 0⟩ ∈ g.revisions) ↔
      ¬ ∃ d ∈ steps.filterMap (·.deleteOf? [1]), ⟨1, 0⟩ < d ∧ d < ⟨4, 0⟩) := by
  intro steps idx
  have h : (steps.filterMap ApplyStep.opRevision?).Pairwise (· < ·) ∧
      (ApplyStep.run { kvLeaseMap := fun _ => false } steps).getRawKvIndex [1] = some idx ∧
      (⟨1, 0⟩ : RevisionInternal) < ⟨4, 0⟩ ∧ ⟨1, 0⟩ ∈ steps.filterMap (·.putOf? [1]) ∧
      ⟨4, 0⟩ ∈ steps.filterMap (·.putOf? [1]) ∧ ⟨1, 0⟩ ∈ idx.allRevisions ∧
      ⟨4, 0⟩ ∈ idx.allRevisions := by decide
  obtain ⟨h1, h2, h3, h4, h5, h6, h7⟩ := h
  exact ⟨⟨h1, h2, h3, h4, h5, h6, h7⟩,
    same_generation_iff_no_delete {} (fun _ => false) steps h1 [1] h2 h3 h4 h5 h6 h7⟩

end DingoKv
