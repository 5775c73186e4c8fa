import DingoKv.Apply
import DingoKv.Range

/-!
# Well-formed key indexes

`WellFormed idx` is the shape every stored `KvIndexInternal` keeps (the spec's "Invariants on
a KeyIndex"): at least one generation; every generation but the latest is live (it has a
`create_revision` and revisions); the latest is live or a tombstone (neither); the revisions of
all generations, in order, strictly increase; a `create_revision` is at most its generation's
first revision; a live latest generation ends at `mod_revision`, and behind a tombstone
`mod_revision` is at or after every revision.

The index halves of `KvPutApply` and `KvDeleteApply` keep it when the op revision is past every
revision of the index (`WellFormed.put`, `WellFormed.delete`). Compaction is in `Compact.lean`.
-/

namespace DingoKv

/-- A tombstone: no `create_revision`, no revisions. -/
def Generation.IsTombstone (g : Generation) : Prop := g.createRevision = none ∧ g.revisions = []

/-- The shape of a stored index. -/
structure WellFormed (idx : KvIndexInternal) : Prop where
  /-- At least one generation. -/
  nonempty : idx.generations ≠ []
  /-- Every generation before the latest has a `create_revision` and revisions. -/
  history_live : ∀ g ∈ idx.generations.dropLast, g.isLive
  /-- The latest generation is live or a tombstone. -/
  latest : ∀ g ∈ idx.generations.getLast?, g.isLive ∨ g.IsTombstone
  /-- The revisions of all generations, in order, strictly increase. -/
  sorted : idx.allRevisions.Sorted (· < ·)
  /-- A `create_revision` is at most its generation's first revision. -/
  create_le : ∀ g ∈ idx.generations, ∀ c ∈ g.createRevision, ∀ r ∈ g.revisions.head?, c ≤ r
  /-- A live latest generation ends at `mod_revision`. -/
  latest_mod : ∀ g ∈ idx.generations.getLast?, g.isLive → g.revisions.getLast? = some idx.modRevision
  /-- Behind a tombstone, `mod_revision` is at or after every revision. -/
  tombstone_mod :
    ∀ g ∈ idx.generations.getLast?, g.IsTombstone → ∀ r ∈ idx.allRevisions, r ≤ idx.modRevision

/-! ## Lemmas on generations -/

theorem exists_split {gens : List Generation} (h : gens ≠ []) :
    ∃ hist latest, gens = hist ++ [latest] :=
  ⟨gens.dropLast, gens.getLast h, (List.dropLast_concat_getLast h).symm⟩

@[simp] theorem allRevisions_mk (id : Bytes) (m : RevisionInternal) (gens : List Generation) :
    ({ id, modRevision := m, generations := gens } : KvIndexInternal).allRevisions =
      gens.flatMap (·.revisions) := rfl

theorem Generation.isLive_iff {g : Generation} :
    g.isLive ↔ g.createRevision.isSome ∧ g.revisions ≠ [] := by
  simp [Generation.isLive, List.isEmpty_iff]

theorem Generation.not_isLive_of_tombstone {g : Generation} (h : g.IsTombstone) : ¬ g.isLive := by
  simp [Generation.isLive_iff, h.1, h.2]

/-- An open generation of a well-formed index is live. -/
theorem WellFormed.isLive_of_open {idx : KvIndexInternal} (hw : WellFormed idx) {g : Generation}
    (hg : g ∈ idx.generations) (ho : g.createRevision.isSome) : g.isLive := by
  obtain ⟨hist, latest, h⟩ := exists_split hw.nonempty
  rw [h, List.mem_append, List.mem_singleton] at hg
  rcases hg with hg | rfl
  · exact hw.history_live g (by simpa [h] using hg)
  · rcases hw.latest g (by simp [h]) with hl | ht
    · exact hl
    · simp [ht.1] at ho

/-- Appending a revision past all of them keeps revisions sorted. -/
theorem sorted_concat_of_lt {l : List RevisionInternal} (hs : l.Sorted (· < ·))
    {op : RevisionInternal} (hop : ∀ r ∈ l, r < op) : (l ++ [op]).Sorted (· < ·) :=
  List.pairwise_append.mpr ⟨hs, List.pairwise_singleton _ _,
    fun r hr _ hx => (List.mem_singleton.mp hx) ▸ hop r hr⟩

/-- An open generation's `create_revision` still bounds its first revision once one is appended. -/
theorem WellFormed.create_le_append {idx : KvIndexInternal} (hw : WellFormed idx) {g : Generation}
    (hg : g ∈ idx.generations) (ho : g.createRevision.isSome) (op : RevisionInternal) :
    ∀ c ∈ g.createRevision, ∀ r ∈ (g.revisions ++ [op]).head?, c ≤ r := by
  intro c hc r hr
  obtain ⟨_, _, hx⟩ :=
    List.exists_cons_of_ne_nil (Generation.isLive_iff.mp (hw.isLive_of_open hg ho)).2
  rw [hx, List.cons_append, List.head?_cons] at hr
  exact hw.create_le g hg c hc r (by rw [hx]; exact hr)

@[simp] theorem putGeneration_revisions (g : Generation) (op : RevisionInternal) :
    (putGeneration g op).revisions = g.revisions ++ [op] := by
  unfold putGeneration; split <;> rfl

@[simp] theorem putGeneration_isLive (g : Generation) (op : RevisionInternal) :
    (putGeneration g op).isLive := by
  unfold putGeneration; split <;> simp_all [Generation.isLive]

theorem putGeneration_createRevision (g : Generation) (op : RevisionInternal) :
    (putGeneration g op).createRevision = if g.createRevision.isSome then g.createRevision else some op := by
  unfold putGeneration; split <;> simp_all

/-! ## The index half of `KvPutApply` -/

theorem putKvIndex_some {idx : KvIndexInternal} {hist : List Generation} {latest : Generation}
    (h : idx.generations = hist ++ [latest]) (key : Bytes) (op : RevisionInternal) :
    putKvIndex (some idx) key op =
      { kvIndex := { idx with generations := hist ++ [putGeneration latest op], modRevision := op }
        lastModRevision := idx.modRevision
        newCreateRevision := (putGeneration latest op).createRevision.getD {}
        newVersion := (putGeneration latest op).verison
        prevKv := if latest.createRevision.isSome then
            { createRevision := ((putGeneration latest op).createRevision.getD {}).main,
              modRevision := idx.modRevision.main, version := (putGeneration latest op).verison }
          else {} } := by
  simp [putKvIndex, h]

theorem wellFormed_start (key : Bytes) (op : RevisionInternal) :
    WellFormed { id := key, modRevision := op, generations := [.start op] } where
  nonempty := by simp
  history_live := by simp
  latest := by simp [Generation.start, Generation.isLive]
  sorted := by simp [Generation.start]
  create_le := by simp [Generation.start]
  latest_mod := by simp [Generation.start]
  tombstone_mod := by simp [Generation.start, Generation.IsTombstone]

/-- Appending `op` to the latest generation keeps an index well formed. -/
theorem WellFormed.put {idx : KvIndexInternal} (hw : WellFormed idx) {hist : List Generation}
    {latest : Generation} (h : idx.generations = hist ++ [latest]) {op : RevisionInternal}
    (hop : ∀ r ∈ idx.allRevisions, r < op) :
    WellFormed { idx with generations := hist ++ [putGeneration latest op], modRevision := op } := by
  have hall : idx.allRevisions = hist.flatMap (·.revisions) ++ latest.revisions := by
    simp [KvIndexInternal.allRevisions, h]
  constructor
  · simp
  · simpa [h] using hw.history_live
  · simp
  · have : (hist ++ [putGeneration latest op]).flatMap (·.revisions) = idx.allRevisions ++ [op] := by
      simp [hall]
    rw [allRevisions_mk, this]
    exact sorted_concat_of_lt hw.sorted hop
  · simp only [List.mem_append, List.mem_singleton]
    rintro g (hg | rfl) c hc r hr
    · exact hw.create_le g (by simp [h, hg]) c hc r hr
    · rw [putGeneration_createRevision] at hc
      split_ifs at hc with ho
      · rw [putGeneration_revisions] at hr
        exact hw.create_le_append (by simp [h]) ho op c hc r hr
      · obtain rfl := Option.some.inj hc
        have : latest.revisions = [] := by
          rcases hw.latest latest (by simp [h]) with hl | ht
          · simp [Generation.isLive, ho] at hl
          · exact ht.2
        rw [putGeneration_revisions, this, List.nil_append, List.head?_singleton, Option.mem_def,
          Option.some.injEq] at hr
        exact le_of_eq hr
  · simp
  · simp only [List.getLast?_concat, Option.mem_def, Option.some.injEq]
    rintro _ rfl ht
    exact absurd (putGeneration_isLive latest op) (Generation.not_isLive_of_tombstone ht)

/-! ## The index half of `KvDeleteApply` -/

/-- The generation `KvDeleteApply` closes with the delete revision. -/
def closeGeneration (g : Generation) (op : RevisionInternal) : Generation :=
  { g with revisions := g.revisions ++ [op], verison := g.verison + 1 }

theorem deleteKvIndex_open {idx : KvIndexInternal} {hist : List Generation} {latest : Generation}
    (h : idx.generations = hist ++ [latest]) (ho : latest.createRevision.isSome)
    (op : RevisionInternal) :
    deleteKvIndex idx op =
      { kvIndex := { idx with generations := hist ++ [closeGeneration latest op] ++ [({} : Generation)],
                              modRevision := op }
        lastModRevision := idx.modRevision
        newCreateRevision := latest.createRevision.getD {}
        newVersion := latest.verison + 1
        prevKv := { createRevision := (latest.createRevision.getD {}).main,
                    modRevision := idx.modRevision.main, version := latest.verison + 1 } } := by
  simp [deleteKvIndex, h, ho, closeGeneration]

theorem deleteKvIndex_tombstone {idx : KvIndexInternal} {hist : List Generation}
    {latest : Generation} (h : idx.generations = hist ++ [latest])
    (ht : latest.createRevision = none) (op : RevisionInternal) :
    deleteKvIndex idx op =
      { kvIndex := { idx with modRevision := op }
        lastModRevision := idx.modRevision
        newCreateRevision := {}
        newVersion := latest.verison
        prevKv := {} } := by
  simp [deleteKvIndex, h, ht]

/-- Closing the open latest generation with `op` and a tombstone keeps an index well formed. -/
theorem WellFormed.deleteOpen {idx : KvIndexInternal} (hw : WellFormed idx)
    {hist : List Generation} {latest : Generation} (h : idx.generations = hist ++ [latest])
    (ho : latest.createRevision.isSome) {op : RevisionInternal}
    (hop : ∀ r ∈ idx.allRevisions, r < op) :
    WellFormed { idx with generations := hist ++ [closeGeneration latest op] ++ [({} : Generation)],
                          modRevision := op } := by
  have hall : idx.allRevisions = hist.flatMap (·.revisions) ++ latest.revisions := by
    simp [KvIndexInternal.allRevisions, h]
  have hrevs : (hist ++ [closeGeneration latest op] ++ [({} : Generation)]).flatMap (·.revisions) =
      idx.allRevisions ++ [op] := by
    simp [hall, closeGeneration]
  constructor
  · simp
  · intro g hg
    rw [List.dropLast_concat, List.mem_append, List.mem_singleton] at hg
    rcases hg with hg | rfl
    · exact hw.history_live g (by simpa [h] using hg)
    · simp [closeGeneration, Generation.isLive, ho]
  · simp [List.getLast?_concat, Generation.IsTombstone]
  · rw [allRevisions_mk, hrevs]
    exact sorted_concat_of_lt hw.sorted hop
  · intro g hg c hc r hr
    simp only [List.mem_append, List.mem_singleton] at hg
    rcases hg with (hg | rfl) | rfl
    · exact hw.create_le g (by simp [h, hg]) c hc r hr
    · exact hw.create_le_append (by simp [h]) ho op c hc r hr
    · simp at hc
  · simp [List.getLast?_concat, Generation.isLive]
  · intro _ _ _ r hr
    rw [allRevisions_mk, hrevs, List.mem_append, List.mem_singleton] at hr
    rcases hr with hr | rfl
    · exact (hop r hr).le
    · exact le_refl _

/-- Moving `mod_revision` past every revision keeps a tombstoned index well formed. -/
theorem WellFormed.deleteTombstone {idx : KvIndexInternal} (hw : WellFormed idx)
    {hist : List Generation} {latest : Generation} (h : idx.generations = hist ++ [latest])
    (ht : latest.createRevision = none) {op : RevisionInternal}
    (hop : ∀ r ∈ idx.allRevisions, r < op) : WellFormed { idx with modRevision := op } := by
  have hlt : ¬ latest.isLive := by simp [Generation.isLive, ht]
  constructor
  · exact hw.nonempty
  · exact hw.history_live
  · exact hw.latest
  · exact hw.sorted
  · exact hw.create_le
  · simp only [h, List.getLast?_append, List.getLast?_singleton, Option.or_some,
      Option.mem_def, Option.some.injEq]
    rintro g rfl hg; exact absurd hg hlt
  · exact fun _ _ _ r hr => (hop r hr).le

end DingoKv
