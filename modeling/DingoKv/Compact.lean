import DingoKv.Index

/-!
# Compaction as a filter

`KvCompactApply` walks the history generations with an accumulator and treats the latest one
apart (`compactGenerations`). On a well-formed index it is a plain filter (`compactSpec`,
`compactDeletedSpec`): every generation keeps its revisions with `main >= R.main`, the live
latest one keeps its final revision too, a history generation with nothing kept is dropped, and
a trailing tombstone is kept iff some earlier generation is. The code copies every generation
behind the first kept one without filtering it; that is the same filter, because the revisions
strictly increase, so everything behind a kept revision is kept too.

* `compactGenerations_eq_spec`: the code's loop is the filter, on a well-formed index.
* `wellFormed_compactSpec`: compaction keeps an index well formed.
* `mem_compactDeletedSpec`, `not_mem_compactSpec_of_deleted`: what is erased, and that it
  survives in no generation.
* `compactSpec_compactSpec`: two compactions are one at the later cut.
-/

namespace DingoKv

/-- A history generation after compaction at `R`: its revisions at or after the cut, if any. -/
def compactHistorySpec (R : RevisionInternal) (g : Generation) : Option Generation :=
  let kept := g.revisions.filter fun r => !below R r
  if kept = [] then none else some { g with revisions := kept }

/-- The latest generation after compaction at `R`: a live one keeps its revisions at or after
the cut and its final revision; a tombstone stays. -/
def compactLatestSpec (R : RevisionInternal) (latest : Generation) : Generation :=
  if latest.createRevision.isSome then
    { latest with revisions :=
        latest.revisions.dropLast.filter (fun r => !below R r) ++ latest.revisions.getLast?.toList }
  else latest

/-- The generations compaction at `R` leaves; `[]` when the index is erased. -/
def compactSpec (R : RevisionInternal) (hist : List Generation) (latest : Generation) :
    List Generation :=
  if latest.createRevision.isNone ∧ hist.filterMap (compactHistorySpec R) = [] then []
  else hist.filterMap (compactHistorySpec R) ++ [compactLatestSpec R latest]

/-- The revisions compaction at `R` erases from `kv_rev_map_`. -/
def compactDeletedSpec (R : RevisionInternal) (hist : List Generation) (latest : Generation) :
    List RevisionInternal :=
  hist.flatMap (fun g => g.revisions.filter (below R)) ++
    if latest.createRevision.isSome then latest.revisions.dropLast.filter (below R) else []

/-! ## The loop is the filter -/

theorem foldl_compactHistoryStep_of_ne_nil (R : RevisionInternal) (hist : List Generation)
    (acc : List Generation × List RevisionInternal) (h : acc.1 ≠ []) :
    hist.foldl (compactHistoryStep R) acc = (acc.1 ++ hist, acc.2) := by
  induction hist generalizing acc with
  | nil => simp
  | cons g gs ih =>
    rw [List.foldl_cons, compactHistoryStep, if_pos h, ih _ (by simp)]
    simp

/-- Revisions behind a kept one are kept. -/
theorem not_below_of_le {R r r' : RevisionInternal} (hr : !below R r) (h : r ≤ r') :
    !below R r' := by
  have := RevisionInternal.main_le_of_le h
  simp only [below, Bool.not_eq_true', decide_eq_false_iff_not, not_lt] at *
  omega

theorem compactHistorySpec_of_kept {R : RevisionInternal} {g : Generation}
    (hne : g.revisions ≠ []) (hk : ∀ r ∈ g.revisions, !below R r) :
    compactHistorySpec R g = some g := by
  have : g.revisions.filter (fun r => !below R r) = g.revisions := List.filter_eq_self.mpr hk
  simp [compactHistorySpec, this, hne]

theorem filter_below_of_kept {R : RevisionInternal} {g : Generation}
    (hk : ∀ r ∈ g.revisions, !below R r) : g.revisions.filter (below R) = [] :=
  List.filter_eq_nil_iff.mpr fun r hr => by simpa using hk r hr

/-- The history loop on live generations with strictly increasing revisions, before any
generation is kept. -/
theorem foldl_compactHistoryStep (R : RevisionInternal) :
    ∀ (hist : List Generation) (D : List RevisionInternal),
      (∀ g ∈ hist, g.isLive) → (hist.flatMap (·.revisions)).Sorted (· < ·) →
      hist.foldl (compactHistoryStep R) ([], D) =
        (hist.filterMap (compactHistorySpec R), D ++ hist.flatMap fun g => g.revisions.filter (below R))
  | [], D, _, _ => by simp
  | g :: gs, D, hl, hs => by
    obtain ⟨⟨c, hc⟩, hne⟩ : (∃ c, g.createRevision = some c) ∧ g.revisions ≠ [] := by
      have := Generation.isLive_iff.mp (hl g (List.mem_cons_self _ _))
      exact ⟨Option.isSome_iff_exists.mp this.1, this.2⟩
    simp only [List.flatMap_cons, List.Sorted, List.pairwise_append] at hs
    rw [List.foldl_cons, compactHistoryStep, if_neg (by simp), hc]
    simp only [List.partition_eq_filter_filter, Function.comp_def]
    by_cases hk : g.revisions.filter (fun r => !below R r) = []
    · rw [if_neg (by simpa using hk), foldl_compactHistoryStep R gs _
        (fun g hg => hl g (List.mem_cons_of_mem _ hg)) hs.2.1]
      simp [compactHistorySpec, hk]
    · rw [if_pos hk, foldl_compactHistoryStep_of_ne_nil R gs _ (by simp)]
      obtain ⟨r, hr, hrk⟩ : ∃ r ∈ g.revisions, !below R r := by
        simpa [List.filter_eq_nil_iff] using hk
      have hkept : ∀ g' ∈ gs, ∀ r' ∈ g'.revisions, !below R r' := fun g' hg' r' hr' =>
        not_below_of_le hrk (hs.2.2 r hr r' (List.mem_flatMap.mpr ⟨g', hg', hr'⟩)).le
      have hgs : gs.filterMap (compactHistorySpec R) = gs :=
        (List.filterMap_congr fun g' hg' => compactHistorySpec_of_kept
          (Generation.isLive_iff.mp (hl g' (List.mem_cons_of_mem _ hg'))).2 (hkept g' hg')).trans
          (List.filterMap_some _)
      have hdel : gs.flatMap (fun g => g.revisions.filter (below R)) = [] :=
        List.flatMap_eq_nil_iff.mpr fun g' hg' => filter_below_of_kept (hkept g' hg')
      simp [compactHistorySpec, hk, hgs, hdel, hc]

theorem dropLast_append_getLast?_toList {α : Type} (l : List α) :
    l.dropLast ++ l.getLast?.toList = l := by
  rcases List.eq_nil_or_concat l with rfl | ⟨init, x, rfl⟩ <;> simp

/-- Every revision of the latest generation is kept when a history revision is. -/
theorem latest_kept {R : RevisionInternal} {hist : List Generation} {latest : Generation}
    (hs : (hist.flatMap (·.revisions) ++ latest.revisions).Sorted (· < ·))
    (hk : hist.filterMap (compactHistorySpec R) ≠ []) : ∀ r ∈ latest.revisions, !below R r := by
  obtain ⟨g', hg'⟩ := List.exists_mem_of_ne_nil _ hk
  obtain ⟨g, hg, hgs⟩ := List.mem_filterMap.mp hg'
  obtain ⟨r, hr, hrk⟩ : ∃ r ∈ g.revisions, !below R r := by
    have : g.revisions.filter (fun r => !below R r) ≠ [] := by
      intro h; simp [compactHistorySpec, h] at hgs
    simpa [List.filter_eq_nil_iff] using this
  rw [List.Sorted, List.pairwise_append] at hs
  exact fun r' hr' => not_below_of_le hrk (hs.2.2 r (List.mem_flatMap.mpr ⟨g, hg, hr⟩) r' hr').le

/-- **The code's compaction is the filter** on a well-formed index. -/
theorem compactGenerations_eq_spec (R : RevisionInternal) {hist : List Generation}
    {latest : Generation} (hl : ∀ g ∈ hist, g.isLive) (hlat : latest.isLive ∨ latest.IsTombstone)
    (hs : (hist.flatMap (·.revisions) ++ latest.revisions).Sorted (· < ·)) :
    compactGenerations R latest hist = (compactSpec R hist latest, compactDeletedSpec R hist latest) := by
  have hs' := hs
  rw [List.Sorted, List.pairwise_append] at hs'
  rw [compactGenerations, foldl_compactHistoryStep R hist [] hl hs'.1, compactLatest]
  cases hc : latest.createRevision with
  | none =>
    by_cases hk : hist.filterMap (compactHistorySpec R) = [] <;>
      simp [hk, hc, compactSpec, compactDeletedSpec, compactLatestSpec]
  | some c =>
    by_cases hk : hist.filterMap (compactHistorySpec R) = []
    · have hne : latest.revisions ≠ [] := by
        rcases hlat with h | h
        · exact (Generation.isLive_iff.mp h).2
        · simp [h.1] at hc
      obtain ⟨x, hx⟩ := Option.isSome_iff_exists.mp (List.getLast?_isSome.mpr hne)
      simp [hk, hc, hx, compactSpec, compactDeletedSpec, compactLatestSpec,
        List.partition_eq_filter_filter, Function.comp_def]
    · have hkept := latest_kept hs hk
      have hd : latest.revisions.dropLast.filter (fun r => !below R r) = latest.revisions.dropLast :=
        List.filter_eq_self.mpr fun r hr => hkept r (List.dropLast_subset _ hr)
      have hd' : latest.revisions.dropLast.filter (below R) = [] :=
        List.filter_eq_nil_iff.mpr fun r hr => by simpa using hkept r (List.dropLast_subset _ hr)
      simp [hk, hc, compactSpec, compactDeletedSpec, compactLatestSpec, hd, hd',
        dropLast_append_getLast?_toList]
      rw [← hc]

/-! ## On a well-formed index -/

section WellFormed

variable {idx : KvIndexInternal} {hist : List Generation} {latest : Generation}

theorem allRevisions_of_split (h : idx.generations = hist ++ [latest]) :
    idx.allRevisions = hist.flatMap (·.revisions) ++ latest.revisions := by
  simp [KvIndexInternal.allRevisions, h]

theorem WellFormed.hist_live (hw : WellFormed idx) (h : idx.generations = hist ++ [latest]) :
    ∀ g ∈ hist, g.isLive := by
  simpa [h] using hw.history_live

theorem WellFormed.latest_split (hw : WellFormed idx) (h : idx.generations = hist ++ [latest]) :
    latest.isLive ∨ latest.IsTombstone :=
  hw.latest latest (by simp [h])

theorem WellFormed.sorted_split (hw : WellFormed idx) (h : idx.generations = hist ++ [latest]) :
    (hist.flatMap (·.revisions) ++ latest.revisions).Sorted (· < ·) := by
  simpa [allRevisions_of_split h] using hw.sorted

/-- A `create_revision` is at most every revision of its generation. -/
theorem WellFormed.create_le_of_mem (hw : WellFormed idx) {g : Generation}
    (hg : g ∈ idx.generations) {c : RevisionInternal} (hc : g.createRevision = some c)
    {r : RevisionInternal} (hr : r ∈ g.revisions) : c ≤ r := by
  have hgs : g.revisions.Pairwise (· < ·) :=
    (List.pairwise_flatMap.mp hw.sorted).1 g hg
  obtain ⟨x, xs, hx⟩ := List.exists_cons_of_ne_nil (List.ne_nil_of_mem hr)
  have hcx := hw.create_le g hg c hc x (by simp [hx])
  rw [hx] at hr hgs
  rcases List.mem_cons.mp hr with rfl | hr
  · exact hcx
  · exact hcx.trans (List.rel_of_pairwise_cons hgs hr).le

/-- **`KvCompactApply` as the filter**, on an index whose history generations are live, whose
latest generation is live or a tombstone, and whose revisions strictly increase. -/
theorem kvCompactApply_eq_of_shape {s : KvControl} {key : Bytes}
    (hget : s.getRawKvIndex key = some idx) (h : idx.generations = hist ++ [latest])
    (hl : ∀ g ∈ hist, g.isLive) (hlat : latest.isLive ∨ latest.IsTombstone)
    (hs : (hist.flatMap (·.revisions) ++ latest.revisions).Sorted (· < ·)) (R : RevisionInternal) :
    kvCompactApply s key R =
      (.ok, (if compactSpec R hist latest = [] then
          s.deleteRawKvIndex key { idx with generations := compactSpec R hist latest }
        else s.putRawKvIndex key { idx with generations := compactSpec R hist latest }).deleteRevisions
        (compactDeletedSpec R hist latest)) := by
  simp only [kvCompactApply, hget, h, List.getLast?_concat, List.dropLast_concat]
  rw [compactGenerations_eq_spec R hl hlat hs]

/-- **`KvCompactApply` on a well-formed index**, as the filter. -/
theorem kvCompactApply_eq {s : KvControl} {key : Bytes} (hget : s.getRawKvIndex key = some idx)
    (hw : WellFormed idx) (h : idx.generations = hist ++ [latest]) (R : RevisionInternal) :
    kvCompactApply s key R =
      (.ok, (if compactSpec R hist latest = [] then
          s.deleteRawKvIndex key { idx with generations := compactSpec R hist latest }
        else s.putRawKvIndex key { idx with generations := compactSpec R hist latest }).deleteRevisions
        (compactDeletedSpec R hist latest)) :=
  kvCompactApply_eq_of_shape hget h (hw.hist_live h) (hw.latest_split h) (hw.sorted_split h) R

end WellFormed

theorem compactSpec_of_ne_nil {R : RevisionInternal} {hist : List Generation} {latest : Generation}
    (hne : compactSpec R hist latest ≠ []) :
    compactSpec R hist latest = hist.filterMap (compactHistorySpec R) ++ [compactLatestSpec R latest] := by
  unfold compactSpec at *
  split_ifs at * with h
  · exact absurd rfl hne
  · rfl

theorem compactHistorySpec_eq_some {R : RevisionInternal} {g g' : Generation}
    (h : compactHistorySpec R g = some g') :
    g' = { g with revisions := g.revisions.filter fun r => !below R r } ∧
      g.revisions.filter (fun r => !below R r) ≠ [] := by
  simp only [compactHistorySpec] at h
  split_ifs at h with hk
  exact ⟨(Option.some.inj h).symm, hk⟩

theorem mem_flatMap_compactHistorySpec {R r : RevisionInternal} {hist : List Generation} :
    r ∈ (hist.filterMap (compactHistorySpec R)).flatMap (·.revisions) ↔
      r ∈ hist.flatMap (·.revisions) ∧ !below R r := by
  simp only [List.mem_flatMap, List.mem_filterMap]
  constructor
  · rintro ⟨g', ⟨g, hg, hgs⟩, hr⟩
    obtain ⟨rfl, -⟩ := compactHistorySpec_eq_some hgs
    exact ⟨⟨g, hg, (List.mem_filter.mp hr).1⟩, (List.mem_filter.mp hr).2⟩
  · rintro ⟨⟨g, hg, hr⟩, hk⟩
    have hne : g.revisions.filter (fun r => !below R r) ≠ [] :=
      List.ne_nil_of_mem (List.mem_filter.mpr ⟨hr, hk⟩)
    exact ⟨{ g with revisions := g.revisions.filter fun r => !below R r },
      ⟨g, hg, by simp [compactHistorySpec, hne]⟩, List.mem_filter.mpr ⟨hr, hk⟩⟩

theorem compactLatestSpec_createRevision (R : RevisionInternal) (latest : Generation) :
    (compactLatestSpec R latest).createRevision = latest.createRevision := by
  unfold compactLatestSpec; split <;> rfl

theorem compactLatestSpec_revisions_sublist (R : RevisionInternal) (latest : Generation) :
    List.Sublist (compactLatestSpec R latest).revisions latest.revisions := by
  unfold compactLatestSpec
  split
  · conv => rhs; rw [← dropLast_append_getLast?_toList latest.revisions]
    exact (List.filter_sublist _).append (List.Sublist.refl _)
  · exact List.Sublist.refl _

theorem compactLatestSpec_getLast? (R : RevisionInternal) (latest : Generation) :
    (compactLatestSpec R latest).revisions.getLast? = latest.revisions.getLast? := by
  unfold compactLatestSpec
  split
  · cases h : latest.revisions.getLast? <;> simp_all [List.getLast?_eq_none_iff]
  · rfl

theorem filterMap_compactHistorySpec_sublist (R : RevisionInternal) :
    ∀ hist : List Generation, List.Sublist
      ((hist.filterMap (compactHistorySpec R)).flatMap (·.revisions)) (hist.flatMap (·.revisions))
  | [] => List.Sublist.slnil
  | g :: gs => by
    cases hg : compactHistorySpec R g with
    | none =>
      simpa [List.filterMap_cons, hg] using
        (filterMap_compactHistorySpec_sublist R gs).trans (List.sublist_append_right _ _)
    | some g' =>
      obtain ⟨rfl, -⟩ := compactHistorySpec_eq_some hg
      simpa [List.filterMap_cons, hg] using
        (List.filter_sublist _).append (filterMap_compactHistorySpec_sublist R gs)

theorem compactSpec_sublist (R : RevisionInternal) (hist : List Generation) (latest : Generation) :
    List.Sublist ((compactSpec R hist latest).flatMap (·.revisions))
      (hist.flatMap (·.revisions) ++ latest.revisions) := by
  by_cases hne : compactSpec R hist latest = []
  · rw [hne]; exact List.nil_sublist _
  rw [compactSpec_of_ne_nil hne, List.flatMap_append, List.flatMap_singleton]
  exact (filterMap_compactHistorySpec_sublist R hist).append (compactLatestSpec_revisions_sublist R latest)

theorem compactLatestSpec_isLive (R : RevisionInternal) (latest : Generation) :
    (compactLatestSpec R latest).isLive = latest.isLive := by
  unfold compactLatestSpec
  split
  · cases h : latest.revisions.getLast? with
    | none => simp_all [Generation.isLive, List.getLast?_eq_none_iff]
    | some x =>
      have h1 : ∀ l : List RevisionInternal, (l ++ [x]).isEmpty = false := fun l => by cases l <;> rfl
      have h2 : latest.revisions.isEmpty = false := by cases h' : latest.revisions <;> simp_all
      simp [Generation.isLive, h1, h2]
  · rfl

theorem compactLatestSpec_of_none {R : RevisionInternal} {latest : Generation}
    (h : latest.createRevision = none) : compactLatestSpec R latest = latest := by
  simp [compactLatestSpec, h]

theorem mem_compactDeletedSpec {R r : RevisionInternal} {hist : List Generation}
    {latest : Generation} :
    r ∈ compactDeletedSpec R hist latest ↔ below R r ∧
      (r ∈ hist.flatMap (·.revisions) ∨
        (latest.createRevision.isSome ∧ r ∈ latest.revisions.dropLast)) := by
  unfold compactDeletedSpec
  by_cases ho : latest.createRevision.isSome <;>
    simp [ho, List.mem_flatMap, and_or_left, and_comm, and_left_comm, and_assoc]

/-- **Compaction keeps an index well formed.** -/
theorem wellFormed_compactSpec {idx : KvIndexInternal} (hw : WellFormed idx) {hist : List Generation}
    {latest : Generation} (h : idx.generations = hist ++ [latest]) (R : RevisionInternal)
    (hne : compactSpec R hist latest ≠ []) :
    WellFormed { idx with generations := compactSpec R hist latest } := by
  have hsub : List.Sublist ({ idx with generations := compactSpec R hist latest }.allRevisions)
      idx.allRevisions := by
    rw [allRevisions_mk, allRevisions_of_split h]; exact compactSpec_sublist R hist latest
  have hlive := hw.latest_split h
  rw [compactSpec_of_ne_nil hne] at hsub ⊢
  constructor
  · simp
  · rw [List.dropLast_concat]
    intro g' hg'
    obtain ⟨g, hg, hgs⟩ := List.mem_filterMap.mp hg'
    obtain ⟨rfl, hk⟩ := compactHistorySpec_eq_some hgs
    exact Generation.isLive_iff.mpr ⟨(Generation.isLive_iff.mp (hw.hist_live h g hg)).1, hk⟩
  · simp only [List.getLast?_concat, Option.mem_def, Option.some.injEq]
    rintro _ rfl
    rw [compactLatestSpec_isLive]
    exact hlive.imp_right fun ht => by rwa [compactLatestSpec_of_none ht.1]
  · exact hw.sorted.sublist hsub
  · intro g' hg' c hc r hr
    have hr' : r ∈ g'.revisions := List.mem_of_mem_head? hr
    rw [List.mem_append, List.mem_singleton] at hg'
    rcases hg' with hg' | rfl
    · obtain ⟨g, hg, hgs⟩ := List.mem_filterMap.mp hg'
      obtain ⟨rfl, -⟩ := compactHistorySpec_eq_some hgs
      exact hw.create_le_of_mem (show g ∈ idx.generations by simp [h, hg]) hc
        (List.mem_filter.mp hr').1
    · rw [compactLatestSpec_createRevision] at hc
      exact hw.create_le_of_mem (by simp [h]) hc
        ((compactLatestSpec_revisions_sublist R latest).subset hr')
  · simp only [List.getLast?_concat, Option.mem_def, Option.some.injEq]
    rintro _ rfl hl
    rw [compactLatestSpec_getLast?]
    exact hw.latest_mod latest (by simp [h]) (by rwa [compactLatestSpec_isLive] at hl)
  · simp only [List.getLast?_concat, Option.mem_def, Option.some.injEq]
    rintro _ rfl ht r hr
    have ht' : latest.IsTombstone := hlive.resolve_left fun hl =>
      Generation.not_isLive_of_tombstone ht (by rwa [compactLatestSpec_isLive])
    exact hw.tombstone_mod latest (by simp [h]) ht' r (hsub.subset hr)

theorem lt_of_mem_dropLast {l : List RevisionInternal} (hs : l.Sorted (· < ·)) {x y : RevisionInternal}
    (hx : x ∈ l.dropLast) (hy : l.getLast? = some y) : x < y := by
  rw [← List.dropLast_append_getLast? y hy, List.Sorted, List.pairwise_append] at hs
  exact hs.2.2 x hx y (List.mem_singleton_self y)

/-- A revision compaction erases is not left in the index. -/
theorem not_mem_compactSpec_of_deleted {idx : KvIndexInternal} (hw : WellFormed idx)
    {hist : List Generation} {latest : Generation} (h : idx.generations = hist ++ [latest])
    {R r : RevisionInternal} (hd : r ∈ compactDeletedSpec R hist latest) :
    r ∉ (compactSpec R hist latest).flatMap (·.revisions) := by
  obtain ⟨hb, hr⟩ := mem_compactDeletedSpec.mp hd
  have hs := hw.sorted_split h
  intro hk
  by_cases hne : compactSpec R hist latest = []
  · simp [hne] at hk
  rw [compactSpec_of_ne_nil hne, List.flatMap_append, List.flatMap_singleton, List.mem_append,
    mem_flatMap_compactHistorySpec] at hk
  rcases hk with ⟨-, hk⟩ | hk
  · simp [hb] at hk
  · unfold compactLatestSpec at hk
    split at hk
    · rw [List.mem_append, List.mem_filter] at hk
      rcases hk with ⟨-, hk⟩ | hk
      · simp [hb] at hk
      · obtain ⟨y, hy, rfl⟩ : ∃ y, latest.revisions.getLast? = some y ∧ r = y := by
          cases hl : latest.revisions.getLast? <;> simp_all
        rw [List.Sorted, List.pairwise_append] at hs
        rcases hr with hr | ⟨-, hr⟩
        · exact lt_irrefl _ (hs.2.2 _ hr _ (List.mem_of_getLast?_eq_some hy))
        · exact lt_irrefl _ (lt_of_mem_dropLast hs.2.1 hr hy)
    · rename_i hc
      rcases hw.latest_split h with hl | ht
      · simp [Generation.isLive, hc] at hl
      · simp [ht.2] at hk

/-! ## Two compactions -/

section Compose

variable {R1 R2 R : RevisionInternal}

theorem below_max (hR : R.main = max R1.main R2.main) (r : RevisionInternal) :
    below R r = (below R1 r || below R2 r) := by
  unfold below
  rw [← Bool.decide_or, decide_eq_decide, hR]
  omega

theorem filter_not_below_filter (hR : R.main = max R1.main R2.main) (l : List RevisionInternal) :
    (l.filter fun r => !below R1 r).filter (fun r => !below R2 r) = l.filter fun r => !below R r := by
  rw [List.filter_filter]
  congr 1; funext r
  rw [below_max hR]
  cases below R1 r <;> cases below R2 r <;> rfl

theorem compactHistorySpec_bind (hR : R.main = max R1.main R2.main) (g : Generation) :
    (compactHistorySpec R1 g).bind (compactHistorySpec R2) = compactHistorySpec R g := by
  simp only [compactHistorySpec]
  by_cases h1 : g.revisions.filter (fun r => !below R1 r) = []
  · have h : g.revisions.filter (fun r => !below R r) = [] := by
      rw [← filter_not_below_filter hR, h1, List.filter_nil]
    simp [h1, h]
  · rw [if_neg h1, Option.some_bind]
    simp only [compactHistorySpec, filter_not_below_filter hR]

theorem compactLatestSpec_dropLast (ho : latest.createRevision.isSome) :
    (compactLatestSpec R1 latest).revisions.dropLast =
      latest.revisions.dropLast.filter fun r => !below R1 r := by
  simp only [compactLatestSpec, ho, if_true]
  cases h : latest.revisions.getLast? with
  | none => simp [List.getLast?_eq_none_iff.mp h]
  | some x => simp

theorem compactLatestSpec_compose (hR : R.main = max R1.main R2.main) (latest : Generation) :
    compactLatestSpec R2 (compactLatestSpec R1 latest) = compactLatestSpec R latest := by
  by_cases ho : latest.createRevision.isSome
  · have ho' : (compactLatestSpec R1 latest).createRevision.isSome := by
      rwa [compactLatestSpec_createRevision]
    conv_lhs => rw [compactLatestSpec, if_pos ho']
    rw [compactLatestSpec_dropLast ho, compactLatestSpec_getLast?, filter_not_below_filter hR]
    simp [compactLatestSpec, ho]
  · simp [compactLatestSpec, ho]

/-- **Two compactions are one at the later cut.** -/
theorem compactSpec_compactSpec (hR : R.main = max R1.main R2.main) (hist : List Generation)
    (latest : Generation) :
    compactSpec R2 (hist.filterMap (compactHistorySpec R1)) (compactLatestSpec R1 latest) =
      compactSpec R hist latest := by
  simp only [compactSpec, List.filterMap_filterMap, compactHistorySpec_bind hR,
    compactLatestSpec_compose hR, compactLatestSpec_createRevision]

theorem compactSpec_eq_nil_of_compose (hR : R.main = max R1.main R2.main)
    {hist : List Generation} {latest : Generation} (h : compactSpec R1 hist latest = []) :
    compactSpec R hist latest = [] := by
  rw [← compactSpec_compactSpec hR]
  unfold compactSpec at h ⊢
  split_ifs at h with hc
  · simp [hc.2, compactLatestSpec_createRevision, hc.1]
  · simp at h

/-- What the two compactions erase together is what the one at the later cut erases. -/
theorem mem_compactDeletedSpec_compose (hR : R.main = max R1.main R2.main)
    {hist : List Generation} {latest : Generation} {r : RevisionInternal} :
    (r ∈ compactDeletedSpec R1 hist latest ∨
      r ∈ compactDeletedSpec R2 (hist.filterMap (compactHistorySpec R1))
        (compactLatestSpec R1 latest)) ↔ r ∈ compactDeletedSpec R hist latest := by
  simp only [mem_compactDeletedSpec, mem_flatMap_compactHistorySpec,
    compactLatestSpec_createRevision, below_max hR]
  by_cases ho : latest.createRevision.isSome
  · simp only [compactLatestSpec_dropLast ho, List.mem_filter, ho, true_and]
    cases below R1 r <;> cases below R2 r <;> simp
  · simp only [ho]
    cases below R1 r <;> cases below R2 r <;> simp

end Compose

end DingoKv
