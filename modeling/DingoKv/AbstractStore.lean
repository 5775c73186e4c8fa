import DingoKv.DeleteRange
import DingoKv.History

/-!
# The apply engine refines a last-writer-wins store

`KvControl` keeps its keys in two maps, `kv_index_map_` (key to generations) and `kv_rev_map_`
(revision to `KvRevInternal`), and a client sees them only through `KvRange`. This file says
what a client should see, as a store `Bytes → Option Kv` that each apply call moves
(`absApply`): a put writes the key's new `Kv`, taking the lease and the value of the `Kv` it
replaces when `ignore_lease` / `ignore_value` ask for them, and is refused when the lease it ends
up with is positive and not in `kv_lease_map_`; a delete removes the key; a compaction changes
nothing. `viewOf s` is what a point read of each key returns in `s`.

The read invariant `ReadInv` adds two facts to `Consistent`: the `KvRevInternal` at the
`mod_revision` of a key that is not live holds no value and no lease (`KvDeleteApply` writes
such a tombstone, `kv_control_kv.cc:756-776`), and nothing is stored at revision `(0,0)`. Both
are what `KvPutApply` needs: it takes the `KvRevInternal` at the index's `mod_revision` as the
previous one, and at `(0,0)` for a key with no index (`kv_control_kv.cc:609-611`), and copies
its value and lease under `ignore_value` / `ignore_lease`.

Side conditions of the run theorem: the op revisions of the run increase, as the raft log
indexes they come from do, and none is `(0,0)`. A call applied at `(0,0)` stores another key's
`KvRevInternal` where a put of an absent key reads its previous one.

## Results

* `ReadInv.viewOf_apply`: under the read invariant, one admissible call moves `viewOf` as
  `absApply` moves the abstract store, with the lease table `kv_lease_map_` of the state.
* `kvRange_refines_absRun`: after any run of apply calls from empty maps, an unlimited `KvRange`
  returns exactly the `Kv`s of `absRun` whose keys the range selects, in strictly ascending key
  order.
* `absRun_wellFormed`, transferred by the refinement to `kvRange_revisions_wellFormed`: every
  `Kv` any read returns has `create_revision <= mod_revision`, a positive version, and a
  `mod_revision` that is the main revision of a call of the run. `Consistent.mem_kvRange` carries
  it from the unlimited read to every limit, `keys_only` and `count_only`.
* `kvRange_lease_held`: in every reachable state, each `Kv` any `KvRange` returns has a lease of
  at most `0` or one in `kv_lease_map_`. This one needs no side condition: it holds of every
  `KvRevInternal` stored (`LeasesHeld`).

Out of scope: `keys_only` and `count_only` in the refinement itself (a limit takes a prefix of
the same list, `Consistent.kvRange_limit`), the watch events the calls produce, and changes of
`kv_lease_map_`, which the lease calls outside these sources make.
-/

namespace DingoKv

/-! ## The abstract store -/

/-- The lease a put ends up with: the previous `Kv`'s under `ignore_lease` (`0` for none), else
its own. -/
def absLease (A : Bytes → Option Kv) (key : Bytes) (ignoreLease : Bool) (leaseId : Int) : Int :=
  if ignoreLease then ((A key).map (·.lease)).getD 0 else leaseId

/-- A put on the abstract store: refused when its lease is positive and not held; otherwise the
key's `Kv` is the new one, keeping the previous `Kv`'s `create_revision`, one version past it, and
its value under `ignore_value`. -/
def absPut (leases : Int → Bool) (A : Bytes → Option Kv) (key : Bytes) (op : RevisionInternal)
    (ignoreLease : Bool) (leaseId : Int) (ignoreValue : Bool) (value : Bytes) :
    Bytes → Option Kv :=
  if 0 < absLease A key ignoreLease leaseId ∧ leases (absLease A key ignoreLease leaseId) = false
  then A
  else Function.update A key (some
    { kv := { key, value := if ignoreValue then ((A key).map (·.kv.value)).getD [] else value }
      createRevision := ((A key).map (·.createRevision)).getD op.main
      modRevision := op.main
      version := ((A key).map (·.version + 1)).getD 1
      lease := absLease A key ignoreLease leaseId })

/-- One apply call on the abstract store. -/
def absApply (leases : Int → Bool) (A : Bytes → Option Kv) : ApplyStep → Bytes → Option Kv
  | .put key op il lid iv v => absPut leases A key op il lid iv v
  | .delete key _ => Function.update A key none
  | .compact .. => A

/-- A run of apply calls on the abstract store, from the empty store. -/
def absRun (leases : Int → Bool) (steps : List ApplyStep) : Bytes → Option Kv :=
  steps.foldl (absApply leases) fun _ => none

theorem absApply_of_ne {k : Bytes} {st : ApplyStep} (hk : k ≠ st.key) (leases : Int → Bool)
    (A : Bytes → Option Kv) : absApply leases A st k = A k := by
  cases st with
  | put key op il lid iv v =>
    simp only [absApply, absPut]
    split
    · rfl
    · exact Function.update_noteq hk _ _
  | delete key op => exact Function.update_noteq hk _ _
  | compact key R => rfl

/-! ## What a point read sees -/

/-- What a point read of `key` returns in `s`: the `Kv` of the `KvRevInternal` at a live key's
`mod_revision`. -/
def viewOf (s : KvControl) (key : Bytes) : Option Kv :=
  match readAt s key with
  | some (some kr) => some (kvOfRev kr false)
  | _ => none

variable {s : KvControl}

theorem kvRange_point_viewOf (s : KvControl) (key : Bytes) :
    (kvRange s key [] 0 false false).1 = (viewOf s key).toList := by
  rw [kvRange_point, viewOf]
  rcases readAt s key with _ | _ | kr <;> rfl

theorem viewOf_congr {s' : KvControl} {k : Bytes} (h : readAt s k = readAt s' k) :
    viewOf s k = viewOf s' k := by
  simp only [viewOf, h]

theorem viewOf_of_getRawKvIndex_none {key : Bytes} (h : s.getRawKvIndex key = none) :
    viewOf s key = none := by
  rw [viewOf, readAt, h]; rfl

/-- A read of the key a call writes sees the written `KvRevInternal` iff the written index is
live. -/
theorem readAt_write_self (key : Bytes) {newIdx : KvIndexInternal} {op : RevisionInternal}
    (hm : newIdx.modRevision = op) (kr : KvRevInternal) :
    readAt ((s.putRawKvIndex key newIdx).putRawKvRev op kr) key =
      if newIdx.isLive then some (some kr) else none := by
  rw [readAt, getRawKvIndex_write, if_pos rfl, Option.some_bind, readOf, hm, kvRevMap_write,
    if_pos rfl]

theorem deleteKvIndex_modRevision (idx : KvIndexInternal) (op : RevisionInternal) :
    (deleteKvIndex idx op).kvIndex.modRevision = op := by
  unfold deleteKvIndex; split
  · rfl
  · split <;> rfl

/-! ## The read invariant -/

/-- The store invariant, with the two facts `KvPutApply` needs of the `KvRevInternal` it takes as
the previous one: a tombstone's holds no value and no lease, and none is stored at `(0,0)`. -/
structure ReadInv (s : KvControl) : Prop where
  consistent : Consistent s
  dead_rev : ∀ k idx, s.getRawKvIndex k = some idx → idx.isLive = false →
    ∀ kr, s.kvRevMap idx.modRevision = some kr → kr.kv.value = [] ∧ kr.kv.lease = 0
  zero_rev : s.kvRevMap {} = none

theorem readInv_init (flags : Flags) (leases : Int → Bool) :
    ReadInv { flags, kvLeaseMap := leases } where
  consistent := consistent_init flags leases
  dead_rev _ _ h := by simp [KvControl.getRawKvIndex] at h
  zero_rev := rfl

/-- A write at a fresh revision other than `(0,0)` keeps the invariant when the index it writes is
live, or ends at the write with a `KvRevInternal` holding no value and no lease. -/
theorem ReadInv.write (hi : ReadInv s) {key : Bytes} {newIdx : KvIndexInternal}
    {op : RevisionInternal} {kr : KvRevInternal}
    (hc : Consistent ((s.putRawKvIndex key newIdx).putRawKvRev op kr)) (hf : Fresh s op)
    (h0 : op ≠ {})
    (hnew : newIdx.isLive = false → newIdx.modRevision = op ∧ kr.kv.value = [] ∧ kr.kv.lease = 0) :
    ReadInv ((s.putRawKvIndex key newIdx).putRawKvRev op kr) where
  consistent := hc
  dead_rev k idx h hl kr' hkr := by
    rw [getRawKvIndex_write] at h
    split_ifs at h with hk
    · cases h
      obtain ⟨hm, hv, hle⟩ := hnew hl
      rw [hm, kvRevMap_write, if_pos rfl] at hkr
      cases hkr
      exact ⟨hv, hle⟩
    · rw [kvRevMap_write, if_neg (hf.2 k idx h).1.ne] at hkr
      exact hi.dead_rev k idx h hl kr' hkr
  zero_rev := by rw [kvRevMap_write, if_neg fun h => h0 h.symm, hi.zero_rev]

theorem isLive_compactSpec {idx : KvIndexInternal} {hist : List Generation} {latest : Generation}
    (hsplit : idx.generations = hist ++ [latest]) {R : RevisionInternal}
    (hne : compactSpec R hist latest ≠ []) :
    ({ idx with generations := compactSpec R hist latest } : KvIndexInternal).isLive =
      idx.isLive := by
  simp [KvIndexInternal.isLive, hsplit, compactSpec_of_ne_nil hne, compactLatestSpec_isLive]

/-- Compaction keeps the invariant: it keeps each index's `mod_revision` and liveness, and only
erases `KvRevInternal`s. -/
theorem ReadInv.compact (hi : ReadInv s) (key : Bytes) (R : RevisionInternal) :
    ReadInv (kvCompactApply s key R).2 := by
  cases hget : s.getRawKvIndex key with
  | none => rw [kvCompactApply_of_none hget]; exact hi
  | some idx =>
    have hw := hi.consistent.wellFormed key idx hget
    obtain ⟨hist, latest, hsplit⟩ := exists_split hw.nonempty
    have hrev : ∀ r kr, (kvCompactApply s key R).2.kvRevMap r = some kr →
        s.kvRevMap r = some kr := fun r kr h => by
      rw [kvCompactApply_kvRevMap hget hw hsplit] at h
      split_ifs at h
      exact h
    refine ⟨hi.consistent.compact key R, fun k idx' h hl kr hkr => ?_, ?_⟩
    · rw [kvCompactApply_getRawKvIndex hget hw hsplit] at h
      split_ifs at h with hk hne
      · subst hk
        cases h
        rw [isLive_compactSpec hsplit hne] at hl
        exact hi.dead_rev k idx hget hl kr (hrev _ _ hkr)
      · exact hi.dead_rev k idx' h hl kr (hrev _ _ hkr)
    · rw [kvCompactApply_kvRevMap hget hw hsplit]
      split_ifs
      · rfl
      · exact hi.zero_rev

/-- **One admissible call keeps the read invariant**, when its op revision is not `(0,0)`. -/
theorem ReadInv.step (hi : ReadInv s) (st : ApplyStep) (ha : st.Admissible s)
    (h0 : st.opRevision? ≠ some {}) : ReadInv (st.apply s) := by
  have hc := hi.consistent.step st ha
  cases st with
  | put key op il lid iv v =>
    rcases kvPutApply_state s key op il lid iv v with h | ⟨_, h⟩ <;>
      simp only [ApplyStep.apply, h] at hc ⊢
    · exact hi
    · exact hi.write hc ha (fun e => h0 (congrArg some e)) fun hl => by
        simp [putKvIndex_isLive] at hl
  | delete key op =>
    rcases kvDeleteApply_state s key op with h | ⟨idx, _, h⟩ <;>
      simp only [ApplyStep.apply, h] at hc ⊢
    · exact hi
    · exact hi.write hc ha (fun e => h0 (congrArg some e)) fun _ =>
        ⟨deleteKvIndex_modRevision idx op, rfl, rfl⟩
  | compact key R => exact hi.compact key R

/-! ## One call refines the abstract store -/

/-- The `KvRevInternal` `KvPutApply` takes as the previous one carries the lease and the value of
the key's point read, or lease `0` and no value when the read returns nothing. -/
theorem ReadInv.kvRevLast (hi : ReadInv s) (key : Bytes) (op : RevisionInternal) :
    ((s.getRawKvRev (putKvIndex (s.getRawKvIndex key) key op).lastModRevision).getD {}).kv.lease =
        ((viewOf s key).map (·.lease)).getD 0 ∧
      ((s.getRawKvRev (putKvIndex (s.getRawKvIndex key) key op).lastModRevision).getD {}).kv.value =
        ((viewOf s key).map (·.kv.value)).getD [] := by
  cases hget : s.getRawKvIndex key with
  | none =>
    rw [viewOf_of_getRawKvIndex_none hget]
    simp [putKvIndex, KvControl.getRawKvRev_def, hi.zero_rev]
  | some idx =>
    rw [putKvIndex_lastModRevision_some, KvControl.getRawKvRev_def]
    by_cases hl : idx.isLive
    · obtain ⟨g, hg, hgl⟩ := KvIndexInternal.isLive_iff.mp hl
      obtain ⟨kr, hkr, -⟩ := hi.consistent.live_rev key idx hget g hg hgl
      rw [viewOf, readAt, hget, Option.some_bind, readOf, if_pos hl, hkr]
      exact ⟨rfl, rfl⟩
    · rw [viewOf, readAt, hget, Option.some_bind, readOf, if_neg hl]
      cases hkr : s.kvRevMap idx.modRevision with
      | none => exact ⟨rfl, rfl⟩
      | some kr =>
        obtain ⟨hv, hle⟩ := hi.dead_rev key idx hget (by simpa using hl) kr hkr
        exact ⟨hle, hv⟩

/-- The lease `KvPutApply` checks is the abstract put's. -/
theorem ReadInv.putKvRev_lease (hi : ReadInv s) (key : Bytes) (op : RevisionInternal) (il : Bool)
    (lid : Int) (iv : Bool) (v : Bytes) (u : IndexUpdate) :
    (putKvRev key op il lid iv v u
      ((s.getRawKvRev (putKvIndex (s.getRawKvIndex key) key op).lastModRevision).getD {})).kv.lease =
        absLease (viewOf s) key il lid := by
  simp only [putKvRev, absLease, (hi.kvRevLast key op).1]

theorem ReadInv.viewOf_put (hi : ReadInv s) (key : Bytes) (op : RevisionInternal) (il : Bool)
    (lid : Int) (iv : Bool) (v : Bytes) :
    viewOf (kvPutApply s key op il lid iv v).2.1 key =
      absPut s.kvLeaseMap (viewOf s) key op il lid iv v key := by
  obtain ⟨-, hv⟩ := hi.kvRevLast key op
  obtain ⟨hcr, hver⟩ := hi.consistent.putKvIndex_prev key op
  have hhead : (viewOf s key).toList.head? = viewOf s key := by cases viewOf s key <;> rfl
  rw [kvRange_point_viewOf, hhead] at hcr hver
  dsimp only [kvPutApply, absPut]
  rw [hi.putKvRev_lease]
  by_cases hC : 0 < absLease (viewOf s) key il lid ∧
      s.kvLeaseMap (absLease (viewOf s) key il lid) = false
  · rw [if_pos hC, if_pos hC]
  · rw [if_neg hC, if_neg hC, viewOf, readAt_write_self _ (putKvIndex_modRevision _ _ _),
      if_pos (putKvIndex_isLive _ _ _), Function.update_same]
    simp only [kvOfRev, hi.putKvRev_lease]
    cases iv <;> simp [putKvRev, hcr, hver, hv, -KvControl.getRawKvIndex_def,
      -KvControl.getRawKvRev_def]

/-- After a delete no read of its key sees anything. -/
theorem readAt_kvDeleteApply_self (key : Bytes) (op : RevisionInternal) :
    readAt (kvDeleteApply s key op).2.1 key = none := by
  cases hget : s.getRawKvIndex key with
  | none => simp only [kvDeleteApply, hget, readAt, Option.none_bind]
  | some idx =>
    simp only [kvDeleteApply, hget]
    rw [readAt_write_self _ (deleteKvIndex_modRevision idx op), deleteKvIndex_isLive]
    rfl

/-- **One call refines the abstract store**: under the read invariant, an admissible call moves
what point reads return as `absApply` moves the store, with the state's lease table. -/
theorem ReadInv.viewOf_apply (hi : ReadInv s) (st : ApplyStep) (ha : st.Admissible s) :
    viewOf (st.apply s) = absApply s.kvLeaseMap (viewOf s) st := by
  funext k
  by_cases hk : k = st.key
  · subst hk
    cases st with
    | put key op il lid iv v => exact hi.viewOf_put key op il lid iv v
    | delete key op =>
      rw [viewOf, ApplyStep.apply, ApplyStep.key, readAt_kvDeleteApply_self]
      exact (Function.update_same key none (viewOf s)).symm
    | compact key R => exact viewOf_congr (hi.consistent.readAt_compact key R key)
  · rw [absApply_of_ne hk, viewOf_congr ((hi.consistent.step_frame st ha).2.2 k hk)]

/-! ## Runs -/

@[simp] theorem kvCompactApply_kvLeaseMap (s : KvControl) (key : Bytes) (R : RevisionInternal) :
    (kvCompactApply s key R).2.kvLeaseMap = s.kvLeaseMap := by
  unfold kvCompactApply; split
  · rfl
  · split
    · rfl
    · dsimp only; split <;> simp

theorem ApplyStep.run_kvLeaseMap_flags (s : KvControl) (steps : List ApplyStep) :
    (ApplyStep.run s steps).kvLeaseMap = s.kvLeaseMap ∧ (ApplyStep.run s steps).flags = s.flags := by
  induction steps generalizing s with
  | nil => exact ⟨rfl, rfl⟩
  | cons st steps ih =>
    rw [ApplyStep.run_cons, (ih _).1, (ih _).2, ApplyStep.apply_flags]
    refine ⟨?_, rfl⟩
    cases st with
    | put key op il lid iv v =>
      rcases kvPutApply_state s key op il lid iv v with h | ⟨_, h⟩ <;> simp [ApplyStep.apply, h]
    | delete key op =>
      rcases kvDeleteApply_state s key op with h | ⟨_, _, h⟩ <;> simp [ApplyStep.apply, h]
    | compact key R => simp [ApplyStep.apply]

/-- The next call of a run from empty maps with increasing op revisions is admissible. -/
theorem admissible_run_snoc (flags : Flags) (leases : Int → Bool) (steps : List ApplyStep)
    (st : ApplyStep) (hinc : ((steps ++ [st]).filterMap ApplyStep.opRevision?).Pairwise (· < ·)) :
    st.Admissible (ApplyStep.run { flags, kvLeaseMap := leases } steps) := by
  rw [List.filterMap_append, List.pairwise_append] at hinc
  have hi := runInv_run flags leases steps hinc.1
  have hop : ∀ o ∈ steps.filterMap ApplyStep.opRevision?, ∀ o' ∈ st.opRevision?, o < o' :=
    fun o ho o' ho' =>
      hinc.2.2 o ho o' (List.mem_filterMap.mpr ⟨st, List.mem_singleton_self _, ho'⟩)
  cases st with
  | put _ op _ _ _ _ => exact hi.fresh fun o ho => hop o ho op rfl
  | delete _ op => exact hi.fresh fun o ho => hop o ho op rfl
  | compact _ _ => trivial

/-- Along a run from empty maps with increasing op revisions, none `(0,0)`, the read invariant
holds and point reads see `absRun`. -/
theorem readInv_run (flags : Flags) (leases : Int → Bool) (steps : List ApplyStep)
    (hinc : (steps.filterMap ApplyStep.opRevision?).Pairwise (· < ·))
    (hzero : {} ∉ steps.filterMap ApplyStep.opRevision?) :
    ReadInv (ApplyStep.run { flags, kvLeaseMap := leases } steps) ∧
      viewOf (ApplyStep.run { flags, kvLeaseMap := leases } steps) = absRun leases steps := by
  induction steps using List.reverseRecOn with
  | nil =>
    refine ⟨readInv_init flags leases, funext fun k => viewOf_of_getRawKvIndex_none ?_⟩
    simp [KvControl.getRawKvIndex]
  | append_singleton steps st ih =>
    have ha := admissible_run_snoc flags leases steps st hinc
    rw [List.filterMap_append, List.pairwise_append] at hinc
    rw [List.filterMap_append, List.mem_append, not_or] at hzero
    obtain ⟨hi, hv⟩ := ih hinc.1 hzero.1
    have h0 : st.opRevision? ≠ some {} := fun h =>
      hzero.2 (List.mem_filterMap.mpr ⟨st, List.mem_singleton_self _, h⟩)
    rw [ApplyStep.run_append, ApplyStep.run_cons, ApplyStep.run_nil, absRun, List.foldl_append,
      List.foldl_cons, List.foldl_nil, ← absRun]
    refine ⟨hi.step st ha h0, ?_⟩
    rw [hi.viewOf_apply st ha, hv, (ApplyStep.run_kvLeaseMap_flags _ steps).1]

/-! ## Range reads -/

theorem mem_readView {k : Bytes} {o : Option KvRevInternal} :
    (k, o) ∈ readView s ↔ readAt s k = some o := by
  rw [mem_iff_lookup (keySorted_readView s), lookup_readView]

/-- In a consistent state the `Kv`s `KvRange` returns without a limit are those of the point
reads of the keys the range selects. -/
theorem Consistent.mem_rangeKvs (hc : Consistent s) (key rangeEnd : Bytes) (kv : Kv) :
    kv ∈ rangeKvs s key rangeEnd false ↔
      inRange s.flags key rangeEnd kv.kv.key ∧ viewOf s kv.kv.key = some kv := by
  simp only [rangeKvs, List.mem_filterMap, List.mem_filter, Option.map_eq_some']
  constructor
  · rintro ⟨⟨k, o⟩, ⟨he, hin⟩, kr, rfl, rfl⟩
    obtain ⟨kr', hkr', hid⟩ := hc.readView_some _ he
    obtain rfl := Option.some.inj hkr'
    have hkey : (kvOfRev kr false).kv.key = k := hid
    rw [hkey, viewOf, mem_readView.mp he]
    exact ⟨hin, rfl⟩
  · rintro ⟨hin, hv⟩
    rw [viewOf] at hv
    split at hv
    · rename_i kr hr
      cases hv
      exact ⟨(_, some kr), ⟨mem_readView.mpr hr, hin⟩, kr, rfl, rfl⟩
    · cases hv

theorem Consistent.rangeKvs_sorted (hc : Consistent s) (key rangeEnd : Bytes) (keysOnly : Bool) :
    ((rangeKvs s key rangeEnd keysOnly).map (·.kv.key)).Sorted (· < ·) := by
  rw [hc.map_key_rangeKvs, List.Sorted, List.pairwise_map]
  exact (keySorted_readView s).sublist (List.filter_sublist _)

/-- **The apply engine refines a last-writer-wins store**: after any run of apply calls from
empty maps, with increasing op revisions none of which is `(0,0)`, an unlimited `KvRange` returns
exactly the `Kv`s of `absRun` whose keys the range selects, in strictly ascending key order. -/
theorem kvRange_refines_absRun (flags : Flags) (leases : Int → Bool) (steps : List ApplyStep)
    (hinc : (steps.filterMap ApplyStep.opRevision?).Pairwise (· < ·))
    (hzero : {} ∉ steps.filterMap ApplyStep.opRevision?) (key rangeEnd : Bytes) :
    (∀ kv, kv ∈ (kvRange (ApplyStep.run { flags, kvLeaseMap := leases } steps) key rangeEnd 0
        false false).1 ↔ inRange flags key rangeEnd kv.kv.key ∧ absRun leases steps kv.kv.key = some kv) ∧
      ((kvRange (ApplyStep.run { flags, kvLeaseMap := leases } steps) key rangeEnd 0 false
        false).1.map (·.kv.key)).Sorted (· < ·) := by
  obtain ⟨hi, hv⟩ := readInv_run flags leases steps hinc hzero
  have hc := hi.consistent
  rw [hc.kvRange_limit, if_pos (.inl rfl)]
  refine ⟨fun kv => ?_, hc.rangeKvs_sorted key rangeEnd false⟩
  rw [hc.mem_rangeKvs, hv, (ApplyStep.run_kvLeaseMap_flags _ steps).2]

theorem kvRange_refines_absRun_scan :
    let steps := [ApplyStep.put [1] ⟨1, 0⟩ false 0 false [7], .put [2] ⟨2, 0⟩ false 0 false [8],
      .delete [1] ⟨3, 0⟩, .compact [2] ⟨3, 0⟩, .put [2] ⟨4, 0⟩ true 0 true [9]]
    ((steps.filterMap ApplyStep.opRevision?).Pairwise (· < ·) ∧
        ({} : RevisionInternal) ∉ steps.filterMap ApplyStep.opRevision?) ∧
      (∀ kv, kv ∈ (kvRange (ApplyStep.run { kvLeaseMap := fun _ => false } steps) [] [0] 0 false
          false).1 ↔ inRange {} [] [0] kv.kv.key ∧ absRun (fun _ => false) steps kv.kv.key = some kv) ∧
        ((kvRange (ApplyStep.run { kvLeaseMap := fun _ => false } steps) [] [0] 0 false
          false).1.map (·.kv.key)).Sorted (· < ·) := by
  intro steps
  have h : (steps.filterMap ApplyStep.opRevision?).Pairwise (· < ·) ∧
      ({} : RevisionInternal) ∉ steps.filterMap ApplyStep.opRevision? := by decide
  exact ⟨h, kvRange_refines_absRun {} (fun _ => false) steps h.1 h.2 [] [0]⟩

/-! ## What the abstract store keeps, and what reads then report -/

/-- After a run with increasing op revisions every `Kv` of the abstract store was created no later
than its last change, which is at the main revision of a call of the run, and has a positive
version. -/
theorem absRun_wellFormed (leases : Int → Bool) (steps : List ApplyStep)
    (hinc : (steps.filterMap ApplyStep.opRevision?).Pairwise (· < ·)) {k : Bytes} {kv : Kv}
    (h : absRun leases steps k = some kv) :
    kv.createRevision ≤ kv.modRevision ∧ 0 < kv.version ∧
      ∃ o ∈ steps.filterMap ApplyStep.opRevision?, kv.modRevision = o.main := by
  induction steps using List.reverseRecOn generalizing k kv with
  | nil => cases h
  | append_singleton steps st ih =>
    rw [List.filterMap_append, List.pairwise_append] at hinc
    have hsub := ((List.sublist_append_left steps [st]).filterMap ApplyStep.opRevision?).subset
    have hold : ∀ {k kv}, absRun leases steps k = some kv → kv.createRevision ≤ kv.modRevision ∧
        0 < kv.version ∧ ∃ o ∈ (steps ++ [st]).filterMap ApplyStep.opRevision?,
          kv.modRevision = o.main := fun h =>
      (ih hinc.1 h).imp_right (And.imp_right fun ⟨o, ho, he⟩ => ⟨o, hsub ho, he⟩)
    rw [absRun, List.foldl_append, List.foldl_cons, List.foldl_nil, ← absRun] at h
    by_cases hk : k = st.key
    swap
    · exact hold (by rwa [absApply_of_ne hk] at h)
    cases st with
    | put key op il lid iv v =>
      obtain rfl : k = key := hk
      have hop : op ∈ (steps ++ [ApplyStep.put k op il lid iv v]).filterMap
          ApplyStep.opRevision? :=
        List.mem_filterMap.mpr ⟨_, List.mem_append_right _ (List.mem_singleton_self _), rfl⟩
      simp only [absApply, absPut] at h
      split at h
      · exact hold h
      rw [Function.update_same, Option.some.injEq] at h
      subst h
      cases hprev : absRun leases steps k with
      | none => exact ⟨le_rfl, Int.one_pos, op, hop, rfl⟩
      | some a =>
        obtain ⟨hcm, hv, o, ho, hmo⟩ := ih hinc.1 hprev
        have hlt : o.main ≤ op.main :=
          RevisionInternal.main_le_of_lt (hinc.2.2 o ho op (by simp [ApplyStep.opRevision?]))
        exact ⟨by simp only [Option.map_some', Option.getD_some]; omega, by simp; omega, op, hop, rfl⟩
    | delete key op =>
      obtain rfl : k = key := hk
      simp [absApply] at h
    | compact key R => exact hold h

/-- A `Kv` any `KvRange` returns has the revisions and version of a `Kv` of the unlimited read: a
limit takes a prefix, `keys_only` clears only the value, `count_only` returns nothing. -/
theorem Consistent.mem_kvRange (hc : Consistent s) {key rangeEnd : Bytes} {limit : Int}
    {keysOnly countOnly : Bool} {kv : Kv}
    (h : kv ∈ (kvRange s key rangeEnd limit keysOnly countOnly).1) :
    ∃ kv' ∈ rangeKvs s key rangeEnd false, kv.createRevision = kv'.createRevision ∧
      kv.modRevision = kv'.modRevision ∧ kv.version = kv'.version := by
  cases countOnly
  swap
  · rw [kvRange_countOnly] at h; cases h
  rw [hc.kvRange_limit] at h
  have hall : kv ∈ rangeKvs s key rangeEnd keysOnly := by
    split at h
    · exact h
    · exact List.mem_of_mem_take h
  obtain ⟨e, he, hkv⟩ := List.mem_filterMap.mp hall
  obtain ⟨kr, hkr, rfl⟩ := Option.map_eq_some'.mp hkv
  exact ⟨kvOfRev kr false, List.mem_filterMap.mpr ⟨e, he, by rw [hkr]; rfl⟩, rfl, rfl, rfl⟩

/-- **Reads report a creation no later than the last change, and a positive version**: after any
run from empty maps with increasing op revisions, none `(0,0)`, every `Kv` a `KvRange` returns
(any range, limit, `keys_only` and `count_only`) has `create_revision <= mod_revision`, a
positive version, and as `mod_revision` the main revision of a call of the run. -/
theorem kvRange_revisions_wellFormed (flags : Flags) (leases : Int → Bool)
    (steps : List ApplyStep) (hinc : (steps.filterMap ApplyStep.opRevision?).Pairwise (· < ·))
    (hzero : {} ∉ steps.filterMap ApplyStep.opRevision?) (key rangeEnd : Bytes) (limit : Int)
    (keysOnly countOnly : Bool) :
    ∀ kv ∈ (kvRange (ApplyStep.run { flags, kvLeaseMap := leases } steps) key rangeEnd limit
        keysOnly countOnly).1,
      kv.createRevision ≤ kv.modRevision ∧ 0 < kv.version ∧
        ∃ o ∈ steps.filterMap ApplyStep.opRevision?, kv.modRevision = o.main := by
  obtain ⟨hi, hv⟩ := readInv_run flags leases steps hinc hzero
  intro kv hkv
  obtain ⟨kv', hkv', hcr, hmr, hver⟩ := hi.consistent.mem_kvRange hkv
  have hread := ((hi.consistent.mem_rangeKvs key rangeEnd kv').mp hkv').2
  rw [hv] at hread
  rw [hcr, hmr, hver]
  exact absRun_wellFormed leases steps hinc hread

theorem kvRange_revisions_wellFormed_scan :
    let steps := [ApplyStep.put [1] ⟨1, 0⟩ false 0 false [7], .put [2] ⟨2, 0⟩ false 0 false [8],
      .put [1] ⟨3, 0⟩ false 0 false [9], .delete [2] ⟨4, 0⟩]
    ((steps.filterMap ApplyStep.opRevision?).Pairwise (· < ·) ∧
        ({} : RevisionInternal) ∉ steps.filterMap ApplyStep.opRevision?) ∧
      ∀ kv ∈ (kvRange (ApplyStep.run { kvLeaseMap := fun _ => false } steps) [] [0] 1 true
          false).1,
        kv.createRevision ≤ kv.modRevision ∧ 0 < kv.version ∧
          ∃ o ∈ steps.filterMap ApplyStep.opRevision?, kv.modRevision = o.main := by
  intro steps
  have h : (steps.filterMap ApplyStep.opRevision?).Pairwise (· < ·) ∧
      ({} : RevisionInternal) ∉ steps.filterMap ApplyStep.opRevision? := by decide
  exact ⟨h, kvRange_revisions_wellFormed {} (fun _ => false) steps h.1 h.2 [] [0] 1 true false⟩

/-! ## Leases -/

/-- Every stored `KvRevInternal` has a lease of at most `0`, or one that `kv_lease_map_` holds. -/
def LeasesHeld (s : KvControl) : Prop :=
  ∀ r kr, s.kvRevMap r = some kr → kr.kv.lease ≤ 0 ∨ s.kvLeaseMap kr.kv.lease = true

/-- Compaction only erases `KvRevInternal`s. -/
theorem kvCompactApply_kvRevMap_of_some {key : Bytes} {R r : RevisionInternal}
    {kr : KvRevInternal} (h : (kvCompactApply s key R).2.kvRevMap r = some kr) :
    s.kvRevMap r = some kr := by
  unfold kvCompactApply at h
  split at h
  · exact h
  · split at h
    · exact h
    · dsimp only at h
      rw [deleteRevisions_kvRevMap] at h
      split_ifs at h <;> simpa using h

/-- Each call keeps the leases held: a put writes only a lease that passed its check, a delete
lease `0`, and a compaction only erases. -/
theorem LeasesHeld.step (h : LeasesHeld s) (st : ApplyStep) : LeasesHeld (st.apply s) := by
  have hwrite : ∀ key idx op (kr : KvRevInternal),
      kr.kv.lease ≤ 0 ∨ s.kvLeaseMap kr.kv.lease = true →
        LeasesHeld ((s.putRawKvIndex key idx).putRawKvRev op kr) := by
    intro key idx op kr hkr r kr' h'
    rw [kvRevMap_write] at h'
    split_ifs at h'
    · cases h'
      simpa using hkr
    · simpa using h r kr' h'
  cases st with
  | put key op il lid iv v =>
    dsimp only [ApplyStep.apply, kvPutApply]
    split_ifs with hC
    · exact h
    · refine hwrite _ _ _ _ ((not_and_or.mp hC).imp le_of_not_lt ?_)
      simp
  | delete key op =>
    rcases kvDeleteApply_state s key op with h' | ⟨idx, _, h'⟩ <;>
      simp only [ApplyStep.apply, h']
    · exact h
    · exact hwrite _ _ _ _ (.inl le_rfl)
  | compact key R =>
    intro r kr h'
    rw [ApplyStep.apply, kvCompactApply_kvLeaseMap]
    exact h r kr (kvCompactApply_kvRevMap_of_some h')

theorem Reachable.leasesHeld (hs : Reachable s) : LeasesHeld s := by
  induction hs with
  | init flags leases => exact fun _ _ h => nomatch h
  | step st _ _ ih => exact ih.step st

/-- Every `Kv` the loop of `KvRange` adds is that of a stored `KvRevInternal`. -/
theorem mem_kvRangeLoop {limit : Int} {keysOnly countOnly : Bool} {idxs : List KvIndexInternal}
    {n : UInt32} {acc : List Kv} {kv : Kv}
    (h : kv ∈ kvRangeLoop s limit keysOnly countOnly idxs n acc) :
    kv ∈ acc ∨ ∃ r kr, s.kvRevMap r = some kr ∧ kv = kvOfRev kr keysOnly := by
  induction idxs generalizing n acc with
  | nil => exact .inl h
  | cons idx rest ih =>
    simp only [kvRangeLoop] at h
    split_ifs at h
    · exact ih h
    · exact .inl h
    · exact ih h
    · split at h
      · exact ih h
      · rename_i kvRev hkr
        rcases ih h with h | h
        · rcases List.mem_append.mp h with h | h
          · exact .inl h
          · exact .inr ⟨_, kvRev, hkr, List.mem_singleton.mp h⟩
        · exact .inr h

/-- **No read returns a lease the coordinator does not hold**: in every reachable state each `Kv`
a `KvRange` returns, whatever its arguments, has a lease of at most `0` or one in
`kv_lease_map_`, also when its put took the lease of the previous `Kv` (`ignore_lease`). -/
theorem kvRange_lease_held (hs : Reachable s) (key rangeEnd : Bytes) (limit : Int)
    (keysOnly countOnly : Bool) :
    ∀ kv ∈ (kvRange s key rangeEnd limit keysOnly countOnly).1,
      kv.lease ≤ 0 ∨ s.kvLeaseMap kv.lease = true := by
  intro kv hkv
  rcases mem_kvRangeLoop hkv with h | ⟨r, kr, hkr, rfl⟩
  · cases h
  · exact hs.leasesHeld r kr hkr

theorem kvRange_lease_held_ignoreLease :
    let s := ApplyStep.run { kvLeaseMap := fun l => decide (l = 5) }
      [.put [1] ⟨1, 0⟩ false 5 false [7], .put [1] ⟨2, 0⟩ true 0 false [8]]
    Reachable s ∧ ∀ kv ∈ (kvRange s [1] [] 0 false false).1,
      kv.lease ≤ 0 ∨ s.kvLeaseMap kv.lease = true := by
  intro s
  have f1 := fresh_init {} (fun l => decide (l = 5)) ⟨1, 0⟩
  have hs : Reachable s := .step (.put [1] ⟨2, 0⟩ true 0 false [8])
    (.step (.put [1] ⟨1, 0⟩ false 5 false [7]) (.init _ _) f1)
    ((consistent_init _ _).fresh_put f1 (by decide : (⟨1, 0⟩ : RevisionInternal) < ⟨2, 0⟩)
      [1] false 5 false [7])
  exact ⟨hs, kvRange_lease_held hs [1] [] 0 false false⟩

/-- The second put of `kvRange_lease_held_ignoreLease` takes lease `5` under `ignore_lease`. -/
example :
    (kvRange (ApplyStep.run { kvLeaseMap := fun l => decide (l = 5) }
      [.put [1] ⟨1, 0⟩ false 5 false [7], .put [1] ⟨2, 0⟩ true 0 false [8]]) [1] [] 0 false
        false).1 =
      [{ kv := { key := [1], value := [8] }, createRevision := 1, modRevision := 2, version := 2,
         lease := 5 }] := by
  decide

end DingoKv
