import DingoKv.Propose

/-!
# The arguments of `TriggerOneWatch`

`KvPutApply` and `KvDeleteApply` (`kv_control_kv.cc:535-817`) build the `new_kv` and `prev_kv`
they hand to `TriggerOneWatch` from the index they are mutating (`watchEvent`); `KvRange` builds
its `Kv` from the stored `KvRevInternal`. The two agree except on one field.

## Results

* `Reachable.kvRev_modRevision`: a stored `KvRevInternal` has the revision it is stored at as its
  `mod_revision`.
* `Reachable.live_read`: what a point read of a live key is made of: the latest generation's
  `create_revision` and version, the index's `mod_revision`, the stored lease and value.
* `watch_prevKv_newKv`: the `new_kv` of a put is the `Kv` a point read returns right after it;
  on a key live before the call, the `prev_kv` of a put or a delete is the `Kv` a point read
  returned right before it, but with the version one higher, since the code reads `verison` after
  incrementing it; and when the `create_revision` is not positive it also lacks the lease, the
  key and the value.

Out of scope: `one_time_watch_map_` and `TriggerOneWatch` itself; an event here is what a call
would hand to it.
-/

namespace DingoKv

variable {s : KvControl}

/-! ## What is stored at a revision -/

/-- Compaction only erases `KvRevInternal`s. -/
theorem kvCompactApply_kvRevMap_cases (s : KvControl) (key : Bytes) (R r : RevisionInternal) :
    (kvCompactApply s key R).2.kvRevMap r = none ∨
      (kvCompactApply s key R).2.kvRevMap r = s.kvRevMap r := by
  unfold kvCompactApply
  split
  · exact .inr rfl
  · split
    · exact .inr rfl
    · rw [deleteRevisions_kvRevMap]
      split_ifs <;> first | exact .inl rfl | exact .inr rfl

/-- **A stored `KvRevInternal` carries its revision** as `mod_revision`: puts and deletes write
the record of `op` at `op`, and compaction only erases. -/
theorem Reachable.kvRev_modRevision (hs : Reachable s) :
    ∀ r kr, s.kvRevMap r = some kr → kr.kv.modRevision = r := by
  induction hs with
  | init => exact fun _ _ h => nomatch h
  | @step s st _ _ ih =>
    intro r kr h
    cases st with
    | put key op il lid iv v =>
      rcases kvPutApply_state s key op il lid iv v with h' | ⟨_, h'⟩ <;>
        rw [ApplyStep.apply, h'] at h
      · exact ih r kr h
      · rw [kvRevMap_write] at h
        split_ifs at h with hr
        · cases h; exact hr.symm
        · exact ih r kr h
    | delete key op =>
      rcases kvDeleteApply_state s key op with h' | ⟨_, _, h'⟩ <;> rw [ApplyStep.apply, h'] at h
      · exact ih r kr h
      · rw [kvRevMap_write] at h
        split_ifs at h with hr
        · cases h; exact hr.symm
        · exact ih r kr h
    | compact key R =>
      rcases kvCompactApply_kvRevMap_cases s key R r with h' | h' <;> rw [ApplyStep.apply, h'] at h
      · cases h
      · exact ih r kr h

/-- **A point read of a live key**, field by field: in a reachable state it is the latest
generation's `create_revision` and version, the index's `mod_revision`, and the lease and value of
the `KvRevInternal` stored there. -/
theorem Reachable.live_read (hs : Reachable s) {key : Bytes} {kv : Kv}
    (hlive : (kvRange s key [] 0 false false).1 = [kv]) :
    ∃ idx latest c kr, s.getRawKvIndex key = some idx ∧ idx.generations.getLast? = some latest ∧
      latest.createRevision = some c ∧ s.kvRevMap idx.modRevision = some kr ∧
      kv = { createRevision := c.main, modRevision := idx.modRevision.main,
             version := latest.verison, lease := kr.kv.lease, kv := { key, value := kr.kv.value } } := by
  have hc := hs.consistent
  obtain ⟨kr, hread, rfl⟩ := mem_kvRange_point (hlive ▸ List.mem_singleton_self kv)
  cases hget : s.getRawKvIndex key with
  | none => rw [readAt, hget] at hread; cases hread
  | some idx =>
    rw [readAt, hget, Option.some_bind, readOf] at hread
    split_ifs at hread with hil
    obtain ⟨latest, hl, hlive'⟩ := KvIndexInternal.isLive_iff.mp hil
    have hkr : s.kvRevMap idx.modRevision = some kr := Option.some.inj hread
    obtain ⟨kr', h1, -, h3, h4⟩ := hc.live_rev key idx hget latest hl hlive'
    obtain rfl : kr' = kr := Option.some.inj (h1.symm.trans hkr)
    obtain ⟨kr'', h1', hid⟩ :=
      hc.rev_of_index key idx hget _ ((hc.wellFormed key idx hget).mod_mem hl hlive')
    obtain rfl : kr'' = kr' := Option.some.inj (h1'.symm.trans hkr)
    refine ⟨idx, latest, kr''.kv.createRevision, kr'', rfl, hl, h3.symm, hkr, ?_⟩
    simp [kvOfRev, hs.kvRev_modRevision _ _ hkr, hid, h4]

/-! ## The event -/

/-- The `prev_kv` the index half of a put computes on a live latest generation, before the lease
and value are filled in. -/
theorem putKvIndex_prevKv {idx : KvIndexInternal} {latest : Generation} {c : RevisionInternal}
    (hl : idx.generations.getLast? = some latest) (hc : latest.createRevision = some c)
    (key : Bytes) (op : RevisionInternal) :
    (putKvIndex (some idx) key op).prevKv =
      { createRevision := c.main, modRevision := idx.modRevision.main,
        version := latest.verison + 1 } := by
  simp [putKvIndex, hl, hc, putGeneration]

/-- The same for a delete. -/
theorem deleteKvIndex_prevKv {idx : KvIndexInternal} {latest : Generation} {c : RevisionInternal}
    (hl : idx.generations.getLast? = some latest) (hc : latest.createRevision = some c)
    (op : RevisionInternal) :
    (deleteKvIndex idx op).prevKv =
      { createRevision := c.main, modRevision := idx.modRevision.main,
        version := latest.verison + 1 } := by
  simp [deleteKvIndex, hl, hc]

/-- `prev_kv` as `TriggerOneWatch` gets it, from the index half's and the previous record. -/
theorem watchEvent_prevKv {u : IndexUpdate} {kv : Kv} {kvRevLast : KvRevInternal} {key : Bytes}
    (hu : u.prevKv =
      { createRevision := kv.createRevision, modRevision := kv.modRevision, version := kv.version + 1 })
    (hkv : kv.lease = kvRevLast.kv.lease ∧ kv.kv = { key, value := kvRevLast.kv.value })
    (t : EventType) (kvRev : KvRevInternal) (op : RevisionInternal) :
    (watchEvent key t u kvRevLast kvRev op).prevKv =
      if 0 < kv.createRevision then { kv with version := kv.version + 1 }
      else
        { createRevision := kv.createRevision, modRevision := kv.modRevision,
          version := kv.version + 1 } := by
  simp only [watchEvent, hu, hkv.1, ← hkv.2]

theorem mem_kvPutApply_event {key : Bytes} {op : RevisionInternal} {il : Bool} {lid : Int}
    {iv : Bool} {v : Bytes} {ev : WatchEvent} (hev : ev ∈ (kvPutApply s key op il lid iv v).2.2) :
    (kvPutApply s key op il lid iv v).1 = .ok ∧
      ev = watchEvent key .put (putKvIndex (s.getRawKvIndex key) key op)
        ((s.getRawKvRev (putKvIndex (s.getRawKvIndex key) key op).lastModRevision).getD {})
        (putKvRev key op il lid iv v (putKvIndex (s.getRawKvIndex key) key op)
          ((s.getRawKvRev (putKvIndex (s.getRawKvIndex key) key op).lastModRevision).getD {})) op := by
  dsimp only [kvPutApply] at hev ⊢
  split_ifs at hev ⊢
  · cases hev
  · exact ⟨rfl, (Option.some.inj hev).symm⟩

/-- **What `TriggerOneWatch` receives**: in a reachable state, the `new_kv` of a put is the `Kv`
a point read returns right after it; on a key a point read finds live as `kv`, the `prev_kv` of a
put or a delete is `kv` with the version one higher, and, when `kv`'s `create_revision` is not
positive, without its lease, key and value. -/
theorem watch_prevKv_newKv (hs : Reachable s) (key : Bytes) (op : RevisionInternal) :
    (∀ il lid iv v, ∀ ev ∈ (kvPutApply s key op il lid iv v).2.2,
      (kvRange (kvPutApply s key op il lid iv v).2.1 key [] 0 false false).1 = [ev.newKv]) ∧
    ∀ kv, (kvRange s key [] 0 false false).1 = [kv] →
      (∀ il lid iv v, ∀ ev ∈ (kvPutApply s key op il lid iv v).2.2,
        ev.prevKv = if 0 < kv.createRevision then { kv with version := kv.version + 1 }
          else
            { createRevision := kv.createRevision, modRevision := kv.modRevision,
              version := kv.version + 1 }) ∧
      ∀ ev ∈ (kvDeleteApply s key op).2.2,
        ev.prevKv = if 0 < kv.createRevision then { kv with version := kv.version + 1 }
          else
            { createRevision := kv.createRevision, modRevision := kv.modRevision,
              version := kv.version + 1 } := by
  refine ⟨fun il lid iv v ev hev => ?_, fun kv hlive => ?_⟩
  · obtain ⟨hok, rfl⟩ := mem_kvPutApply_event hev
    rw [kvRange_point, readAt_kvPutApply hok]
    rfl
  obtain ⟨idx, latest, c, kr, hget, hl, hc, hkr, rfl⟩ := hs.live_read hlive
  have hlast : (s.getRawKvRev idx.modRevision).getD {} = kr := by
    rw [KvControl.getRawKvRev_def, hkr, Option.getD_some]
  refine ⟨fun il lid iv v ev hev => ?_, fun ev hev => ?_⟩
  · obtain ⟨-, rfl⟩ := mem_kvPutApply_event hev
    rw [hget, putKvIndex_lastModRevision_some, hlast]
    refine watchEvent_prevKv (putKvIndex_prevKv hl hc key op) ?_ _ _ _
    exact ⟨rfl, rfl⟩
  · simp only [kvDeleteApply, hget, Option.mem_def, Option.some.injEq] at hev
    subst hev
    have hlm : (deleteKvIndex idx op).lastModRevision = idx.modRevision := by
      simp [deleteKvIndex, hl, hc]
    rw [hlm, hlast]
    refine watchEvent_prevKv (deleteKvIndex_prevKv hl hc op) ?_ _ _ _
    exact ⟨rfl, rfl⟩

theorem watch_prevKv_newKv_second_put :
    let s := (kvPutApply { kvLeaseMap := fun _ => false } [1] ⟨1, 0⟩ false 0 false [7]).2.1
    Reachable s ∧
      (∀ il lid iv v, ∀ ev ∈ (kvPutApply s [1] ⟨2, 0⟩ il lid iv v).2.2,
        (kvRange (kvPutApply s [1] ⟨2, 0⟩ il lid iv v).2.1 [1] [] 0 false false).1 = [ev.newKv]) ∧
      ∀ kv, (kvRange s [1] [] 0 false false).1 = [kv] →
        (∀ il lid iv v, ∀ ev ∈ (kvPutApply s [1] ⟨2, 0⟩ il lid iv v).2.2,
          ev.prevKv = if 0 < kv.createRevision then { kv with version := kv.version + 1 }
            else
              { createRevision := kv.createRevision, modRevision := kv.modRevision,
                version := kv.version + 1 }) ∧
        ∀ ev ∈ (kvDeleteApply s [1] ⟨2, 0⟩).2.2,
          ev.prevKv = if 0 < kv.createRevision then { kv with version := kv.version + 1 }
            else
              { createRevision := kv.createRevision, modRevision := kv.modRevision,
                version := kv.version + 1 } := by
  intro s
  have hs : Reachable s := .step (.put [1] ⟨1, 0⟩ false 0 false [7]) (.init _ _) (fresh_init _ _ _)
  exact ⟨hs, watch_prevKv_newKv hs [1] ⟨2, 0⟩⟩

end DingoKv
