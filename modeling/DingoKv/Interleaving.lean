import DingoKv.AbstractStore

/-!
# Interleavings: compactions anywhere in a run, and the applied log of the protocol

Two questions about the order in which calls reach the apply engine.

* **Compaction calls.** `CompactionTask` proposes its `KvCompact` calls between the puts and
  deletes of the clients, so a put may read its previous `KvRevInternal` after a compaction has
  rewritten the index and erased revisions. The argument threads one relation: two states
  *read alike* when `readAt` agrees on every key. Under the read invariant and with one lease
  table, a put computes its `KvRevInternal` from the read of its key only (its previous value and
  lease through `ReadInv.kvRevLast`, its `create_revision` and version through
  `Consistent.putKvIndex_readAt`), a delete leaves its key unread, a compaction changes no read,
  and a call leaves every other key alone (`Consistent.step_frame`). So states that read alike
  stay alike (`ReadInv.readAt_apply_congr`).
* **The protocol.** Clients propose against the applied maps while the replication layer applies
  the log, in any interleaving (`ProtocolStep`). The applied maps only ever change by apply calls
  of log entries, oldest first, and the calls that change them store their op revision, which
  every later proposal is fresh for.

## Results

* `kvRange_drop_compactions`: after any run from empty maps with increasing op revisions, none
  `(0,0)`, every `KvRange` (any range, limit, `keys_only`, `count_only`) returns what it returns
  after the same run with its compaction calls removed. The side condition is needed:
  `kvRange_sees_compaction_at_zero` is a run with a put at `(0,0)` where a compaction changes a
  later put's value.
* `protocol_store_serial`: in every reachable protocol state the applied maps are those of one
  run of apply calls from empty maps at increasing op revisions, each below the revision of every
  entry still in the log.
-/

namespace DingoKv

variable {s s' : KvControl}

/-! ## What a put computes from the read of its key -/

/-- The `create_revision` and version a put computes, from what a read of its key sees: those of
the `KvRevInternal` it sees, or the put's own revision and `1`. -/
theorem Consistent.putKvIndex_readAt (hc : Consistent s) (key : Bytes) (op : RevisionInternal) :
    (putKvIndex (s.getRawKvIndex key) key op).newCreateRevision =
        ((readAt s key).join.map (·.kv.createRevision)).getD op ∧
      (putKvIndex (s.getRawKvIndex key) key op).newVersion =
        ((readAt s key).join.map (·.kv.version + 1)).getD 1 := by
  unfold readAt
  cases hget : s.getRawKvIndex key with
  | none => exact ⟨rfl, rfl⟩
  | some idx =>
    have hw := hc.wellFormed key idx hget
    obtain ⟨hist, latest, hsplit⟩ := exists_split hw.nonempty
    have hlast : latest ∈ idx.generations.getLast? := by simp [hsplit]
    rw [putKvIndex_some hsplit]
    by_cases ho : latest.createRevision.isSome
    · have hl := hw.isLive_of_open (List.mem_of_getLast?_eq_some hlast) ho
      obtain ⟨kr, h1, -, h3, h4⟩ := hc.live_rev key idx hget latest hlast hl
      have hil : idx.isLive := KvIndexInternal.isLive_iff.mpr ⟨latest, hlast, hl⟩
      obtain ⟨c, hcr⟩ := Option.isSome_iff_exists.mp ho
      rw [hcr, Option.some.injEq] at h3
      simp [readOf, hil, h1, putGeneration, hcr, h3, h4]
    · have ht : latest.createRevision = none := by simpa using ho
      have hil : ¬ idx.isLive := by simp [KvIndexInternal.isLive, hsplit, Generation.isLive, ht]
      simp [readOf, hil, putGeneration, ht]

/-- Two states that read `key` alike compute the same `KvRevInternal` for a put of it. -/
theorem ReadInv.putKvRev_congr (hi : ReadInv s) (hi' : ReadInv s') {key : Bytes}
    (h : readAt s key = readAt s' key) (op : RevisionInternal) (il : Bool) (lid : Int) (iv : Bool)
    (v : Bytes) :
    putKvRev key op il lid iv v (putKvIndex (s.getRawKvIndex key) key op)
        ((s.getRawKvRev (putKvIndex (s.getRawKvIndex key) key op).lastModRevision).getD {}) =
      putKvRev key op il lid iv v (putKvIndex (s'.getRawKvIndex key) key op)
        ((s'.getRawKvRev (putKvIndex (s'.getRawKvIndex key) key op).lastModRevision).getD {}) := by
  obtain ⟨hl, hv⟩ := hi.kvRevLast key op
  obtain ⟨hl', hv'⟩ := hi'.kvRevLast key op
  obtain ⟨hcr, hver⟩ := hi.consistent.putKvIndex_readAt key op
  obtain ⟨hcr', hver'⟩ := hi'.consistent.putKvIndex_readAt key op
  simp only [putKvRev, hl, hv, hl', hv', hcr, hver, hcr', hver', h, viewOf_congr h]

theorem ReadInv.readAt_put_congr (hi : ReadInv s) (hi' : ReadInv s')
    (hl : s.kvLeaseMap = s'.kvLeaseMap) {key : Bytes} (h : readAt s key = readAt s' key)
    (op : RevisionInternal) (il : Bool) (lid : Int) (iv : Bool) (v : Bytes) :
    readAt (kvPutApply s key op il lid iv v).2.1 key =
      readAt (kvPutApply s' key op il lid iv v).2.1 key := by
  dsimp only [kvPutApply]
  rw [hi.putKvRev_congr hi' h, hl]
  split_ifs
  · exact h
  · rw [readAt_write_self _ (putKvIndex_modRevision _ _ _),
      readAt_write_self _ (putKvIndex_modRevision _ _ _), if_pos (putKvIndex_isLive _ _ _),
      if_pos (putKvIndex_isLive _ _ _)]

/-! ## States that read alike stay alike -/

/-- **Two states that read alike stay alike**: under the read invariant and with one lease table,
an admissible call leaves every read of the two states equal. -/
theorem ReadInv.readAt_apply_congr (hi : ReadInv s) (hi' : ReadInv s')
    (hl : s.kvLeaseMap = s'.kvLeaseMap) (h : ∀ k, readAt s k = readAt s' k) (st : ApplyStep)
    (ha : st.Admissible s) (ha' : st.Admissible s') (k : Bytes) :
    readAt (st.apply s) k = readAt (st.apply s') k := by
  by_cases hk : k = st.key
  · subst hk
    cases st with
    | put key op il lid iv v => exact hi.readAt_put_congr hi' hl (h key) op il lid iv v
    | delete key op =>
      exact (readAt_kvDeleteApply_self key op).trans (readAt_kvDeleteApply_self key op).symm
    | compact key R =>
      exact (hi.consistent.readAt_compact key R key).trans
        ((h key).trans (hi'.consistent.readAt_compact key R key).symm)
  · rw [(hi.consistent.step_frame st ha).2.2 k hk, (hi'.consistent.step_frame st ha').2.2 k hk, h]

theorem ApplyStep.readAt_apply_of_opRevision?_none (hc : Consistent s) {st : ApplyStep}
    (h : st.opRevision? = none) (k : Bytes) : readAt (st.apply s) k = readAt s k := by
  cases st with
  | compact key R => exact hc.readAt_compact key R k
  | _ => cases h

theorem filterMap_opRevision?_filter (steps : List ApplyStep) :
    (steps.filter (·.opRevision?.isSome)).filterMap ApplyStep.opRevision? =
      steps.filterMap ApplyStep.opRevision? := by
  induction steps with
  | nil => rfl
  | cons st steps ih => cases h : st.opRevision? <;> simp [List.filter_cons, h, ih]

/-- A run and the same run without its compaction calls read alike. -/
theorem readAt_run_filter (flags : Flags) (leases : Int → Bool) (steps : List ApplyStep)
    (hinc : (steps.filterMap ApplyStep.opRevision?).Pairwise (· < ·))
    (hzero : {} ∉ steps.filterMap ApplyStep.opRevision?) (k : Bytes) :
    readAt (ApplyStep.run { flags, kvLeaseMap := leases } steps) k =
      readAt (ApplyStep.run { flags, kvLeaseMap := leases }
        (steps.filter (·.opRevision?.isSome))) k := by
  induction steps using List.reverseRecOn generalizing k with
  | nil => rfl
  | append_singleton steps st ih =>
    have ha := admissible_run_snoc flags leases steps st hinc
    have ha' := admissible_run_snoc flags leases (steps.filter (·.opRevision?.isSome)) st
      (by rwa [List.filterMap_append, filterMap_opRevision?_filter, ← List.filterMap_append])
    rw [List.filterMap_append, List.pairwise_append] at hinc
    rw [List.filterMap_append, List.mem_append, not_or] at hzero
    have hinc' := (filterMap_opRevision?_filter steps).symm ▸ hinc.1
    have hzero' := (filterMap_opRevision?_filter steps).symm ▸ hzero.1
    obtain ⟨hi, -⟩ := readInv_run flags leases steps hinc.1 hzero.1
    rw [List.filter_append, ApplyStep.run_append, ApplyStep.run_append, ApplyStep.run_cons,
      ApplyStep.run_nil]
    cases hst : st.opRevision? with
    | none =>
      have hf : [st].filter (·.opRevision?.isSome) = [] := by simp [hst]
      rw [hf, ApplyStep.run_nil, ApplyStep.readAt_apply_of_opRevision?_none hi.consistent hst,
        ih hinc.1 hzero.1]
    | some op =>
      have hf : [st].filter (·.opRevision?.isSome) = [st] := by simp [hst]
      rw [hf, ApplyStep.run_cons, ApplyStep.run_nil]
      refine hi.readAt_apply_congr (readInv_run flags leases _ hinc' hzero').1 ?_
        (ih hinc.1 hzero.1) st ha ha' k
      rw [(ApplyStep.run_kvLeaseMap_flags _ steps).1, (ApplyStep.run_kvLeaseMap_flags _ _).1]

/-- **Compactions anywhere in a run change no read**: after any run from empty maps with
increasing op revisions, none `(0,0)`, every `KvRange` returns what it returns after the same
run with its compaction calls removed. -/
theorem kvRange_drop_compactions (flags : Flags) (leases : Int → Bool) (steps : List ApplyStep)
    (hinc : (steps.filterMap ApplyStep.opRevision?).Pairwise (· < ·))
    (hzero : {} ∉ steps.filterMap ApplyStep.opRevision?) (key rangeEnd : Bytes) (limit : Int)
    (keysOnly countOnly : Bool) :
    kvRange (ApplyStep.run { flags, kvLeaseMap := leases } steps) key rangeEnd limit keysOnly
        countOnly =
      kvRange (ApplyStep.run { flags, kvLeaseMap := leases }
        (steps.filter (·.opRevision?.isSome))) key rangeEnd limit keysOnly countOnly := by
  have hinc' := (filterMap_opRevision?_filter steps).symm ▸ hinc
  have hzero' := (filterMap_opRevision?_filter steps).symm ▸ hzero
  refine kvRange_congr (readInv_run flags leases steps hinc hzero).1.consistent.id_eq
    (readInv_run flags leases _ hinc' hzero').1.consistent.id_eq ?_
    (readAt_run_filter flags leases steps hinc hzero) key rangeEnd limit keysOnly countOnly
  rw [(ApplyStep.run_kvLeaseMap_flags _ steps).2, (ApplyStep.run_kvLeaseMap_flags _ _).2]

theorem kvRange_drop_compactions_put_compact_put :
    let steps := [ApplyStep.put [1] ⟨1, 0⟩ false 0 false [7], .put [1] ⟨2, 0⟩ false 0 false [8],
      .compact [1] ⟨3, 0⟩, .put [1] ⟨4, 0⟩ true 0 true [9]]
    ((steps.filterMap ApplyStep.opRevision?).Pairwise (· < ·) ∧
        ({} : RevisionInternal) ∉ steps.filterMap ApplyStep.opRevision?) ∧
      kvRange (ApplyStep.run { kvLeaseMap := fun _ => false } steps) [1] [] 0 false false =
        kvRange (ApplyStep.run { kvLeaseMap := fun _ => false }
          (steps.filter (·.opRevision?.isSome))) [1] [] 0 false false := by
  intro steps
  have h : (steps.filterMap ApplyStep.opRevision?).Pairwise (· < ·) ∧
      ({} : RevisionInternal) ∉ steps.filterMap ApplyStep.opRevision? := by decide
  exact ⟨h, kvRange_drop_compactions {} (fun _ => false) steps h.1 h.2 [1] [] 0 false false⟩

/-- With a put at `(0,0)` a compaction is seen: it erases that revision, and a later put of an
absent key with `ignore_value` then takes the empty value instead of the one stored there. -/
theorem kvRange_sees_compaction_at_zero :
    let steps := [ApplyStep.put [1] ⟨0, 0⟩ false 0 false [7], .put [1] ⟨1, 0⟩ false 0 false [8],
      .compact [1] ⟨2, 0⟩, .put [2] ⟨3, 0⟩ false 0 true [9]]
    (steps.filterMap ApplyStep.opRevision?).Pairwise (· < ·) ∧
      (kvRange (ApplyStep.run { kvLeaseMap := fun _ => false } steps) [2] [] 0 false
        false).1.map (·.kv.value) = [[]] ∧
      (kvRange (ApplyStep.run { kvLeaseMap := fun _ => false }
        (steps.filter (·.opRevision?.isSome))) [2] [] 0 false false).1.map (·.kv.value) = [[7]] := by
  decide

/-! ## The applied maps of the protocol -/

/-- Applying a log entry changes nothing, or is the put or delete at its op revision, which stores
that revision and keeps every stored one. -/
theorem applyKvIndexIncrement_eq_or_stores (s : KvControl) (e : KvIndexIncrement) :
    (applyKvIndexIncrement s e).2 = s ∨
      ∃ st : ApplyStep, st.opRevision? = some e.opRevision ∧
        (applyKvIndexIncrement s e).2 = st.apply s ∧
        ∀ r, (∃ kr, s.kvRevMap r = some kr) ∨ r = e.opRevision →
          ∃ kr, (st.apply s).kvRevMap r = some kr := by
  have hw : ∀ key idx kr r, (∃ kr, s.kvRevMap r = some kr) ∨ r = e.opRevision →
      ∃ kr', ((s.putRawKvIndex key idx).putRawKvRev e.opRevision kr).kvRevMap r = some kr' := by
    intro key idx kr r hr
    rw [kvRevMap_write]
    split_ifs with hro
    · exact ⟨kr, rfl⟩
    · exact hr.resolve_right hro
  rcases applyKvIndexIncrement_cases s e with h | ⟨st, -, hop, hst⟩
  · exact .inl h
  rw [hst]
  cases st with
  | put key op il lid iv v =>
    cases hop
    rcases kvPutApply_state s key e.opRevision il lid iv v with h | ⟨_, h⟩
    · exact .inl h
    · exact .inr ⟨.put key e.opRevision il lid iv v, rfl, rfl, fun r hr => by
        simp only [ApplyStep.apply, h]; exact hw _ _ _ r hr⟩
  | delete key op =>
    cases hop
    rcases kvDeleteApply_state s key e.opRevision with h | ⟨_, _, h⟩
    · exact .inl h
    · exact .inr ⟨.delete key e.opRevision, rfl, rfl, fun r hr => by
        simp only [ApplyStep.apply, h]; exact hw _ _ _ r hr⟩
  | compact key R => cases hop

/-- The applied maps of a reachable protocol state are a run of apply calls from empty maps at
increasing op revisions, each of them stored in the maps. -/
theorem ProtocolReachable.serialRun {p : ProtocolState} (hp : ProtocolReachable p) :
    ∃ flags leases steps, (steps.filterMap ApplyStep.opRevision?).Pairwise (· < ·) ∧
      p.store = ApplyStep.run { flags, kvLeaseMap := leases } steps ∧
      ∀ o ∈ steps.filterMap ApplyStep.opRevision?, ∃ kr, p.store.kvRevMap o = some kr := by
  induction hp with
  | init flags leases => exact ⟨flags, leases, [], .nil, rfl, by simp⟩
  | @step p p' hp h ih =>
    obtain ⟨flags, leases, steps, hinc, hrun, hstored⟩ := ih
    cases h with
    | proposePut => exact ⟨flags, leases, steps, hinc, hrun, hstored⟩
    | proposeDeleteRange => exact ⟨flags, leases, steps, hinc, hrun, hstored⟩
    | apply e rest hlog =>
      have hfresh := hp.inv.fresh e (hlog ▸ List.mem_cons_self _ _)
      rcases applyKvIndexIncrement_eq_or_stores p.store e.entry with h | ⟨st, hop, h, hkeep⟩ <;>
        rw [h]
      · exact ⟨flags, leases, steps, hinc, hrun, hstored⟩
      refine ⟨flags, leases, steps ++ [st], ?_, ?_, fun o ho => ?_⟩
      · rw [List.filterMap_append, List.pairwise_append]
        refine ⟨hinc, by simp [hop], fun o ho o' ho' => ?_⟩
        obtain ⟨kr, hkr⟩ := hstored o ho
        obtain rfl : o' = e.entry.opRevision := by simpa [hop] using ho'
        exact hfresh.1 o kr hkr
      · rw [ApplyStep.run_append, ApplyStep.run_cons, ApplyStep.run_nil, ← hrun]
      · rw [List.filterMap_append, List.mem_append] at ho
        exact hkeep o (ho.imp (hstored o) fun ho => by simpa [hop] using ho)

/-- **The applied maps are one sequential run**: in every reachable state of the protocol,
whatever the interleaving of proposals and applications, the applied maps are those of one run of
apply calls from empty maps at increasing op revisions, each below the revision of every entry
still in the log. -/
theorem protocol_store_serial {p : ProtocolState} (hp : ProtocolReachable p) :
    ∃ flags leases steps, (steps.filterMap ApplyStep.opRevision?).Pairwise (· < ·) ∧
      p.store = ApplyStep.run { flags, kvLeaseMap := leases } steps ∧
      ∀ o ∈ steps.filterMap ApplyStep.opRevision?, ∀ e ∈ p.log, o < e.entry.opRevision := by
  obtain ⟨flags, leases, steps, hinc, hrun, hstored⟩ := hp.serialRun
  refine ⟨flags, leases, steps, hinc, hrun, fun o ho e he => ?_⟩
  obtain ⟨kr, hkr⟩ := hstored o ho
  exact (hp.inv.fresh e he).1 o kr hkr

theorem protocol_store_serial_interleaved :
    let p : ProtocolState :=
      ⟨(applyKvIndexIncrement (applyKvIndexIncrement { kvLeaseMap := fun l => decide (l = 5) }
          { id := [1], eventType := .put, opRevision := ⟨1, 0⟩, leaseId := 5, value := [7] }).2
          { id := [2], eventType := .put, opRevision := ⟨2, 0⟩, value := [9] }).2,
        [⟨{ id := [1], eventType := .put, opRevision := ⟨3, 0⟩, leaseId := 5, value := [8] },
          true⟩]⟩
    ProtocolReachable p ∧
      ∃ flags leases steps, (steps.filterMap ApplyStep.opRevision?).Pairwise (· < ·) ∧
        p.store = ApplyStep.run { flags, kvLeaseMap := leases } steps ∧
        ∀ o ∈ steps.filterMap ApplyStep.opRevision?, ∀ e ∈ p.log, o < e.entry.opRevision := by
  intro p
  have hp : ProtocolReachable p := protocolReachable_interleaved_puts
  exact ⟨hp, protocol_store_serial hp⟩

end DingoKv
