import DingoKv.Propose

/-!
# Requests: checked at propose time, applied later

A request runs in two steps. `KvPut` or `KvDeleteRange` checks it against the applied maps and
proposes its `kv_indexes` entries; the replication layer later applies the oldest entry with
`KvPutApply` or `KvDeleteApply`. `ProtocolStep` lets any number of clients propose and the log be
applied in any interleaving; main revisions are reserved past every one stored or proposed
(`MainFresh`). Each log entry carries a ghost flag, `solo`: no entry of its key has been applied
since it was proposed.

* `ProtocolInv`: every reachable protocol state has a reachable store (`Reachable`), a log in
  increasing revision order and fresh for the store, and every solo put entry still meets the
  lease rules `KvPut` checked (`Admitted`).
* `solo_put_admitted`: so the oldest entry, when solo, is applied in a state where the rules
  hold, and keeps a live key's lease and `create_revision`. Without `solo` it need not:
  `concurrent_puts_change_lease`.
* `Served` runs one request at a time, each applied before the next; it is the protocol with an
  empty log between requests (`Served.protocolReachable`).
* `kvPut_ignoreValue_admits_empty`: a `KvPut` with `ignore_value` of a key that is not live is
  admitted, and the key becomes live with the empty value.
-/

namespace DingoKv

variable {s : KvControl}

/-! ## Applying an entry -/

/-- Applying the entries of a `MetaIncrement` in order. -/
def applyKvIndexIncrements (s : KvControl) (es : List KvIndexIncrement) : KvControl :=
  es.foldl (fun s e => (applyKvIndexIncrement s e).2) s

/-- Applying an entry changes nothing, or is the apply call of its key at its op revision. -/
theorem applyKvIndexIncrement_cases (s : KvControl) (e : KvIndexIncrement) :
    (applyKvIndexIncrement s e).2 = s ∨
      ∃ st : ApplyStep, st.key = e.id ∧ st.opRevision? = some e.opRevision ∧
        (applyKvIndexIncrement s e).2 = st.apply s := by
  unfold applyKvIndexIncrement
  cases e.eventType
  · exact .inl rfl
  · exact .inr ⟨.put e.id e.opRevision e.ignoreLease e.leaseId e.ignoreValue e.value,
      rfl, rfl, rfl⟩
  · exact .inr ⟨.delete e.id e.opRevision, rfl, rfl, rfl⟩

theorem applyKvIndexIncrement_put {e : KvIndexIncrement} (h : e.eventType = .put) :
    applyKvIndexIncrement s e =
      ((kvPutApply s e.id e.opRevision e.ignoreLease e.leaseId e.ignoreValue e.value).1,
        (kvPutApply s e.id e.opRevision e.ignoreLease e.leaseId e.ignoreValue e.value).2.1) := by
  simp [applyKvIndexIncrement, h]

theorem ApplyStep.admissible_of_opRevision? {st : ApplyStep} {o : RevisionInternal}
    (h : st.opRevision? = some o) (hf : Fresh s o) : st.Admissible s := by
  cases st <;> simp_all [ApplyStep.opRevision?, ApplyStep.Admissible]

theorem Consistent.fresh_apply (hc : Consistent s) {st : ApplyStep} {o op : RevisionInternal}
    (h : st.opRevision? = some o) (hf : Fresh s o) (hop : o < op) : Fresh (st.apply s) op := by
  cases st with
  | put key o' il lid iv v =>
    cases h; exact hc.fresh_put hf hop key il lid iv v
  | delete key o' => cases h; exact hc.fresh_delete hf hop key
  | compact => cases h

section Entry

variable {e : KvIndexIncrement} (hf : Fresh s e.opRevision)
include hf

theorem Reachable.applyKvIndexIncrement (hs : Reachable s) :
    Reachable (applyKvIndexIncrement s e).2 := by
  rcases applyKvIndexIncrement_cases s e with h | ⟨st, -, hst, h⟩ <;> rw [h]
  exacts [hs, .step st hs (ApplyStep.admissible_of_opRevision? hst hf)]

theorem Consistent.fresh_applyKvIndexIncrement (hc : Consistent s) {op : RevisionInternal}
    (hop : e.opRevision < op) : Fresh (applyKvIndexIncrement s e).2 op := by
  rcases applyKvIndexIncrement_cases s e with h | ⟨st, -, hst, h⟩ <;> rw [h]
  exacts [hf.mono hop.le, hc.fresh_apply hst hf hop]

/-- Applying an entry changes no read of another key. -/
theorem Consistent.readAt_applyKvIndexIncrement (hc : Consistent s) {k : Bytes} (hk : k ≠ e.id) :
    readAt (applyKvIndexIncrement s e).2 k = readAt s k := by
  rcases applyKvIndexIncrement_cases s e with h | ⟨st, hkey, hst, h⟩ <;> rw [h]
  exact (hc.step_frame st (ApplyStep.admissible_of_opRevision? hst hf)).2.2 k (hkey ▸ hk)

end Entry

/-- The lease rules of an entry depend only on what a read of its key sees. -/
theorem admitted_congr {s' : KvControl} {e : KvIndexIncrement}
    (h : readAt s' e.id = readAt s e.id) : Admitted s' e ↔ Admitted s e := by
  rw [Admitted, Admitted, kvRange_point_head, kvRange_point_head, h]

/-! ## The protocol -/

/-- A proposed entry, and whether no entry of its key has been applied since (a ghost flag). -/
structure LogEntry where
  entry : KvIndexIncrement
  solo : Bool
deriving DecidableEq, Repr

/-- An entry once an entry of `key` has been applied: no longer solo if it is of `key`. -/
def LogEntry.afterApply (key : Bytes) (e : LogEntry) : LogEntry :=
  if e.entry.id = key then { e with solo := false } else e

@[simp] theorem LogEntry.afterApply_entry (key : Bytes) (e : LogEntry) :
    (e.afterApply key).entry = e.entry := by
  unfold LogEntry.afterApply; split <;> rfl

/-- The applied maps and the proposed entries, oldest first. -/
structure ProtocolState where
  store : KvControl
  log : List LogEntry

/-- A main revision past every revision stored and every one proposed. -/
def MainFresh (p : ProtocolState) (mainRevision subRevision : Int) : Prop :=
  Fresh p.store ⟨mainRevision, subRevision⟩ ∧
    ∀ e ∈ p.log, e.entry.opRevision.main < mainRevision

/-- One step of a client or of the replication layer. -/
inductive ProtocolStep : ProtocolState → ProtocolState → Prop where
  /-- A `KvPut` checked against the applied maps proposes its entry. -/
  | proposePut (p : ProtocolState) (keyValueIn : KeyValue) (leaseId : Int)
      (needPrevKv ignoreValue ignoreLease : Bool) (mainRevision subRevision leaseGrantId : Int)
      (out : KvPutOut) :
      MainFresh p mainRevision subRevision →
      kvPut p.store keyValueIn leaseId needPrevKv ignoreValue ignoreLease mainRevision subRevision
        leaseGrantId = .ok out →
      ProtocolStep p ⟨p.store, p.log ++ [⟨out.kvIndexIncrement, true⟩]⟩
  /-- A `KvDeleteRange` checked against the applied maps proposes its entries. -/
  | proposeDeleteRange (p : ProtocolState) (key rangeEnd : Bytes) (needPrevKv : Bool)
      (mainRevision subRevision : Int) (needLeaseRemoveKeys : Bool) (out : KvDeleteRangeOut) :
      MainFresh p mainRevision subRevision →
      kvDeleteRange p.store key rangeEnd needPrevKv mainRevision subRevision needLeaseRemoveKeys =
        .ok out →
      ProtocolStep p ⟨p.store, p.log ++ out.kvIndexIncrements.map (⟨·, true⟩)⟩
  /-- The oldest entry is applied. -/
  | apply (p : ProtocolState) (e : LogEntry) (rest : List LogEntry) :
      p.log = e :: rest →
      ProtocolStep p
        ⟨(applyKvIndexIncrement p.store e.entry).2, rest.map (LogEntry.afterApply e.entry.id)⟩

/-- The protocol states reachable from empty maps and an empty log. -/
inductive ProtocolReachable : ProtocolState → Prop where
  | init (flags : Flags) (leases : Int → Bool) :
      ProtocolReachable ⟨{ flags, kvLeaseMap := leases }, []⟩
  | step {p p' : ProtocolState} : ProtocolReachable p → ProtocolStep p p' → ProtocolReachable p'

/-- The invariant of the protocol. -/
structure ProtocolInv (p : ProtocolState) : Prop where
  /-- The applied maps are a reachable state of the apply engine. -/
  reachable : Reachable p.store
  /-- The log is in increasing revision order. -/
  sorted : p.log.Pairwise fun e e' => e.entry.opRevision < e'.entry.opRevision
  /-- Every proposed revision is fresh in the applied maps. -/
  fresh : ∀ e ∈ p.log, Fresh p.store e.entry.opRevision
  /-- Every solo put entry meets the lease rules in the applied maps. -/
  admitted : ∀ e ∈ p.log, e.solo = true → e.entry.eventType = .put →
    Admitted p.store e.entry

/-! ## The entries of `KvDeleteRange` -/

theorem mem_kvDeleteIncrements {mainRevision subRevision : Int} {kvs : List Kv}
    {e : KvIndexIncrement} (h : e ∈ kvDeleteIncrements mainRevision subRevision kvs) :
    e.eventType = .delete ∧ e.opRevision.main = mainRevision ∧
      subRevision ≤ e.opRevision.sub := by
  induction kvs generalizing subRevision with
  | nil => cases h
  | cons kv kvs ih =>
    rcases List.mem_cons.mp h with rfl | h
    · exact ⟨rfl, rfl, le_rfl⟩
    · obtain ⟨h1, h2, h3⟩ := ih h
      exact ⟨h1, h2, by omega⟩

theorem RevisionInternal.le_of_main_eq {a b : RevisionInternal} (hm : a.main = b.main)
    (hs : a.sub ≤ b.sub) : a ≤ b := by
  rcases hs.lt_or_eq with h | h
  · exact (RevisionInternal.lt_iff.mpr (.inr ⟨hm, h⟩)).le
  · cases a; cases b; simp_all

theorem pairwise_kvDeleteIncrements (mainRevision subRevision : Int) (kvs : List Kv) :
    (kvDeleteIncrements mainRevision subRevision kvs).Pairwise
      fun e e' => e.opRevision < e'.opRevision := by
  induction kvs generalizing subRevision with
  | nil => exact .nil
  | cons kv kvs ih =>
    refine .cons (fun e he => ?_) (ih _)
    obtain ⟨-, h2, h3⟩ := mem_kvDeleteIncrements he
    exact RevisionInternal.lt_iff.mpr (.inr ⟨h2.symm, show subRevision < _ by omega⟩)

theorem kvDeleteRange_eq_ok {key rangeEnd : Bytes} {needPrevKv : Bool}
    {mainRevision subRevision : Int} {needLeaseRemoveKeys : Bool} {out : KvDeleteRangeOut}
    (h : kvDeleteRange s key rangeEnd needPrevKv mainRevision subRevision needLeaseRemoveKeys =
      .ok out) :
    out.kvIndexIncrements = kvDeleteIncrements mainRevision subRevision
      (kvRange s key rangeEnd int64Max (!needPrevKv) false).1 := by
  simp only [kvDeleteRange, bind_eq_ok, pure, Except.pure, Except.ok.injEq] at h
  obtain ⟨⟨⟩, -, rfl⟩ := h
  rfl

/-! ## The invariant over every interleaving -/

section Inv

variable {p : ProtocolState}

theorem protocolInv_init (flags : Flags) (leases : Int → Bool) :
    ProtocolInv ⟨{ flags, kvLeaseMap := leases }, []⟩ :=
  ⟨.init flags leases, .nil, by simp, by simp⟩

/-- Proposing entries fresh past the log keeps the invariant. -/
theorem ProtocolInv.propose (hi : ProtocolInv p) (new : List LogEntry)
    (hsorted : new.Pairwise fun e e' => e.entry.opRevision < e'.entry.opRevision)
    (hfresh : ∀ e ∈ new, Fresh p.store e.entry.opRevision)
    (hafter : ∀ e ∈ p.log, ∀ e' ∈ new, e.entry.opRevision < e'.entry.opRevision)
    (hadm : ∀ e ∈ new, e.solo = true → e.entry.eventType = .put →
      Admitted p.store e.entry) :
    ProtocolInv ⟨p.store, p.log ++ new⟩ where
  reachable := hi.reachable
  sorted := List.pairwise_append.mpr ⟨hi.sorted, hsorted, hafter⟩
  fresh e he := (List.mem_append.mp he).elim (hi.fresh e) (hfresh e)
  admitted e he := (List.mem_append.mp he).elim (hi.admitted e) (hadm e)

theorem MainFresh.lt {mainRevision subRevision : Int} (hm : MainFresh p mainRevision subRevision)
    {e : LogEntry} (he : e ∈ p.log) {o : RevisionInternal} (ho : o.main = mainRevision) :
    e.entry.opRevision < o :=
  RevisionInternal.lt_iff.mpr (.inl (ho ▸ hm.2 e he))

theorem ProtocolInv.apply (hi : ProtocolInv p) {e : LogEntry} {rest : List LogEntry}
    (hlog : p.log = e :: rest) :
    ProtocolInv ⟨(applyKvIndexIncrement p.store e.entry).2,
      rest.map (LogEntry.afterApply e.entry.id)⟩ := by
  have hc := hi.reachable.consistent
  have hf := hi.fresh e (hlog ▸ List.mem_cons_self e rest)
  have hs := hi.sorted
  rw [hlog, List.pairwise_cons] at hs
  refine ⟨hi.reachable.applyKvIndexIncrement hf, ?_, ?_, ?_⟩
  · exact List.pairwise_map.mpr (by simpa using hs.2)
  · simp only [List.mem_map]
    rintro _ ⟨e', he', rfl⟩
    rw [LogEntry.afterApply_entry]
    exact hc.fresh_applyKvIndexIncrement hf (hs.1 e' he')
  · simp only [List.mem_map]
    rintro _ ⟨e', he', rfl⟩ hsolo hput
    by_cases hk : e'.entry.id = e.entry.id
    · simp [LogEntry.afterApply, hk] at hsolo
    · simp only [LogEntry.afterApply, if_neg hk] at hsolo hput ⊢
      exact (admitted_congr (hc.readAt_applyKvIndexIncrement hf hk)).mpr
          (hi.admitted e' (hlog ▸ List.mem_cons_of_mem e he') hsolo hput)

theorem ProtocolInv.step (hi : ProtocolInv p) {p' : ProtocolState} (h : ProtocolStep p p') :
    ProtocolInv p' := by
  cases h with
  | proposePut keyValueIn _ _ _ _ mainRevision subRevision _ out hm hok =>
    obtain ⟨-, _, lg, -, -, -, hout⟩ := kvPut_eq_ok hok
    rw [kvPutIncrement_eq] at hout
    refine hi.propose _ (List.pairwise_singleton _ _) ?_ ?_ ?_ <;> simp only [List.mem_singleton]
    · rintro _ rfl; rw [hout]; exact hm.1
    · rintro e he _ rfl; exact hm.lt he (by rw [hout])
    · rintro _ rfl -; exact fun _ => kvPut_admitted hok
  | proposeDeleteRange _ _ _ mainRevision subRevision _ out hm hok =>
    rw [kvDeleteRange_eq_ok hok]
    refine hi.propose _ (List.pairwise_map.mpr (pairwise_kvDeleteIncrements _ _ _)) ?_ ?_ ?_ <;>
      simp only [List.mem_map]
    · rintro _ ⟨e, he, rfl⟩
      obtain ⟨-, h2, h3⟩ := mem_kvDeleteIncrements he
      exact hm.1.mono (RevisionInternal.le_of_main_eq h2.symm h3)
    · rintro e he _ ⟨e', he', rfl⟩; exact hm.lt he (mem_kvDeleteIncrements he').2.1
    · rintro _ ⟨e, he, rfl⟩ - hput
      rw [(mem_kvDeleteIncrements he).1] at hput; cases hput
  | apply e rest hlog => exact hi.apply hlog

theorem ProtocolReachable.inv (hp : ProtocolReachable p) : ProtocolInv p := by
  induction hp with
  | init flags leases => exact protocolInv_init flags leases
  | step _ h ih => exact ih.step h

end Inv

/-- **A solo put is applied under the rules it was checked by**: in every reachable protocol
state whose oldest entry is a put no entry of whose key has been applied since it was proposed,
the entry meets the lease rules of `KvPut` in the applied maps, and applying it keeps the lease
and `create_revision` a point read of a live key returns. -/
theorem solo_put_admitted {p : ProtocolState} (hp : ProtocolReachable p) {e : LogEntry}
    {rest : List LogEntry} (hlog : p.log = e :: rest) (hsolo : e.solo = true)
    (hput : e.entry.eventType = .put) :
    Admitted p.store e.entry ∧
      ∀ kv ∈ (kvRange p.store e.entry.id [] 0 false false).1,
        ∃ kv' ∈ (kvRange (applyKvIndexIncrement p.store e.entry).2 e.entry.id [] 0 false false).1,
          kv'.lease = kv.lease ∧ kv'.createRevision = kv.createRevision := by
  have hi := hp.inv
  have hadm := hi.admitted e (hlog ▸ List.mem_cons_self e rest) hsolo hput
  refine ⟨hadm, fun kv hkv => ?_⟩
  obtain ⟨kr, hread, rfl⟩ := mem_kvRange_point hkv
  rw [applyKvIndexIncrement_put hput]
  by_cases hok : (kvPutApply p.store e.entry.id e.entry.opRevision e.entry.ignoreLease
    e.entry.leaseId e.entry.ignoreValue e.entry.value).1 = .ok
  · rw [hi.reachable.consistent.kvRange_kvPutApply_live hread hok]
    rw [Admitted, kvRange_point_head, hread] at hadm
    refine ⟨_, List.mem_singleton_self _, ?_, rfl⟩
    cases hil : e.entry.ignoreLease
    · simp [kvOfRev, hadm hil]
    · rfl
  · rw [kvPutApply_snd_of_ne_ok hok]
    exact ⟨_, hkv, rfl, rfl⟩

/-- A put of `[1]` under lease `5` is applied; then a put of `[2]` and a second put of `[1]`
under lease `5` are proposed, and the entry of `[2]` is applied while that of `[1]` waits. -/
theorem protocolReachable_interleaved_puts :
    ProtocolReachable
      ⟨(applyKvIndexIncrement (applyKvIndexIncrement { kvLeaseMap := fun l => decide (l = 5) }
          { id := [1], eventType := .put, opRevision := ⟨1, 0⟩, leaseId := 5, value := [7] }).2
          { id := [2], eventType := .put, opRevision := ⟨2, 0⟩, value := [9] }).2,
        [⟨{ id := [1], eventType := .put, opRevision := ⟨3, 0⟩, leaseId := 5, value := [8] },
          true⟩]⟩ := by
  have c0 := consistent_init {} fun l => decide (l = 5)
  have h1 := ProtocolReachable.step (.init {} fun l => decide (l = 5))
    (.proposePut _ { key := [1], value := [7] } 5 false false false 1 0 0 ⟨1, none, 5,
      { id := [1], eventType := .put, opRevision := ⟨1, 0⟩, leaseId := 5, value := [7] }⟩
      ⟨fresh_init _ _ _, by simp⟩ rfl)
  have h2 := ProtocolReachable.step h1 (.apply _ _ [] rfl)
  have h3 := ProtocolReachable.step h2
    (.proposePut _ { key := [2], value := [9] } 0 false false false 2 0 0
      ⟨1, none, 0, { id := [2], eventType := .put, opRevision := ⟨2, 0⟩, value := [9] }⟩
      ⟨c0.fresh_applyKvIndexIncrement (fresh_init _ _ _) (by decide), by simp⟩ rfl)
  have h4 := ProtocolReachable.step h3
    (.proposePut _ { key := [1], value := [8] } 5 false false false 3 0 0 ⟨1, none, 5,
      { id := [1], eventType := .put, opRevision := ⟨3, 0⟩, leaseId := 5, value := [8] }⟩
      ⟨c0.fresh_applyKvIndexIncrement (fresh_init _ _ _) (by decide), by decide⟩ rfl)
  exact .step h4 (.apply _ _ _ rfl)

/-- The state of `protocolReachable_interleaved_puts`: `[1]` is live with lease `5` when the
waiting put of `[1]` is applied. -/
example :
    (kvRange (applyKvIndexIncrement (applyKvIndexIncrement
        { kvLeaseMap := fun l => decide (l = 5) }
        { id := [1], eventType := .put, opRevision := ⟨1, 0⟩, leaseId := 5, value := [7] }).2
        { id := [2], eventType := .put, opRevision := ⟨2, 0⟩, value := [9] }).2 [1] [] 0 false
        false).1 =
      [{ kv := { key := [1], value := [7] }, createRevision := 1, modRevision := 1, version := 1,
         lease := 5 }] := by
  decide

theorem solo_put_admitted_interleaved :
    let e : KvIndexIncrement :=
      { id := [1], eventType := .put, opRevision := ⟨3, 0⟩, leaseId := 5, value := [8] }
    let p : ProtocolState :=
      ⟨(applyKvIndexIncrement (applyKvIndexIncrement { kvLeaseMap := fun l => decide (l = 5) }
          { id := [1], eventType := .put, opRevision := ⟨1, 0⟩, leaseId := 5, value := [7] }).2
          { id := [2], eventType := .put, opRevision := ⟨2, 0⟩, value := [9] }).2, [⟨e, true⟩]⟩
    (ProtocolReachable p ∧ p.log = [⟨e, true⟩] ∧ (⟨e, true⟩ : LogEntry).solo = true ∧
      (⟨e, true⟩ : LogEntry).entry.eventType = .put) ∧
      Admitted p.store e ∧
      ∀ kv ∈ (kvRange p.store e.id [] 0 false false).1,
        ∃ kv' ∈ (kvRange (applyKvIndexIncrement p.store e).2 e.id [] 0 false false).1,
          kv'.lease = kv.lease ∧ kv'.createRevision = kv.createRevision := by
  intro e p
  have hp : ProtocolReachable p := protocolReachable_interleaved_puts
  exact ⟨⟨hp, rfl, rfl, rfl⟩, solo_put_admitted hp rfl rfl rfl⟩

/-- Two clients put `[1]` while it is absent, the first without a lease, the second with lease
`5`. Both pass `KvPut`; once the first is applied the second no longer meets the lease rules,
is applied all the same, and changes the lease of the live key within its generation. -/
theorem concurrent_puts_change_lease :
    let s0 : KvControl := { kvLeaseMap := fun l => decide (l = 5) }
    let eA : KvIndexIncrement :=
      { id := [1], eventType := .put, opRevision := ⟨1, 0⟩, value := [7] }
    let eB : KvIndexIncrement :=
      { id := [1], eventType := .put, opRevision := ⟨2, 0⟩, leaseId := 5, value := [8] }
    let p : ProtocolState := ⟨(applyKvIndexIncrement s0 eA).2, [⟨eB, false⟩]⟩
    ProtocolReachable p ∧ eB.eventType = .put ∧
      (applyKvIndexIncrement p.store eB).1 = .ok ∧ ¬ Admitted p.store eB ∧
      kvRange p.store [1] [] 0 false false =
        ([{ kv := { key := [1], value := [7] }, createRevision := 1, modRevision := 1,
            version := 1, lease := 0 }], 1) ∧
      kvRange (applyKvIndexIncrement p.store eB).2 [1] [] 0 false false =
        ([{ kv := { key := [1], value := [8] }, createRevision := 1, modRevision := 2,
            version := 2, lease := 5 }], 1) := by
  intro s0 eA eB p
  have h1 : ProtocolReachable ⟨s0, [⟨eA, true⟩]⟩ :=
    .step (.init {} _) (.proposePut ⟨s0, []⟩ { key := [1], value := [7] } 0 false false false
      1 0 0 ⟨1, none, 0, eA⟩ ⟨fresh_init _ _ _, by simp⟩ rfl)
  have h2 : ProtocolReachable ⟨s0, [⟨eA, true⟩, ⟨eB, true⟩]⟩ :=
    .step h1 (.proposePut ⟨s0, [⟨eA, true⟩]⟩ { key := [1], value := [8] } 5 false false false
      2 0 0 ⟨1, none, 5, eB⟩ ⟨fresh_init _ _ _, by decide⟩ rfl)
  exact ⟨.step h2 (.apply _ ⟨eA, true⟩ [⟨eB, true⟩] rfl), rfl, by decide, by decide, by decide,
    by decide⟩

/-! ## One request at a time -/

/-- The states reached from empty maps by requests one at a time: each checked by `KvPut` or
`KvDeleteRange` at a revision past every stored one, and its entries applied before the next. -/
inductive Served : KvControl → Prop where
  | init (flags : Flags) (leases : Int → Bool) : Served { flags, kvLeaseMap := leases }
  | put {s : KvControl} (keyValueIn : KeyValue) (leaseId : Int)
      (needPrevKv ignoreValue ignoreLease : Bool) (mainRevision subRevision leaseGrantId : Int)
      (out : KvPutOut) :
      Served s → Fresh s ⟨mainRevision, subRevision⟩ →
      kvPut s keyValueIn leaseId needPrevKv ignoreValue ignoreLease mainRevision subRevision
        leaseGrantId = .ok out →
      Served (applyKvIndexIncrement s out.kvIndexIncrement).2
  | deleteRange {s : KvControl} (key rangeEnd : Bytes) (needPrevKv : Bool)
      (mainRevision subRevision : Int) (needLeaseRemoveKeys : Bool) (out : KvDeleteRangeOut) :
      Served s → Fresh s ⟨mainRevision, subRevision⟩ →
      kvDeleteRange s key rangeEnd needPrevKv mainRevision subRevision needLeaseRemoveKeys =
        .ok out →
      Served (applyKvIndexIncrements s out.kvIndexIncrements)

/-- Applying the whole log, oldest first. -/
theorem ProtocolReachable.applyAll (es : List KvIndexIncrement) :
    ∀ {s : KvControl} {log : List LogEntry}, log.map (·.entry) = es →
      ProtocolReachable ⟨s, log⟩ →
        ProtocolReachable ⟨applyKvIndexIncrements s es, []⟩ := by
  induction es with
  | nil =>
    intro s log hlog hp
    rw [List.map_eq_nil_iff] at hlog
    exact hlog ▸ hp
  | cons e es ih =>
    intro s log hlog hp
    obtain ⟨le, rest, rfl, rfl, rfl⟩ := List.map_eq_cons_iff.mp hlog
    exact ih (by simp [Function.comp_def]) (.step hp (.apply _ le rest rfl))

/-- A run of requests one at a time is a run of the protocol. -/
theorem Served.protocolReachable (hs : Served s) : ProtocolReachable ⟨s, []⟩ := by
  induction hs with
  | init flags leases => exact .init flags leases
  | put keyValueIn leaseId needPrevKv ignoreValue ignoreLease mainRevision subRevision
      leaseGrantId out _ hf hok ih =>
    exact ProtocolReachable.applyAll [out.kvIndexIncrement] (by rfl)
      (.step ih (.proposePut _ keyValueIn leaseId needPrevKv ignoreValue ignoreLease mainRevision
        subRevision leaseGrantId out ⟨hf, by simp⟩ hok))
  | deleteRange key rangeEnd needPrevKv mainRevision subRevision needLeaseRemoveKeys out _ hf hok
      ih =>
    exact ProtocolReachable.applyAll out.kvIndexIncrements (by simp [Function.comp_def])
      (.step ih (.proposeDeleteRange _ key rangeEnd needPrevKv mainRevision subRevision
        needLeaseRemoveKeys out ⟨hf, by simp⟩ hok))

theorem Served.reachable (hs : Served s) : Reachable s :=
  hs.protocolReachable.inv.reachable

/-- **`ignore_value` on a key without a value is admitted**: from every state of requests one at
a time, a `KvPut` with `ignore_value` of a key a point read does not return passes every check,
and once its entry is applied the key is live with the empty value. -/
theorem kvPut_ignoreValue_admits_empty (hs : Served s) {key : Bytes} (hk : key ≠ [])
    (hlen : key.length ≤ s.flags.maxKvKeySize) (hdead : (kvRange s key [] 0 false false).1 = [])
    (value : Bytes) (leaseId : Int) (hL : leaseId = 0 ∨ s.kvLeaseMap leaseId = true)
    (needPrevKv : Bool) (mainRevision subRevision : Int)
    (hf : Fresh s ⟨mainRevision, subRevision⟩) :
    ∃ out, kvPut s { key, value } leaseId needPrevKv true false mainRevision subRevision 0 =
        .ok out ∧
      Served (applyKvIndexIncrement s out.kvIndexIncrement).2 ∧
      kvRange (applyKvIndexIncrement s out.kvIndexIncrement).2 key [] 0 false false =
        ([{ kv := { key, value := [] }, createRevision := mainRevision,
            modRevision := mainRevision, version := 1, lease := leaseId }], 1) := by
  have hmap : leaseId ≠ 0 → s.kvLeaseMap leaseId = true := hL.resolve_left
  have hq : kvPutLeaseQuery s leaseId false 0 = .ok leaseId := by
    rcases hL with rfl | h
    · rfl
    · by_cases h0 : leaseId = 0
      · simp [kvPutLeaseQuery, h0]
      · simp [kvPutLeaseQuery, leaseQuery, h0, h, Status.toExcept, Except.map]
  have hnil : (kvRange s key [] 1 false false).1 = [] := by rw [kvRange_point_one, hdead]
  have hput : kvPut s { key, value } leaseId needPrevKv true false mainRevision subRevision 0 =
      .ok { subRevision := subRevision + 1, prevKv := if needPrevKv then some {} else none,
            leaseGrantId := leaseId,
            kvIndexIncrement := kvPutIncrement { key, value } mainRevision subRevision true false
              leaseId } := by
    simp [kvPut, kvPutCheck, hk, not_lt.mpr hlen, hq, hnil, kvPutLease,
      kvPutLeaseAddKeys_eq_ok.mpr hmap, bind, Except.bind, pure, Except.pure]
  refine ⟨_, hput, .put _ _ _ _ _ _ _ _ _ hs hf hput, ?_⟩
  have hok : (kvPutApply s key ⟨mainRevision, subRevision⟩ false leaseId false []).1 = .ok :=
    kvPutApply_fst_eq_ok rfl hmap
  simp only [kvPutIncrement_eq, applyKvIndexIncrement, if_true]
  exact hs.reachable.consistent.kvRange_kvPutApply_dead hdead hok

theorem kvPut_ignoreValue_admits_empty_init :
    let s : KvControl := { kvLeaseMap := fun _ => false }
    (Served s ∧ [1] ≠ ([] : Bytes) ∧ [1].length ≤ s.flags.maxKvKeySize ∧
      (kvRange s [1] [] 0 false false).1 = [] ∧ ((0 : Int) = 0 ∨ s.kvLeaseMap 0 = true) ∧
      Fresh s ⟨1, 0⟩) ∧
      ∃ out, kvPut s { key := [1], value := [] } 0 false true false 1 0 0 = .ok out ∧
        Served (applyKvIndexIncrement s out.kvIndexIncrement).2 ∧
        kvRange (applyKvIndexIncrement s out.kvIndexIncrement).2 [1] [] 0 false false =
          ([{ kv := { key := [1], value := [] }, createRevision := 1, modRevision := 1,
              version := 1, lease := 0 }], 1) := by
  intro s
  have hs : Served s := .init {} _
  have hdead : (kvRange s [1] [] 0 false false).1 = [] := rfl
  exact ⟨⟨hs, by decide, by decide, hdead, .inl rfl, fresh_init _ _ _⟩,
    kvPut_ignoreValue_admits_empty hs (by decide) (by decide) hdead [] 0 (.inl rfl) false 1 0
      (fresh_init _ _ _)⟩

end DingoKv
