import DingoKv.Basic

/-!
# The conditional batch writes of the store engine

`MonoStoreEngine::Writer::KvPutIfAbsent` and `KvCompareAndSet`
(`src/src/engine/mono_store_engine.cc:408-588`) read each entry of a batch at ts `0`, decide
whether to write it, and hand the entries they keep to one `Write` at a timestamp from the TSO.
Both loops have one shape, `writerLoop`: for each entry the body returns a status from the
writer, skips the entry (`continue`), or encodes it into `put_kvs` and sets `temp_key_states[i]`.
`writerFinish` is their common end: no `Write` for an empty `put_kvs`, and `key_states` becomes
`temp_key_states` only once `Write` succeeds. The bodies differ (`putIfAbsentStep`,
`compareAndSetStep`), and so do the encodings: `KvCompareAndSet` encodes an empty value as a
delete ("value empty means delete"), `KvPutIfAbsent` as a put of the empty value.

The codec (`mvcc::Codec::EncodeKey`, `PackageValue`) is not in the sources: an encoded entry keeps
the key, the timestamp, and the value flag with its operands, not their bytes. The column family,
the raw engine type and the `ts` set on the response are not modelled.

## Results

* `writerLoop_of_not_returns`, `writerLoop_eq_error`, `writerLoop_eq_ok`: the loop runs to the
  end, pushing the encoded entries in order, unless a body returns, and then it returns that
  body's status.
* `StepSpec`: what both bodies do with an entry, for a condition and an encoding
  (`compareAndSetStep_spec`, `putIfAbsentStep_spec`); `writerFinish_batchLaw` derives from it the
  `BatchLaw` the spec states of a conditional batch writer.
* **`conditionalWrites_batchLaw`**: `KvCompareAndSet` meets the law with `casMatches` and its
  encoding, an empty value as a delete; `KvPutIfAbsent` with an absent key and its encoding, every
  value as a put. `kvPutIfAbsent_empty_value` shows the two encodings on the same entry.
* `conditionalWrites_keyStates_of_ne_ok`: a writer that does not return OK leaves `key_states`
  as the caller passed it, at most resized.
* `kvPutIfAbsent_eq_kvCompareAndSet`: `KvPutIfAbsent` is `KvCompareAndSet` expecting the empty
  value for every entry, on a batch where no entry has the empty value and no key holds it.
  `kvPutIfAbsent_empty_value` and `kvPutIfAbsent_ne_kvCompareAndSet_empty_held` are the two ways
  they part otherwise.
-/

namespace DingoKv

/-! ## The store, the codec and the writer's context -/

/-- What `MVCCReader::KvGet(cf, ts, key, value)` returns: the value, `EKEY_NOT_FOUND`, or another
error. -/
inductive KvGetResult where
  | ok (value : Bytes)
  | notFound
  | error
deriving DecidableEq, Repr

/-- Modelled from the spec: `mvcc::ValueFlag` with the operands `Codec::PackageValue` packs. -/
inductive PackagedValue where
  | put (value : Bytes)
  | putTTL (ttl : Int) (value : Bytes)
  | delete
deriving DecidableEq, Repr

/-- Modelled from the spec: an entry of `put_kvs`, the key `Codec::EncodeKey(key, ts)` with its
packaged value. -/
structure EncodedKv where
  key : Bytes
  ts : Int
  value : PackagedValue
deriving DecidableEq, Repr

/-- What a writer reads besides its arguments: `ts_provider_->GetTs()` (`0` when the TSO is not
available), `ctx->Ttl()`, the reader's `KvGet` by timestamp and key, and the status
`mono_engine_->Write` returns for a batch. -/
structure WriterEnv where
  ts : Int
  ttl : Int
  kvGet : Int → Bytes → KvGetResult
  write : List EncodedKv → Status

/-- What a writer returns: its status, the caller's `key_states` after the call, and the batch it
handed to `Write`, if it called `Write`. -/
structure WriterOut where
  status : Status
  keyStates : List Bool
  written : Option (List EncodedKv)
deriving DecidableEq, Repr

/-- `std::vector<bool>::resize(n, false)`: the first `n` flags, then `false` up to `n`. -/
def resizeKeyStates (keyStates : List Bool) (n : Nat) : List Bool :=
  keyStates.take n ++ List.replicate (n - keyStates.length) false

@[simp] theorem length_resizeKeyStates (keyStates : List Bool) (n : Nat) :
    (resizeKeyStates keyStates n).length = n := by
  simp only [resizeKeyStates, List.length_append, List.length_take, List.length_replicate]
  omega

/-! ## The loop -/

/-- What a loop body does with one entry: return a status from the writer, skip the entry
(`continue`), or push its encoding to `put_kvs` and set `temp_key_states[i]`. -/
inductive EntryStep where
  | ret (status : Status)
  | skip
  | put (encoded : EncodedKv)
deriving DecidableEq, Repr

/-- Whether the body returns from the writer. -/
def EntryStep.returns : EntryStep → Bool
  | .ret _ => true
  | _ => false

/-- The entry the body pushes to `put_kvs`, if it does. -/
def EntryStep.encoded? : EntryStep → Option EncodedKv
  | .put e => some e
  | _ => none

/-- The loop of both writers (`mono_store_engine.cc:424-457`, `512-559`): `put_kvs` and
`temp_key_states` when it runs to the end, or the status a body returns. -/
def writerLoop {α : Type} (step : α → EntryStep) :
    List α → Except Status (List EncodedKv × List Bool)
  | [] => .ok ([], [])
  | a :: rest =>
    match step a with
    | .ret status => .error status
    | .skip => (writerLoop step rest).map fun r => (r.1, false :: r.2)
    | .put e => (writerLoop step rest).map fun r => (e :: r.1, true :: r.2)

/-- The end of both writers (`mono_store_engine.cc:459-467`, `561-569`), from `key_states`
already resized: no `Write` for an empty `put_kvs`, and `key_states = temp_key_states` after a
successful one. -/
def writerFinish (env : WriterEnv) (keyStates : List Bool) :
    Except Status (List EncodedKv × List Bool) → WriterOut
  | .error status => { status, keyStates, written := none }
  | .ok (putKvs, tempKeyStates) =>
    if putKvs.isEmpty then { status := .ok, keyStates, written := none }
    else if env.write putKvs = .ok then
      { status := .ok, keyStates := tempKeyStates, written := some putKvs }
    else { status := env.write putKvs, keyStates, written := some putKvs }

/-! ## The two writers -/

/-- `Codec::EncodeKey(key, ts)` with `PackageValue(kPut, value)`, or `kPutTTL` with `ctx->Ttl()`
when it is not `0`. -/
def encodePut (env : WriterEnv) (kv : KeyValue) : EncodedKv :=
  { key := kv.key, ts := env.ts,
    value := if env.ttl = 0 then .put kv.value else .putTTL env.ttl kv.value }

/-- The encoding of `KvCompareAndSet` (`mono_store_engine.cc:545-554`): "value empty means
delete". -/
def encodeCompareAndSet (env : WriterEnv) (kv : KeyValue) : EncodedKv :=
  if kv.value.isEmpty then { key := kv.key, ts := env.ts, value := .delete } else encodePut env kv

/-- The body of the loop of `KvPutIfAbsent` (`mono_store_engine.cc:426-456`). -/
def putIfAbsentStep (env : WriterEnv) (isAtomic : Bool) (kv : KeyValue) : EntryStep :=
  if kv.key.isEmpty then .ret (.error "Key is empty")
  else
    match env.kvGet 0 kv.key with
    | .error => .ret (.error "Internal error")
    | .ok _ => if isAtomic then .ret .ok else .skip
    | .notFound => .put (encodePut env kv)

/-- The body of the loop of `KvCompareAndSet` (`mono_store_engine.cc:514-558`), for an entry and
its expected value. -/
def compareAndSetStep (env : WriterEnv) (isAtomic : Bool) (kv : KeyValue) (expectValue : Bytes) :
    EntryStep :=
  if kv.key.isEmpty then .ret (.error "Key is empty")
  else
    match env.kvGet 0 kv.key with
    | .error => .ret (.error "Internal error")
    | .ok oldValue =>
      if oldValue ≠ expectValue then (if isAtomic then .ret .ok else .skip)
      else .put (encodeCompareAndSet env kv)
    | .notFound =>
      if !expectValue.isEmpty then (if isAtomic then .ret (.error "Not found key") else .skip)
      else .put (encodeCompareAndSet env kv)

/-- `MonoStoreEngine::Writer::KvPutIfAbsent`; `keyStates` is the caller's `key_states`. -/
def kvPutIfAbsent (env : WriterEnv) (kvs : List KeyValue) (isAtomic : Bool)
    (keyStates : List Bool) : WriterOut :=
  if kvs.isEmpty then { status := .error "Key is empty", keyStates, written := none }
  else if env.ts = 0 then { status := .error "TSO not available", keyStates, written := none }
  else
    writerFinish env (resizeKeyStates keyStates kvs.length)
      (writerLoop (putIfAbsentStep env isAtomic) kvs)

/-- `MonoStoreEngine::Writer::KvCompareAndSet`; `keyStates` is the caller's `key_states`. -/
def kvCompareAndSet (env : WriterEnv) (kvs : List KeyValue) (expectValues : List Bytes)
    (isAtomic : Bool) (keyStates : List Bool) : WriterOut :=
  if kvs.isEmpty then { status := .error "Key is empty", keyStates, written := none }
  else if kvs.length ≠ expectValues.length then
    { status := .error "Key is mismatch", keyStates, written := none }
  else if env.ts = 0 then { status := .error "TSO not available", keyStates, written := none }
  else
    writerFinish env (resizeKeyStates keyStates kvs.length)
      (writerLoop (fun e => compareAndSetStep env isAtomic e.1 e.2) (kvs.zip expectValues))

/-! ## The law of the spec -/

/-- The condition the spec states for writing an entry of `KvCompareAndSet`: the value a read at
ts `0` finds equals the expected one, and an absent key matches only an empty expected value. -/
def casMatches (kvGet : Int → Bytes → KvGetResult) (key expectValue : Bytes) : Bool :=
  match kvGet 0 key with
  | .ok value => value == expectValue
  | .notFound => expectValue.isEmpty
  | .error => false

/-- The law the spec states of a conditional batch writer returning `out`, for the caller's
`key_states`, the batch `entries`, the condition `cond` of writing an entry and its encoding
`enc`. When the writer returns OK: if it called `Write`, `Write` succeeded on the entries `cond`
keeps, in order and encoded, and `key_states` is `cond` entry by entry; if it did not, `key_states`
is the caller's vector resized, and without `is_atomic` no entry met `cond`; with `is_atomic` it
wrote every entry, or none, and then some entry failed `cond`. -/
def BatchLaw {α : Type} (env : WriterEnv) (keyStates : List Bool) (isAtomic : Bool)
    (entries : List α) (cond : α → Bool) (enc : α → EncodedKv) (out : WriterOut) : Prop :=
  out.status = .ok →
    (∀ batch, out.written = some batch →
      env.write batch = .ok ∧ batch = (entries.filter cond).map enc ∧
        out.keyStates = entries.map cond) ∧
    (out.written = none → out.keyStates = resizeKeyStates keyStates entries.length ∧
      (isAtomic = false → entries.filter cond = [])) ∧
    (isAtomic = true → out.written = some (entries.map enc) ∨
      (out.written = none ∧ ∃ a ∈ entries, cond a = false))

/-- What both loop bodies do with an entry `a`: return an error, or encode it when `cond` holds,
and otherwise return OK with `is_atomic` and skip it without. -/
def StepSpec {α : Type} (isAtomic : Bool) (cond : α → Bool) (enc : α → EncodedKv)
    (step : α → EntryStep) : Prop :=
  ∀ a, (∃ msg, step a = .ret (.error msg)) ∨
    step a = if cond a then .put (enc a) else if isAtomic then .ret .ok else .skip

/-! ## Correctness -/

section Loop

variable {α : Type} {step : α → EntryStep}

/-- A body that does not return pushes what it encodes in front of the rest of the loop. -/
theorem writerLoop_cons {a : α} (rest : List α) (h : (step a).returns = false) :
    writerLoop step (a :: rest) = (writerLoop step rest).map fun r =>
      ((step a).encoded?.toList ++ r.1, ((step a).encoded?).isSome :: r.2) := by
  rw [writerLoop]
  cases hs : step a with
  | ret st => rw [hs] at h; cases h
  | skip => rfl
  | put e => rfl

/-- **The loop runs to the end** when no body returns: `put_kvs` is the encoded entries in order,
`temp_key_states` marks them. -/
theorem writerLoop_of_not_returns {xs : List α} (h : ∀ a ∈ xs, (step a).returns = false) :
    writerLoop step xs = .ok (xs.filterMap fun a => (step a).encoded?,
      xs.map fun a => ((step a).encoded?).isSome) := by
  induction xs with
  | nil => rfl
  | cons a rest ih =>
    rw [List.forall_mem_cons] at h
    rw [writerLoop_cons rest h.1, ih h.2, List.filterMap_cons, List.map_cons]
    cases (step a).encoded? <;> rfl

/-- A loop that returns returns the status of a body. -/
theorem writerLoop_eq_error {xs : List α} {st : Status} (h : writerLoop step xs = .error st) :
    ∃ a ∈ xs, step a = .ret st := by
  induction xs with
  | nil => cases h
  | cons a rest ih =>
    cases hs : step a with
    | ret st' => rw [writerLoop, hs] at h; cases h; exact ⟨a, List.mem_cons_self _ _, hs⟩
    | skip | put _ =>
      rw [writerLoop_cons rest (by rw [hs]; rfl)] at h
      cases hr : writerLoop step rest <;> rw [hr] at h <;> cases h
      obtain ⟨b, hb, hsb⟩ := ih hr
      exact ⟨b, List.mem_cons_of_mem _ hb, hsb⟩

/-- A loop that runs to the end met no body that returns. -/
theorem writerLoop_eq_ok {xs : List α} {r : List EncodedKv × List Bool}
    (h : writerLoop step xs = .ok r) : ∀ a ∈ xs, (step a).returns = false := by
  induction xs generalizing r with
  | nil => simp
  | cons a rest ih =>
    cases hs : step a with
    | ret st => rw [writerLoop, hs] at h; cases h
    | skip | put _ =>
      have ha : (step a).returns = false := by rw [hs]; rfl
      rw [writerLoop_cons rest ha] at h
      cases hr : writerLoop step rest <;> rw [hr] at h <;> cases h
      exact List.forall_mem_cons.mpr ⟨ha, ih hr⟩

end Loop

/-! ## From a body to the law -/

section Spec

variable {α : Type} {isAtomic : Bool} {cond : α → Bool} {enc : α → EncodedKv}
  {step : α → EntryStep}

/-- A body that does not return encodes an entry exactly when `cond` holds, and skips one only
without `is_atomic`. -/
theorem StepSpec.of_not_returns (hs : StepSpec isAtomic cond enc step) {a : α}
    (h : (step a).returns = false) :
    (step a).encoded? = (if cond a then some (enc a) else none) ∧
      (cond a = false → isAtomic = false) := by
  rcases hs a with ⟨msg, he⟩ | he <;> rw [he] at h ⊢
  · cases h
  · cases hc : cond a <;> cases isAtomic <;>
      simp [hc, EntryStep.returns, EntryStep.encoded?] at h ⊢

/-- **A loop that runs to the end keeps the entries `cond` accepts**: `put_kvs` is their
encodings in order, `temp_key_states` is `cond` entry by entry, and with `is_atomic` every entry
met `cond`. -/
theorem StepSpec.writerLoop_ok (hs : StepSpec isAtomic cond enc step) {xs : List α}
    {r : List EncodedKv × List Bool} (h : writerLoop step xs = .ok r) :
    r = ((xs.filter cond).map enc, xs.map cond) ∧
      (isAtomic = true → ∀ a ∈ xs, cond a = true) := by
  have hnr := writerLoop_eq_ok h
  rw [writerLoop_of_not_returns hnr] at h
  cases h
  refine ⟨(Prod.mk.injEq _ _ _ _).mpr ⟨?_, ?_⟩, fun ha a hx => ?_⟩
  · rw [← List.filterMap_eq_map, List.filterMap_filter]
    exact List.filterMap_congr fun a hx => (hs.of_not_returns (hnr a hx)).1
  · exact List.map_congr_left fun a hx => by
      rw [(hs.of_not_returns (hnr a hx)).1]; cases cond a <;> rfl
  · by_contra hc
    exact absurd ((hs.of_not_returns (hnr a hx)).2 (by simpa using hc)) (by simp [ha])

/-- An OK status from a body comes from an entry `cond` rejects, with `is_atomic`. -/
theorem StepSpec.writerLoop_error_ok (hs : StepSpec isAtomic cond enc step) {xs : List α}
    (h : writerLoop step xs = .error .ok) : isAtomic = true ∧ ∃ a ∈ xs, cond a = false := by
  obtain ⟨a, hx, ha⟩ := writerLoop_eq_error h
  rcases hs a with ⟨msg, he⟩ | he <;> rw [ha] at he
  · cases he
  · cases hc : cond a <;> cases isAtomic <;> simp [hc] at he
    exact ⟨rfl, a, hx, hc⟩

/-- **The end of the writers gives the law**, from a body that meets `StepSpec` and a non-empty
batch. -/
theorem writerFinish_batchLaw (env : WriterEnv) (keyStates : List Bool)
    (hs : StepSpec isAtomic cond enc step) {entries : List α} (hne : entries ≠ []) :
    BatchLaw env keyStates isAtomic entries cond enc
      (writerFinish env (resizeKeyStates keyStates entries.length) (writerLoop step entries)) := by
  cases hl : writerLoop step entries with
  | error st =>
    rintro (rfl : st = .ok)
    obtain ⟨hat, a, hx, ha⟩ := hs.writerLoop_error_ok hl
    exact ⟨fun _ h => (by cases h), fun _ => ⟨rfl, fun h => (by simp [h] at hat)⟩,
      fun _ => .inr ⟨rfl, a, hx, ha⟩⟩
  | ok r =>
    obtain ⟨rfl, hall⟩ := hs.writerLoop_ok hl
    have hfull : isAtomic = true → entries.filter cond = entries := fun h =>
      List.filter_eq_self.mpr (hall h)
    intro hok
    simp only [writerFinish] at hok ⊢
    split_ifs at hok ⊢ with hem hw
    · have hnil : entries.filter cond = [] := by simpa using hem
      refine ⟨fun _ h => (by cases h), fun _ => ⟨rfl, fun _ => hnil⟩, fun h => ?_⟩
      exact absurd (hnil ▸ hfull h).symm hne
    · exact ⟨fun _ h => (by cases h; exact ⟨hw, rfl, rfl⟩), fun h => (by cases h),
        fun h => .inl (by rw [hfull h])⟩
    · exact absurd hok hw

end Spec

/-! ## The two writers meet the law -/

/-- The body of `KvCompareAndSet` meets `StepSpec` with `casMatches`. -/
theorem compareAndSetStep_spec (env : WriterEnv) (isAtomic : Bool) :
    StepSpec isAtomic (fun e : KeyValue × Bytes => casMatches env.kvGet e.1.key e.2)
      (fun e => encodeCompareAndSet env e.1) (fun e => compareAndSetStep env isAtomic e.1 e.2) := by
  rintro ⟨kv, ev⟩
  dsimp only [compareAndSetStep]
  by_cases hk : kv.key.isEmpty
  · exact .inl ⟨_, by rw [if_pos hk]⟩
  rw [if_neg hk, casMatches]
  cases env.kvGet 0 kv.key with
  | error => exact .inl ⟨_, rfl⟩
  | ok old => right; by_cases h : old = ev <;> simp [h]
  | notFound =>
    cases hev : ev.isEmpty <;> cases isAtomic
    · exact .inr (by simp [hev])
    · exact .inl ⟨"Not found key", by simp [hev]⟩
    all_goals exact .inr (by simp [hev])

/-- The body of `KvPutIfAbsent` meets `StepSpec` with an absent key. -/
theorem putIfAbsentStep_spec (env : WriterEnv) (isAtomic : Bool) :
    StepSpec isAtomic (fun kv : KeyValue => env.kvGet 0 kv.key == .notFound) (encodePut env)
      (putIfAbsentStep env isAtomic) := by
  intro kv
  dsimp only [putIfAbsentStep]
  by_cases hk : kv.key.isEmpty
  · exact .inl ⟨_, by rw [if_pos hk]⟩
  rw [if_neg hk]
  cases env.kvGet 0 kv.key with
  | error => exact .inl ⟨_, rfl⟩
  | ok v => right; cases isAtomic <;> rfl
  | notFound => exact .inr rfl

/-- `KvCompareAndSet` meets the law with `casMatches` and `encodeCompareAndSet`: its early
returns are errors, and its loop runs over the entries paired with their expected values. -/
theorem kvCompareAndSet_batchLaw (env : WriterEnv) (kvs : List KeyValue)
    (expectValues : List Bytes) (isAtomic : Bool) (keyStates : List Bool) :
    BatchLaw env keyStates isAtomic (kvs.zip expectValues)
      (fun e => casMatches env.kvGet e.1.key e.2) (fun e => encodeCompareAndSet env e.1)
      (kvCompareAndSet env kvs expectValues isAtomic keyStates) := by
  unfold kvCompareAndSet
  split_ifs with h0 hlen
  · exact fun h => by cases h
  · exact fun h => by cases h
  · exact fun h => by cases h
  · have hzip : (kvs.zip expectValues).length = kvs.length := by
      rw [List.length_zip, not_not.mp hlen, min_self]
    rw [← hzip]
    refine writerFinish_batchLaw env keyStates (compareAndSetStep_spec env isAtomic) ?_
    rw [← List.length_pos, hzip, List.length_pos]
    simpa using h0

/-- With `is_atomic`, a mismatch on the first entry returns OK with nothing written. -/
example : kvCompareAndSet
      { ts := 1, ttl := 0, kvGet := fun _ k => if k = [1] then .ok [5] else .notFound,
        write := fun _ => .ok }
      [{ key := [1], value := [6] }, { key := [2], value := [7] }] [[4], []] true [] =
    { status := .ok, keyStates := [false, false], written := none } := by
  decide

/-- `KvPutIfAbsent` meets the law with an absent key and `encodePut`. -/
theorem kvPutIfAbsent_batchLaw (env : WriterEnv) (kvs : List KeyValue) (isAtomic : Bool)
    (keyStates : List Bool) :
    BatchLaw env keyStates isAtomic kvs (fun kv => env.kvGet 0 kv.key == .notFound)
      (encodePut env) (kvPutIfAbsent env kvs isAtomic keyStates) := by
  unfold kvPutIfAbsent
  split_ifs with h0
  · exact fun h => by cases h
  · exact fun h => by cases h
  · exact writerFinish_batchLaw env keyStates (putIfAbsentStep_spec env isAtomic)
      (by simpa using h0)

/-- The encoding of `KvCompareAndSet`, with the choice of flag inside the value. -/
theorem encodeCompareAndSet_eq (env : WriterEnv) (kv : KeyValue) :
    encodeCompareAndSet env kv =
      { key := kv.key, ts := env.ts,
        value := if kv.value = [] then .delete
          else if env.ttl = 0 then .put kv.value else .putTTL env.ttl kv.value } := by
  obtain ⟨key, _ | ⟨b, value⟩⟩ := kv <;> rfl

/-- **The conditional writes**: when `KvCompareAndSet` returns OK after a `Write`, the batch is
the entries whose read at ts `0` matches their expected value (an absent key matching only an
empty one), in order, each encoded at the TSO timestamp as a delete for an empty value and as a
put otherwise, and `key_states` marks exactly those entries; with `is_atomic` it writes all or
nothing. `KvPutIfAbsent` meets the same law with an absent key as the condition, but encodes
every entry as a put, of the empty value too. -/
theorem conditionalWrites_batchLaw (env : WriterEnv) (kvs : List KeyValue)
    (expectValues : List Bytes) (isAtomic : Bool) (keyStates : List Bool) :
    BatchLaw env keyStates isAtomic (kvs.zip expectValues)
        (fun e => casMatches env.kvGet e.1.key e.2)
        (fun e => { key := e.1.key, ts := env.ts, value :=
          if e.1.value = [] then .delete
          else if env.ttl = 0 then .put e.1.value else .putTTL env.ttl e.1.value })
        (kvCompareAndSet env kvs expectValues isAtomic keyStates) ∧
      BatchLaw env keyStates isAtomic kvs (fun kv => env.kvGet 0 kv.key == .notFound)
        (fun kv => { key := kv.key, ts := env.ts, value :=
          if env.ttl = 0 then .put kv.value else .putTTL env.ttl kv.value })
        (kvPutIfAbsent env kvs isAtomic keyStates) := by
  refine ⟨?_, kvPutIfAbsent_batchLaw env kvs isAtomic keyStates⟩
  simpa only [encodeCompareAndSet_eq] using
    kvCompareAndSet_batchLaw env kvs expectValues isAtomic keyStates

/-- Write `[1]` with an empty value where it is absent, at ts `1` without TTL: `KvPutIfAbsent`
writes a put of the empty value, `KvCompareAndSet` expecting the empty value a delete. -/
theorem kvPutIfAbsent_empty_value :
    kvPutIfAbsent { ts := 1, ttl := 0, kvGet := fun _ _ => .notFound, write := fun _ => .ok }
        [{ key := [1], value := [] }] false [] =
      { status := .ok, keyStates := [true],
        written := some [{ key := [1], ts := 1, value := .put [] }] } ∧
    kvCompareAndSet { ts := 1, ttl := 0, kvGet := fun _ _ => .notFound, write := fun _ => .ok }
        [{ key := [1], value := [] }] [[]] false [] =
      { status := .ok, keyStates := [true],
        written := some [{ key := [1], ts := 1, value := .delete }] } := by
  decide

/-! ## A failed write -/

/-- `key_states` is assigned only after a successful `Write`: a writer that does not return OK
leaves it as it was on entry to the end. -/
theorem writerFinish_keyStates_of_ne_ok (env : WriterEnv) (keyStates : List Bool)
    (r : Except Status (List EncodedKv × List Bool))
    (h : (writerFinish env keyStates r).status ≠ .ok) :
    (writerFinish env keyStates r).keyStates = keyStates := by
  rcases r with st | ⟨putKvs, tempKeyStates⟩
  · rfl
  · simp only [writerFinish] at h ⊢
    split_ifs at h ⊢ <;> first | rfl | exact absurd rfl h

/-- **A failed conditional write leaves `key_states` to the caller**: when `KvCompareAndSet` or
`KvPutIfAbsent` does not return OK, `key_states` is the caller's vector, resized to the batch once
the arguments and the TSO passed. -/
theorem conditionalWrites_keyStates_of_ne_ok (env : WriterEnv) (kvs : List KeyValue)
    (expectValues : List Bytes) (isAtomic : Bool) (keyStates : List Bool) :
    ((kvCompareAndSet env kvs expectValues isAtomic keyStates).status ≠ .ok →
        (kvCompareAndSet env kvs expectValues isAtomic keyStates).keyStates = keyStates ∨
          (kvCompareAndSet env kvs expectValues isAtomic keyStates).keyStates =
            resizeKeyStates keyStates kvs.length) ∧
      ((kvPutIfAbsent env kvs isAtomic keyStates).status ≠ .ok →
        (kvPutIfAbsent env kvs isAtomic keyStates).keyStates = keyStates ∨
          (kvPutIfAbsent env kvs isAtomic keyStates).keyStates =
            resizeKeyStates keyStates kvs.length) := by
  constructor <;> intro h
  · unfold kvCompareAndSet at h ⊢
    split_ifs at h ⊢
    iterate 3 exact .inl rfl
    exact .inr (writerFinish_keyStates_of_ne_ok env _ _ h)
  · unfold kvPutIfAbsent at h ⊢
    split_ifs at h ⊢
    iterate 2 exact .inl rfl
    exact .inr (writerFinish_keyStates_of_ne_ok env _ _ h)

/-! ## `KvPutIfAbsent` as a compare-and-set -/

/-- The loop over a mapped batch, with bodies that agree on each entry, is the loop over the
batch. -/
theorem writerLoop_map {α β : Type} (step : α → EntryStep) (step' : β → EntryStep) (f : α → β)
    {xs : List α} (h : ∀ a ∈ xs, step' (f a) = step a) :
    writerLoop step' (xs.map f) = writerLoop step xs := by
  induction xs with
  | nil => rfl
  | cons a rest ih =>
    simp only [List.map_cons, writerLoop, h a (List.mem_cons_self _ _),
      ih fun a ha => h a (List.mem_cons_of_mem _ ha)]

/-- The body of `KvCompareAndSet` expecting the empty value is that of `KvPutIfAbsent`, for an
entry with a value whose key does not hold the empty value. -/
theorem compareAndSetStep_nil (env : WriterEnv) (isAtomic : Bool) {kv : KeyValue}
    (hv : kv.value ≠ []) (hg : env.kvGet 0 kv.key ≠ .ok []) :
    compareAndSetStep env isAtomic kv [] = putIfAbsentStep env isAtomic kv := by
  unfold compareAndSetStep putIfAbsentStep
  cases h : env.kvGet 0 kv.key with
  | ok old => simp [show old ≠ [] from fun e => hg (e ▸ h)]
  | notFound => simp [encodeCompareAndSet_eq, encodePut, hv]
  | error => rfl

/-- **`KvPutIfAbsent` is `KvCompareAndSet` expecting empty values**, on a batch where no entry has
the empty value and no key holds it: the two writers return the same status, `key_states` and
batch. Both conditions are needed: an entry with the empty value is written as a delete by
`KvCompareAndSet` (`kvPutIfAbsent_empty_value`), and a key that holds the empty value counts as
absent for `KvCompareAndSet`, as present for `KvPutIfAbsent`. -/
theorem kvPutIfAbsent_eq_kvCompareAndSet (env : WriterEnv) (kvs : List KeyValue)
    (isAtomic : Bool) (keyStates : List Bool) (hv : ∀ kv ∈ kvs, kv.value ≠ [])
    (hg : ∀ kv ∈ kvs, env.kvGet 0 kv.key ≠ .ok []) :
    kvPutIfAbsent env kvs isAtomic keyStates =
      kvCompareAndSet env kvs (kvs.map fun _ => []) isAtomic keyStates := by
  have hz : kvs.zip (kvs.map fun _ => ([] : Bytes)) = kvs.map fun kv => (kv, []) := by
    simpa using List.zip_map' id (fun _ => ([] : Bytes)) kvs
  have hloop : writerLoop (fun e => compareAndSetStep env isAtomic e.1 e.2)
      (kvs.zip (kvs.map fun _ => [])) = writerLoop (putIfAbsentStep env isAtomic) kvs := by
    rw [hz]
    exact writerLoop_map _ _ _ fun kv hkv => compareAndSetStep_nil env isAtomic (hv kv hkv)
      (hg kv hkv)
  simp only [kvPutIfAbsent, kvCompareAndSet, List.length_map, ne_eq, not_true_eq_false,
    if_false, hloop]

theorem kvPutIfAbsent_eq_kvCompareAndSet_present :
    let env : WriterEnv :=
      { ts := 1, ttl := 0, kvGet := (fun _ k => if k = [1] then .ok [5] else .notFound),
        write := fun _ => .ok }
    let kvs : List KeyValue := [{ key := [1], value := [7] }, { key := [2], value := [8] }]
    ((∀ kv ∈ kvs, kv.value ≠ []) ∧ ∀ kv ∈ kvs, env.kvGet 0 kv.key ≠ .ok []) ∧
      kvPutIfAbsent env kvs false [] = kvCompareAndSet env kvs (kvs.map fun _ => []) false [] := by
  intro env kvs
  have h : (∀ kv ∈ kvs, kv.value ≠ []) ∧ ∀ kv ∈ kvs, env.kvGet 0 kv.key ≠ .ok [] := by decide
  exact ⟨h, kvPutIfAbsent_eq_kvCompareAndSet env kvs false [] h.1 h.2⟩

/-- A key that holds the empty value: `KvPutIfAbsent` leaves it, `KvCompareAndSet` expecting the
empty value overwrites it. -/
theorem kvPutIfAbsent_ne_kvCompareAndSet_empty_held :
    (kvPutIfAbsent { ts := 1, ttl := 0, kvGet := fun _ _ => .ok [], write := fun _ => .ok }
        [{ key := [1], value := [7] }] false []).written = none ∧
    (kvCompareAndSet { ts := 1, ttl := 0, kvGet := fun _ _ => .ok [], write := fun _ => .ok }
        [{ key := [1], value := [7] }] [[]] false []).written =
      some [{ key := [1], ts := 1, value := .put [7] }] := by
  decide

end DingoKv
