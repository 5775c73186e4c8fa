import Mathlib.Data.List.Sort
import Mathlib.Data.Prod.Lex
import Mathlib.Data.List.Lex
import Mathlib.Logic.Function.Basic
import Mathlib.Tactic.SplitIfs
import Mathlib.Tactic.Ring
import Mathlib.Tactic.NormNum
import Mathlib.Tactic.PushNeg

/-!
# The records of the coordinator's meta KV store

The protobuf messages `kv_control_kv.cc` (`src/src/coordinator/kv_control_kv.cc`) reads and
writes, as Lean structures with the protobuf defaults as field defaults:

* `RevisionInternal` (`pb::coordinator_internal::RevisionInternal`): the pair `(main, sub)`,
  ordered lexicographically (the spec's "strictly increasing in `(main, sub)`").
* `Generation` and `KvIndexInternal`: the per-key index. A generation whose `create_revision`
  is unset (`has_create_revision()` false) is `createRevision = none`. The protobuf field
  holding a generation's version is spelled `verison` in the sources, and so here.
* `KvInternal`, `KvRevInternal`: the per-revision value record; `KeyValue`
  (`pb::common::KeyValue`) and `Kv` (`pb::version::Kv`): what the read path returns.
* `Status`: `butil::Status`, `ok` or an error with its message.
* `Flags`: the four gflags of `kv_control_kv.cc:41-44`, with their defaults.

Keys and values are byte strings, `List UInt8`, compared as `std::string::compare` does: bytes
unsigned, lexicographic, a proper prefix first. The `int64_t` fields are `Int`, with no
wrap-around at `2^63`: the model, and every result about it, describes the code as long as no
counter it increments (a version, a `sub_revision`) is at `2^63 - 1`.
-/

namespace DingoKv

/-- Bytes compare as unsigned numbers, as `std::char_traits<char>` does for `std::string`. -/
instance uint8LinearOrder : LinearOrder UInt8 where
  le a b := a ≤ b
  lt a b := a < b
  le_refl a := Nat.le_refl a.toNat
  le_trans _ _ _ := Nat.le_trans
  lt_iff_le_not_le _ _ := Nat.lt_iff_le_not_le
  le_antisymm _ _ h1 h2 := UInt8.eq_of_val_eq (Fin.ext (Nat.le_antisymm h1 h2))
  le_total a b := Nat.le_total a.toNat b.toNat
  decidableLE := inferInstance

/-- A `std::string` of the store: a key, a value, or an encoded revision. -/
abbrev Bytes := List UInt8

instance bytesNonempty : Nonempty Bytes := ⟨[]⟩

/-- `pb::coordinator_internal::RevisionInternal`. -/
structure RevisionInternal where
  main : Int := 0
  sub : Int := 0
deriving DecidableEq, Repr, Inhabited

/-- Revisions are ordered by `(main, sub)`, lexicographically. -/
instance : LinearOrder RevisionInternal :=
  LinearOrder.lift' (fun r => toLex (r.main, r.sub)) fun a b h => by
    cases a; cases b; simp only [toLex_inj, Prod.mk.injEq] at h; simp [h]

/-- The order classes of the lifted order, given directly so that instance search does not walk
Mathlib's hierarchy at every comparison. -/
instance revisionInternalPreorder : Preorder RevisionInternal := inferInstance

instance revisionInternalLT : LT RevisionInternal := inferInstance

instance revisionInternalLE : LE RevisionInternal := inferInstance

instance revisionInternalNonempty : Nonempty RevisionInternal := ⟨{}⟩

theorem RevisionInternal.lt_iff {a b : RevisionInternal} :
    a < b ↔ a.main < b.main ∨ a.main = b.main ∧ a.sub < b.sub :=
  Prod.Lex.lt_iff _ _

theorem RevisionInternal.main_le_of_lt {a b : RevisionInternal} (h : a < b) : a.main ≤ b.main := by
  rcases RevisionInternal.lt_iff.mp h with h | ⟨h, -⟩ <;> omega

theorem RevisionInternal.main_le_of_le {a b : RevisionInternal} (h : a ≤ b) : a.main ≤ b.main := by
  rcases h.lt_or_eq with h | rfl
  · exact main_le_of_lt h
  · exact le_refl _

/-- `KvIndexInternal::Generation`: one lifetime of a key. `createRevision = none` is a
tombstone. -/
structure Generation where
  createRevision : Option RevisionInternal := none
  revisions : List RevisionInternal := []
  verison : Int := 0
deriving DecidableEq, Repr, Inhabited

instance generationNonempty : Nonempty Generation := ⟨{}⟩

/-- `pb::coordinator_internal::KvIndexInternal`: the index of one key. -/
structure KvIndexInternal where
  id : Bytes := []
  modRevision : RevisionInternal := {}
  generations : List Generation := []
deriving DecidableEq, Repr, Inhabited

/-- The revisions of every generation, in generation order. -/
def KvIndexInternal.allRevisions (idx : KvIndexInternal) : List RevisionInternal :=
  idx.generations.flatMap (·.revisions)

/-- `pb::coordinator_internal::KvInternal`: the value record a `KvRevInternal` carries. -/
structure KvInternal where
  id : Bytes := []
  value : Bytes := []
  createRevision : RevisionInternal := {}
  modRevision : RevisionInternal := {}
  version : Int := 0
  lease : Int := 0
  isDeleted : Bool := false
deriving DecidableEq, Repr, Inhabited

/-- `pb::coordinator_internal::KvRevInternal`: `id` is the encoded revision. -/
structure KvRevInternal where
  id : Bytes := []
  kv : KvInternal := {}
deriving DecidableEq, Repr, Inhabited

/-- `pb::common::KeyValue`. -/
structure KeyValue where
  key : Bytes := []
  value : Bytes := []
deriving DecidableEq, Repr, Inhabited

/-- `pb::version::Kv`: what `KvRange` returns for one key. -/
structure Kv where
  kv : KeyValue := {}
  createRevision : Int := 0
  modRevision : Int := 0
  version : Int := 0
  lease : Int := 0
deriving DecidableEq, Repr, Inhabited

/-- `butil::Status`. -/
inductive Status where
  | ok
  | error (msg : String)
deriving DecidableEq, Repr, Inhabited

/-- The gflags of `kv_control_kv.cc:41-44`. -/
structure Flags where
  maxKvKeySize : Nat := 4096
  maxKvValueSize : Nat := 8192
  compactionRetentionRevCount : Nat := 1000
  autoCompaction : Bool := false
deriving DecidableEq, Repr, Inhabited

/-- `INT64_MAX`. -/
def int64Max : Int := 2 ^ 63 - 1

end DingoKv
