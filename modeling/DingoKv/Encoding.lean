import DingoKv.Basic

/-!
# The 17-byte revision key

`RevisionToString` / `StringToRevision` (`kv_control_kv.cc:46-71`): a revision is persisted as
`[main:8]['_'][sub:8]`, each half written by `Buf::WriteLong`. The class `Buf`
(`serial/buf.h`) is not in the sources; `writeLong` / `readLong` model it as the eight-byte
big-endian two's-complement form of an `int64_t`.

Both directions go through the value of a byte string read most significant byte first
(`bytesValue`, the fold `ReadLong` performs) and its inverse on `n` bytes (`beBytes`, what
`WriteLong` writes for `n = 8`): `bytesValue_beBytes` and `beBytes_bytesValue`.

* `revisionToString_round_trip`: every revision of two `int64_t`s encodes to 17 bytes and decodes
  back, and every 17-byte key with `'_'` at offset 8 is the encoding of what it decodes to.
* `revisionToString_lt_iff`: on revisions with non-negative halves, the unsigned lexicographic
  order of the keys is the order of `(main, sub)`. Negative halves do not keep it: their two's
  complement starts with a byte `≥ 0x80`.
-/

namespace DingoKv

/-- Modelled from the spec: `Buf::WriteLong`, the eight bytes of an `int64_t` in two's
complement, most significant first. -/
def writeLong (x : Int) : Bytes :=
  (List.range 8).reverse.map fun i => UInt8.ofNat ((x % 2 ^ 64).toNat / 2 ^ (8 * i))

/-- Modelled from the spec: `Buf::ReadLong`, the `int64_t` whose two's-complement bytes, most
significant first, are the first eight. -/
def readLong (b : Bytes) : Int :=
  let u : Nat := (b.take 8).foldl (fun acc x => acc * 256 + x.toNat) 0
  if u < 2 ^ 63 then u else (u : Int) - 2 ^ 64

/-- `'_'`, the separator `RevisionToString` writes between the halves. -/
def separator : UInt8 := 95

/-- `KvControl::RevisionToString`. -/
def revisionToString (revision : RevisionInternal) : Bytes :=
  writeLong revision.main ++ [separator] ++ writeLong revision.sub

/-- `KvControl::StringToRevision`: the default revision unless the input has 17 bytes. -/
def stringToRevision (input : Bytes) : RevisionInternal :=
  if input.length ≠ 17 then {}
  else { main := readLong input, sub := readLong (input.drop 9) }

/-- An `int64_t`: the range of `RevisionInternal.main` and `.sub`. -/
def IsInt64 (x : Int) : Prop := -2 ^ 63 ≤ x ∧ x ≤ int64Max

instance decidableIsInt64 (x : Int) : Decidable (IsInt64 x) :=
  inferInstanceAs (Decidable (_ ∧ _))

/-! ## Big-endian bytes and their value -/

/-- The value of a byte string read most significant byte first. -/
def bytesValue (b : Bytes) : Nat := b.foldl (fun acc x => acc * 256 + x.toNat) 0

/-- The low `n` bytes of `u`, most significant first. -/
def beBytes (n u : Nat) : Bytes :=
  (List.range n).reverse.map fun i => UInt8.ofNat (u / 2 ^ (8 * i))

theorem writeLong_eq (x : Int) : writeLong x = beBytes 8 (x % 2 ^ 64).toNat := rfl

theorem readLong_eq (b : Bytes) :
    readLong b =
      if bytesValue (b.take 8) < 2 ^ 63 then ((bytesValue (b.take 8) : Nat) : Int)
      else (bytesValue (b.take 8) : Int) - 2 ^ 64 := rfl

theorem foldl_bytes (l : Bytes) (a : Nat) :
    l.foldl (fun acc x => acc * 256 + x.toNat) a = a * 256 ^ l.length + bytesValue l := by
  induction l generalizing a with
  | nil => simp [bytesValue]
  | cons x l ih =>
    have h : bytesValue (x :: l) = (0 * 256 + x.toNat) * 256 ^ l.length + bytesValue l := ih _
    rw [List.foldl_cons, ih, h, List.length_cons]
    ring

theorem bytesValue_cons (x : UInt8) (l : Bytes) :
    bytesValue (x :: l) = x.toNat * 256 ^ l.length + bytesValue l := by
  rw [bytesValue, List.foldl_cons, foldl_bytes, Nat.zero_mul, Nat.zero_add]

theorem bytesValue_lt (l : Bytes) : bytesValue l < 256 ^ l.length := by
  induction l with
  | nil => simp [bytesValue]
  | cons x l ih =>
    rw [bytesValue_cons, List.length_cons, pow_succ]
    calc x.toNat * 256 ^ l.length + bytesValue l < x.toNat * 256 ^ l.length + 256 ^ l.length := by
          omega
      _ = (x.toNat + 1) * 256 ^ l.length := by ring
      _ ≤ 256 * 256 ^ l.length := Nat.mul_le_mul_right _ x.val.isLt
      _ = 256 ^ l.length * 256 := Nat.mul_comm _ _

theorem toNat_uint8_ofNat (n : Nat) : (UInt8.ofNat n).toNat = n % 256 := rfl

theorem beBytes_succ (n u : Nat) :
    beBytes (n + 1) u = UInt8.ofNat (u / 256 ^ n) :: beBytes n u := by
  simp [beBytes, List.range_succ, pow_mul]

@[simp] theorem length_beBytes (n u : Nat) : (beBytes n u).length = n := by simp [beBytes]

/-- The bytes `WriteLong` writes read back as the value modulo `256 ^ n`. -/
theorem bytesValue_beBytes (n u : Nat) : bytesValue (beBytes n u) = u % 256 ^ n := by
  induction n with
  | zero => simp [beBytes, bytesValue, Nat.mod_one]
  | succ n ih =>
    rw [beBytes_succ, bytesValue_cons, ih, toNat_uint8_ofNat, length_beBytes, Nat.mod_pow_succ]
    ring

/-- Two byte strings of one length with one value are equal. -/
theorem bytesValue_inj : ∀ {l₁ l₂ : Bytes}, l₁.length = l₂.length →
    bytesValue l₁ = bytesValue l₂ → l₁ = l₂
  | [], [], _, _ => rfl
  | x :: l₁, y :: l₂, hl, hv => by
    simp only [List.length_cons, Nat.add_right_cancel_iff] at hl
    rw [bytesValue_cons, bytesValue_cons, hl] at hv
    have h1 := bytesValue_lt l₁
    have h2 := bytesValue_lt l₂
    rw [hl] at h1
    have hP : 0 < 256 ^ l₂.length := Nat.pos_pow_of_pos _ (by decide)
    have hd : x.toNat = y.toNat := by
      have := congrArg (· / 256 ^ l₂.length) hv
      simp only at this
      rwa [Nat.mul_comm, Nat.mul_add_div hP, Nat.div_eq_of_lt h1, Nat.mul_comm, Nat.mul_add_div hP,
        Nat.div_eq_of_lt h2, Nat.add_zero, Nat.add_zero] at this
    rw [hd] at hv
    rw [UInt8.toNat.inj hd, bytesValue_inj hl (by omega)]

theorem beBytes_bytesValue (l : Bytes) : beBytes l.length (bytesValue l) = l :=
  bytesValue_inj (by simp) (by rw [bytesValue_beBytes, Nat.mod_eq_of_lt (bytesValue_lt l)])

/-! ## `WriteLong` and `ReadLong` -/

@[simp] theorem length_writeLong (x : Int) : (writeLong x).length = 8 := length_beBytes _ _

theorem bytesValue_writeLong (x : Int) : bytesValue (writeLong x) = (x % 2 ^ 64).toNat := by
  rw [writeLong_eq, bytesValue_beBytes, Nat.mod_eq_of_lt (by norm_num; omega)]

theorem readLong_writeLong {x : Int} (hx : IsInt64 x) : readLong (writeLong x) = x := by
  rw [readLong_eq, List.take_of_length_le (by simp), bytesValue_writeLong]
  unfold IsInt64 int64Max at hx
  split <;> omega

theorem writeLong_readLong {b : Bytes} (hb : 8 ≤ b.length) : writeLong (readLong b) = b.take 8 := by
  have hlen : (b.take 8).length = 8 := by simp [hb]
  have hlt := bytesValue_lt (b.take 8)
  rw [hlen] at hlt
  have hmod : (readLong b % 2 ^ 64).toNat = bytesValue (b.take 8) := by
    rw [readLong_eq]; split <;> omega
  have h := beBytes_bytesValue (b.take 8)
  rw [hlen] at h
  rw [writeLong_eq, hmod, h]

/-- `ReadLong` reads the first eight bytes only. -/
theorem readLong_append {l : Bytes} (hl : l.length = 8) (m : Bytes) :
    readLong (l ++ m) = readLong l := by
  rw [readLong_eq, readLong_eq, List.take_left' hl, List.take_of_length_le hl.le]

/-! ## The round trip -/

theorem length_revisionToString (r : RevisionInternal) : (revisionToString r).length = 17 := by
  simp [revisionToString]

theorem stringToRevision_revisionToString {r : RevisionInternal} (hm : IsInt64 r.main)
    (hs : IsInt64 r.sub) : stringToRevision (revisionToString r) = r := by
  have hdrop : (revisionToString r).drop 9 = writeLong r.sub :=
    List.drop_left' (by simp)
  rw [stringToRevision, if_neg (show ¬ (revisionToString r).length ≠ 17 by
    simp [length_revisionToString]), hdrop, revisionToString,
    List.append_assoc, readLong_append (length_writeLong _), readLong_writeLong hm,
    readLong_writeLong hs]

theorem revisionToString_stringToRevision {input : Bytes} (hlen : input.length = 17)
    (hsep : input[8]? = some separator) : revisionToString (stringToRevision input) = input := by
  have h8 : input.drop 8 = separator :: input.drop 9 := by
    rw [List.getElem?_eq_some_iff] at hsep
    obtain ⟨h, hx⟩ := hsep
    rw [List.drop_eq_getElem_cons h, hx]
  rw [stringToRevision, if_neg (show ¬ input.length ≠ 17 by simp [hlen]), revisionToString,
    writeLong_readLong (show 8 ≤ input.length by omega),
    writeLong_readLong (show 8 ≤ (input.drop 9).length by simp [hlen]),
    List.take_of_length_le (show (input.drop 9).length ≤ 8 by simp [hlen]), List.append_assoc,
    List.singleton_append, ← h8, List.take_append_drop]

/-- **The revision key round trip**: a revision of two `int64_t`s encodes to 17 bytes and decodes
back to itself, and a 17-byte key with `'_'` at offset 8 encodes back from what it decodes to. -/
theorem revisionToString_round_trip (r : RevisionInternal) (hm : IsInt64 r.main)
    (hs : IsInt64 r.sub) (input : Bytes) (hlen : input.length = 17)
    (hsep : input[8]? = some separator) :
    (revisionToString r).length = 17 ∧ stringToRevision (revisionToString r) = r ∧
      revisionToString (stringToRevision input) = input :=
  ⟨length_revisionToString r, stringToRevision_revisionToString hm hs,
    revisionToString_stringToRevision hlen hsep⟩

/-- The negative `main` and the largest `sub` exercise the sign and the high byte. -/
theorem revisionToString_round_trip_extremes :
    let r : RevisionInternal := ⟨-1, int64Max⟩
    let input : Bytes := [1, 2, 3, 4, 5, 6, 7, 128, 95, 255, 0, 0, 0, 0, 0, 0, 1]
    (IsInt64 r.main ∧ IsInt64 r.sub ∧ input.length = 17 ∧ input[8]? = some separator) ∧
      (revisionToString r).length = 17 ∧ stringToRevision (revisionToString r) = r ∧
        revisionToString (stringToRevision input) = input := by
  intro r input
  have h : IsInt64 r.main ∧ IsInt64 r.sub ∧ input.length = 17 ∧ input[8]? = some separator := by
    decide
  exact ⟨h, revisionToString_round_trip r h.1 h.2.1 input h.2.2.1 h.2.2.2⟩

theorem revisionToString_injective {r r' : RevisionInternal} (hm : IsInt64 r.main)
    (hs : IsInt64 r.sub) (hm' : IsInt64 r'.main) (hs' : IsInt64 r'.sub)
    (h : revisionToString r = revisionToString r') : r = r' := by
  rw [← stringToRevision_revisionToString hm hs, h, stringToRevision_revisionToString hm' hs']

/-! ## The order of the keys -/

theorem cons_lt_cons_iff {a b : UInt8} {l₁ l₂ : Bytes} :
    a :: l₁ < b :: l₂ ↔ a < b ∨ a = b ∧ l₁ < l₂ := by
  constructor
  · intro h
    cases h with
    | cons h => exact .inr ⟨rfl, h⟩
    | rel h => exact .inl h
  · rintro (h | ⟨rfl, h⟩)
    exacts [.rel h, .cons h]

theorem not_nil_lt_nil : ¬ ([] : Bytes) < [] := nofun

/-- Digits compare as their leading digit, then as the rest. -/
theorem digit_lt_iff {a b v w P : Nat} (hv : v < P) (hw : w < P) :
    a * P + v < b * P + w ↔ a < b ∨ a = b ∧ v < w := by
  have step : ∀ {c d x y : Nat}, c < d → x < P → c * P + x < d * P + y := fun {c d x y} hcd hx =>
    calc _ < c * P + P := by omega
      _ = (c + 1) * P := by ring
      _ ≤ d * P := Nat.mul_le_mul_right P hcd
      _ ≤ d * P + _ := Nat.le_add_right _ _
  constructor
  · intro h
    rcases lt_trichotomy a b with hab | rfl | hab
    · exact .inl hab
    · exact .inr ⟨rfl, by omega⟩
    · exact absurd h (not_lt.mpr (step hab hw).le)
  · rintro (hab | ⟨rfl, h⟩)
    · exact step hab hv
    · omega

/-- On byte strings of one length, the unsigned lexicographic order is the order of their
values. -/
theorem lt_iff_bytesValue_lt : ∀ {l₁ l₂ : Bytes}, l₁.length = l₂.length →
    (l₁ < l₂ ↔ bytesValue l₁ < bytesValue l₂)
  | [], [], _ => by simp [not_nil_lt_nil, bytesValue]
  | x :: l₁, y :: l₂, hl => by
    simp only [List.length_cons, Nat.add_right_cancel_iff] at hl
    have h1 := bytesValue_lt l₁
    rw [hl] at h1
    have hxy : x = y ↔ x.toNat = y.toNat := ⟨congrArg _, UInt8.toNat.inj⟩
    rw [cons_lt_cons_iff, lt_iff_bytesValue_lt hl, bytesValue_cons, bytesValue_cons, hl,
      digit_lt_iff h1 (bytesValue_lt l₂), hxy]
    exact Iff.rfl

/-- Behind prefixes of one length, the order is the prefixes', then the rest's. -/
theorem append_lt_append_iff : ∀ {l₁ l₂ : Bytes} (m₁ m₂ : Bytes), l₁.length = l₂.length →
    (l₁ ++ m₁ < l₂ ++ m₂ ↔ l₁ < l₂ ∨ l₁ = l₂ ∧ m₁ < m₂)
  | [], [], m₁, m₂, _ => by simp [not_nil_lt_nil]
  | x :: l₁, y :: l₂, m₁, m₂, hl => by
    simp only [List.length_cons, Nat.add_right_cancel_iff] at hl
    simp only [List.cons_append, cons_lt_cons_iff, append_lt_append_iff m₁ m₂ hl,
      List.cons.injEq, and_or_left, or_assoc, and_assoc]

theorem writeLong_lt_iff {x y : Int} (hx : 0 ≤ x ∧ IsInt64 x) (hy : 0 ≤ y ∧ IsInt64 y) :
    writeLong x < writeLong y ↔ x < y := by
  rw [lt_iff_bytesValue_lt (by simp), bytesValue_writeLong, bytesValue_writeLong]
  unfold IsInt64 int64Max at hx hy
  omega

/-- **The keys sort as the revisions**: for revisions whose halves are non-negative `int64_t`s,
`RevisionToString` orders them in unsigned lexicographic order exactly as `(main, sub)` orders
them. -/
theorem revisionToString_lt_iff {a b : RevisionInternal} (ha : 0 ≤ a.main ∧ 0 ≤ a.sub)
    (ha64 : IsInt64 a.main ∧ IsInt64 a.sub) (hb : 0 ≤ b.main ∧ 0 ≤ b.sub)
    (hb64 : IsInt64 b.main ∧ IsInt64 b.sub) :
    revisionToString a < revisionToString b ↔ a < b := by
  have hinj : writeLong a.main = writeLong b.main ↔ a.main = b.main :=
    ⟨fun h => by rw [← readLong_writeLong ha64.1, h, readLong_writeLong hb64.1], congrArg _⟩
  rw [revisionToString, revisionToString, List.append_assoc, List.append_assoc,
    append_lt_append_iff _ _ (by simp), List.singleton_append, List.singleton_append,
    cons_lt_cons_iff, lt_self_iff_false, false_or, eq_self_iff_true, true_and,
    writeLong_lt_iff ⟨ha.1, ha64.1⟩ ⟨hb.1, hb64.1⟩, hinj,
    writeLong_lt_iff ⟨ha.2, ha64.2⟩ ⟨hb.2, hb64.2⟩, RevisionInternal.lt_iff]

theorem revisionToString_lt_iff_high_byte :
    let a : RevisionInternal := ⟨255, int64Max⟩
    let b : RevisionInternal := ⟨256, 0⟩
    ((0 ≤ a.main ∧ 0 ≤ a.sub) ∧ (IsInt64 a.main ∧ IsInt64 a.sub) ∧ (0 ≤ b.main ∧ 0 ≤ b.sub) ∧
      (IsInt64 b.main ∧ IsInt64 b.sub)) ∧
      (revisionToString a < revisionToString b ↔ a < b) := by
  intro a b
  have h : (0 ≤ a.main ∧ 0 ≤ a.sub) ∧ (IsInt64 a.main ∧ IsInt64 a.sub) ∧
      (0 ≤ b.main ∧ 0 ≤ b.sub) ∧ (IsInt64 b.main ∧ IsInt64 b.sub) := by decide
  exact ⟨h, revisionToString_lt_iff h.1 h.2.1 h.2.2.1 h.2.2.2⟩

end DingoKv
