import Mathlib.Data.List.Infix
import Mathlib.Tactic.Ring

/-!
# Binary writers and readers

A writer appends bytes to an output and may fail; a reader consumes a prefix of
an input and may fail.  `RoundTrips w p a` says that what `w` writes makes `p`
return `a`, whatever follows in the input, and `Stable p` says that a successful
read is not changed by further input.  The two together give a lossless codec
that rejects truncated and extended payloads.
-/

namespace BinaryCodec

variable {ε δ α β : Type}

/-- Appends bytes to the output, or fails. -/
abbrev ByteWriter (ε α : Type) := StateT (List UInt8) (Except ε) α

/-- Consumes a prefix of the input, or fails. -/
abbrev ByteReader (δ α : Type) := StateT (List UInt8) (Except δ) α

/-- Append the given bytes. -/
def write (bytes : List UInt8) : ByteWriter ε Unit :=
  fun out => .ok ((), out ++ bytes)

/-- Read one byte, failing with `eof` at the end of the input. -/
def readByte (eof : δ) : ByteReader δ UInt8
  | [] => .error eof
  | b :: rest => .ok (b, rest)

/-- Read at most `n` bytes: fewer when the input ends. -/
def readAtMost (n : ℕ) : ByteReader δ (List UInt8) :=
  fun input => .ok (input.take n, input.drop n)

/-- Run `p` a fixed number of times. -/
def readMany (p : ByteReader δ α) : ℕ → ByteReader δ (List α)
  | 0 => pure []
  | n + 1 => do
      let head ← p
      let tail ← readMany p n
      pure (head :: tail)

/-- Run `p` on a whole input: bytes left over are an error. -/
def readAll (p : ByteReader δ α) (trailing : δ) (input : List UInt8) :
    Except δ α :=
  match p input with
  | .error e => .error e
  | .ok (a, []) => .ok a
  | .ok (_, _ :: _) => .error trailing

/-- `w` appends exactly `bytes`. -/
def Writes (w : ByteWriter ε Unit) (bytes : List UInt8) : Prop :=
  ∀ out, w out = .ok ((), out ++ bytes)

/-- `p` consumes exactly `bytes` and returns `a`. -/
def Reads (p : ByteReader δ α) (bytes : List UInt8) (a : α) : Prop :=
  ∀ rest, p (bytes ++ rest) = .ok (a, rest)

/-- What `w` writes is read back by `p` as `a`. -/
def RoundTrips (w : ByteWriter ε Unit) (p : ByteReader δ α) (a : α) : Prop :=
  ∃ bytes, Writes w bytes ∧ Reads p bytes a

/-- More input does not change a successful read. -/
def Stable (p : ByteReader δ α) : Prop :=
  ∀ input more a rest,
    p input = .ok (a, rest) → p (input ++ more) = .ok (a, rest ++ more)

/-! ## Composition of round trips -/

theorem Writes.write (bytes : List UInt8) :
    Writes (write bytes : ByteWriter ε Unit) bytes := by
  intro out
  rfl

theorem Writes.bind
    {w v : ByteWriter ε Unit} {xs ys : List UInt8}
    (hw : Writes w xs) (hv : Writes v ys) :
    Writes (w >>= fun _ => v) (xs ++ ys) := by
  intro out
  change (w out >>= fun r => v r.2) = _
  rw [hw out]
  change v (out ++ xs) = _
  rw [hv, List.append_assoc]

theorem Reads.bind
    {p : ByteReader δ α} {k : α → ByteReader δ β} {xs ys : List UInt8}
    {a : α} {b : β}
    (hp : Reads p xs a) (hk : Reads (k a) ys b) :
    Reads (p >>= k) (xs ++ ys) b := by
  intro rest
  change (p (xs ++ ys ++ rest) >>= fun r => k r.1 r.2) = _
  rw [List.append_assoc, hp (ys ++ rest)]
  exact hk rest

theorem RoundTrips.pure (a : α) :
    RoundTrips (pure () : ByteWriter ε Unit) (pure a : ByteReader δ α) a := by
  refine ⟨[], ?_, ?_⟩
  · intro out
    change Except.ok ((), out) = _
    rw [List.append_nil]
  · intro rest
    rfl

theorem RoundTrips.bind
    {w v : ByteWriter ε Unit} {p : ByteReader δ α} {k : α → ByteReader δ β} {a : α} {b : β}
    (hw : RoundTrips w p a) (hv : RoundTrips v (k a) b) :
    RoundTrips (w >>= fun _ => v) (p >>= k) b := by
  obtain ⟨xs, hwx, hpx⟩ := hw
  obtain ⟨ys, hvy, hky⟩ := hv
  exact ⟨xs ++ ys, hwx.bind hvy, hpx.bind hky⟩

/-- A read followed by a step that consumes nothing. -/
theorem RoundTrips.bind_pure
    {w : ByteWriter ε Unit} {p : ByteReader δ α} {k : α → ByteReader δ β} {a : α} {b : β}
    (hw : RoundTrips w p a) (hk : k a = Pure.pure b) :
    RoundTrips w (p >>= k) b := by
  obtain ⟨xs, hwx, hpx⟩ := hw
  refine ⟨xs, hwx, ?_⟩
  intro rest
  change (p (xs ++ rest) >>= fun r => k r.1 r.2) = _
  rw [hpx rest]
  change k a rest = _
  rw [hk]
  rfl

theorem RoundTrips.map
    {w : ByteWriter ε Unit} {p : ByteReader δ α} {a : α}
    (hw : RoundTrips w p a) (f : α → β) :
    RoundTrips w (p >>= fun x => Pure.pure (f x)) (f a) :=
  hw.bind_pure rfl

/-- A written block of known length is read back. -/
theorem RoundTrips.readAtMost (bytes : List UInt8) :
    RoundTrips (write bytes : ByteWriter ε Unit)
      (readAtMost bytes.length : ByteReader δ (List UInt8)) bytes := by
  refine ⟨bytes, Writes.write bytes, ?_⟩
  intro rest
  simp [BinaryCodec.readAtMost]

theorem RoundTrips.readByte (b : UInt8) (eof : δ) :
    RoundTrips (write [b] : ByteWriter ε Unit) (readByte eof) b :=
  ⟨[b], Writes.write [b], fun _ => rfl⟩

/-- A round trip for every element is one for the whole sequence. -/
theorem RoundTrips.readMany
    {f : α → ByteWriter ε Unit} {p : ByteReader δ β} {g : α → β} (xs : List α)
    (h : ∀ x ∈ xs, RoundTrips (f x) p (g x)) :
    RoundTrips (xs.forM f) (readMany p xs.length) (xs.map g) := by
  induction xs with
  | nil => exact RoundTrips.pure []
  | cons x xs ih =>
      have hhead := h x List.mem_cons_self
      have htail := ih fun y hy => h y (List.mem_cons_of_mem x hy)
      exact hhead.bind (htail.map fun tail => g x :: tail)

/-! ## Composition of stable readers -/

theorem Stable.pure (a : α) : Stable (pure a : ByteReader δ α) := by
  intro input more b rest h
  cases h
  rfl

theorem Stable.throw (e : δ) : Stable (throw e : ByteReader δ α) := by
  intro input more b rest h
  cases h

theorem Stable.bind
    {p : ByteReader δ α} {k : α → ByteReader δ β}
    (hp : Stable p) (hk : ∀ a, Stable (k a)) : Stable (p >>= k) := by
  intro input more b rest h
  change (p input >>= fun r => k r.1 r.2) = _ at h
  change (p (input ++ more) >>= fun r => k r.1 r.2) = _
  cases hrun : p input with
  | error e =>
      rw [hrun] at h
      cases h
  | ok r =>
      rw [hrun] at h
      rw [hp input more r.1 r.2 hrun]
      exact hk r.1 r.2 more b rest h

theorem Stable.readByte (eof : δ) : Stable (readByte eof) := by
  intro input more b rest h
  cases input with
  | nil => cases h
  | cons c input =>
      cases h
      rfl

theorem Stable.readMany {p : ByteReader δ α} (hp : Stable p) (n : ℕ) :
    Stable (readMany p n) := by
  induction n with
  | zero => exact Stable.pure []
  | succ n ih =>
      exact hp.bind fun head => ih.bind fun tail => Stable.pure (head :: tail)

/-- A short read is stable when the continuation rejects it. -/
theorem Stable.readAtMost_bind
    {n : ℕ} {k : List UInt8 → ByteReader δ β}
    (hk : ∀ bytes, Stable (k bytes))
    (hshort : ∀ bytes input r, bytes.length ≠ n → k bytes input ≠ .ok r) :
    Stable (readAtMost n >>= k) := by
  intro input more b rest h
  change k (input.take n) (input.drop n) = _ at h
  change k ((input ++ more).take n) ((input ++ more).drop n) = _
  by_cases hlen : (input.take n).length = n
  · have hle : n ≤ input.length := by
      rw [List.length_take] at hlen
      omega
    rw [List.take_append_of_le_length hle, List.drop_append_of_le_length hle]
    exact hk _ _ more b rest h
  · exact absurd h (hshort _ _ _ hlen)

/-! ## Whole inputs -/

theorem readAll_of_reads
    {p : ByteReader δ α} {bytes : List UInt8} {a : α}
    (h : Reads p bytes a) (trailing : δ) :
    readAll p trailing bytes = .ok a := by
  have hrun := h []
  rw [List.append_nil] at hrun
  simp [readAll, hrun]

/-- An encoding followed by further bytes is rejected. -/
theorem readAll_append_of_reads
    {p : ByteReader δ α} {bytes extra : List UInt8} {a : α}
    (h : Reads p bytes a) (trailing : δ) (hextra : extra ≠ []) :
    readAll p trailing (bytes ++ extra) = .error trailing := by
  cases extra with
  | nil => exact absurd rfl hextra
  | cons b extra => simp [readAll, h (b :: extra)]

/-- A strict prefix of an encoding is rejected. -/
theorem readAll_prefix_of_reads
    {p : ByteReader δ α} {bytes extra : List UInt8} {a : α}
    (hstable : Stable p) (h : Reads p (bytes ++ extra) a)
    (trailing : δ) (hextra : extra ≠ []) :
    ∃ e, readAll p trailing bytes = .error e := by
  cases hrun : p bytes with
  | error e => exact ⟨e, by simp [readAll, hrun]⟩
  | ok r =>
      obtain ⟨b, rest⟩ := r
      have hlong := hstable bytes extra b rest hrun
      have hfull := h []
      rw [List.append_nil, hlong] at hfull
      have hrest : rest ++ extra = [] := by
        injection hfull with hpair
        exact (Prod.mk.inj hpair).2
      exact absurd (List.append_eq_nil_iff.mp hrest).2 hextra

/-! ## Little-endian integers -/

/-- The `n` little-endian bytes of a number. -/
def leBytes : ℕ → ℕ → List UInt8
  | 0, _ => []
  | n + 1, v => UInt8.ofNat v :: leBytes n (v / 256)

/-- The number whose little-endian bytes are given. -/
def ofLeBytes : List UInt8 → ℕ
  | [] => 0
  | b :: bytes => b.toNat + 256 * ofLeBytes bytes

theorem leBytes_length (n v : ℕ) : (leBytes n v).length = n := by
  induction n generalizing v with
  | zero => rfl
  | succ n ih => simp [leBytes, ih]

theorem ofLeBytes_leBytes (n v : ℕ) (hv : v < 256 ^ n) :
    ofLeBytes (leBytes n v) = v := by
  induction n generalizing v with
  | zero =>
      have hzero : v = 0 := by simpa using hv
      simp [leBytes, ofLeBytes, hzero]
  | succ n ih =>
      have hdiv : v / 256 < 256 ^ n := by
        rw [Nat.pow_succ] at hv
        omega
      simp only [leBytes, ofLeBytes, ih _ hdiv, UInt8.toNat_ofNat']
      omega

/-! ## Bits of varints -/

/-- Seven low bits and the rest, shifted back into place, make up the word. -/
theorem shiftLeft_seven_or (v : BitVec 32) (s : ℕ) :
    ((v &&& 127#32) <<< s) ||| ((v >>> 7) <<< (s + 7)) = v <<< s := by
  have h127 : ∀ j, (127#32).getLsbD j = decide (j < 7) := by
    intro j
    rw [show (127#32) = BitVec.ofNat 32 (2 ^ 7 - 1) from rfl,
      BitVec.getLsbD_ofNat, Nat.testBit_two_pow_sub_one]
    by_cases hj : j < 7
    · simp [hj]
      omega
    · simp [hj]
  apply BitVec.eq_of_getLsbD_eq
  intro i hi
  rw [BitVec.getLsbD_or, BitVec.getLsbD_shiftLeft, BitVec.getLsbD_shiftLeft,
    BitVec.getLsbD_shiftLeft, BitVec.getLsbD_and, h127,
    BitVec.getLsbD_ushiftRight]
  by_cases hlow : i < s
  · simp [hlow, show i < s + 7 by omega]
  · by_cases hseven : i < s + 7
    · simp [hlow, hseven, show i - s < 7 by omega]
    · simp [hlow, hseven, show ¬i - s < 7 by omega,
        show 7 + (i - (s + 7)) = i - s by omega]

/-- The zigzag code of a signed word. -/
def zigzag (value : BitVec 32) : BitVec 32 :=
  (value <<< 1) ^^^ value.sshiftRight 31

theorem getLsbD_zigzag (value : BitVec 32) (i : ℕ) (hi : i < 32) :
    (zigzag value).getLsbD i =
      ((decide (1 ≤ i) && value.getLsbD (i - 1)) ^^ value.msb) := by
  have hsign : value.getLsbD 31 = value.msb :=
    (BitVec.msb_eq_getLsbD_last value).symm
  rw [zigzag, BitVec.getLsbD_xor, BitVec.getLsbD_shiftLeft,
    BitVec.getLsbD_sshiftRight]
  by_cases hzero : i = 0
  · subst hzero
    simpa using hsign
  · simp [hi, show ¬32 ≤ i by omega, show ¬31 + i < 32 by omega,
      show 1 ≤ i by omega]
    omega

/-- The low bit of a zigzag code is the sign. -/
theorem zigzag_and_one (value : BitVec 32) :
    zigzag value &&& 1#32 = if value.msb then 1#32 else 0#32 := by
  apply BitVec.eq_of_getLsbD_eq
  intro i hi
  rw [BitVec.getLsbD_and, getLsbD_zigzag value i hi]
  by_cases hzero : i = 0
  · subst hzero
    cases value.msb <;> simp
  · cases value.msb <;> simp [hzero]

theorem unzigzag_zigzag (value : BitVec 32) :
    (zigzag value >>> 1) ^^^ (0#32 - (zigzag value &&& 1#32)) = value := by
  have hneg : 0#32 - (zigzag value &&& 1#32) =
      if value.msb then BitVec.allOnes 32 else 0#32 := by
    rw [zigzag_and_one]
    cases value.msb <;> rfl
  rw [hneg]
  apply BitVec.eq_of_getLsbD_eq
  intro i hi
  rw [BitVec.getLsbD_xor, BitVec.getLsbD_ushiftRight]
  by_cases hlast : i = 31
  · subst hlast
    have hsign : value.getLsbD 31 = value.msb :=
      (BitVec.msb_eq_getLsbD_last value).symm
    rw [hsign, BitVec.getLsbD_of_ge _ _ (by omega)]
    cases value.msb <;> simp
  · rw [getLsbD_zigzag value (1 + i) (by omega)]
    cases hmsb : value.msb
    · simp
    · have hone : (BitVec.allOnes 32).getLsbD i = true := by
        rw [BitVec.getLsbD_allOnes, decide_eq_true hi]
      rw [if_pos rfl, hone]
      simp

end BinaryCodec
