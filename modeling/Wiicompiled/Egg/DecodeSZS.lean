import Wiicompiled.Support.BackReferences
import Wiicompiled.Support.FlatMemory

/-!
# The Yaz0 decoder

`EGG_Decomp_decodeSZS` expands a Yaz0 file from one place of guest memory to
another.  The file has a header of 16 bytes with the expanded size, then groups
of a flag byte and up to eight tokens: a set flag is a literal byte, a clear one
a back-reference of two or three bytes.

The decoder is translated with its 32-bit indices.  The grammar reads the file
as a stream of bytes and gives the tokens of it; it knows neither guest memory
nor an output buffer.
-/

namespace Wiicompiled.Egg

open BackReferences FlatMemory

/-! ## The grammar -/

/-- The place in a stream behind the tokens read, and the flags of their group. -/
structure Cursor where
  pos : Nat
  flags : UInt8

/-- A back-reference at `pos`: twelve bits of distance, four of length, and
another byte of length where these are zero. -/
def readBackReference (stream : Nat → UInt8) (pos : Nat) : Token UInt8 × Nat :=
  let rep := (stream pos).toNat * 256 + (stream (pos + 1)).toNat
  let distance := rep % 4096 + 1
  if rep / 4096 = 0 then
    (.backReference distance ((stream (pos + 2)).toNat + 18), pos + 3)
  else (.backReference distance (rep / 4096 + 2), pos + 2)

/-- The flag byte of a group stands before its first token. -/
def openGroup (stream : Nat → UInt8) (k : Nat) (cursor : Cursor) : Cursor :=
  if k % 8 = 0 then { pos := cursor.pos + 1, flags := stream cursor.pos } else cursor

/-- The token of number `k`. -/
def readToken (stream : Nat → UInt8) (k : Nat) (cursor : Cursor) : Token UInt8 × Cursor :=
  let cursor := openGroup stream k cursor
  if cursor.flags.toNat.testBit (7 - k % 8) then
    (.literal (stream cursor.pos), { cursor with pos := cursor.pos + 1 })
  else
    let (token, pos) := readBackReference stream cursor.pos
    (token, { cursor with pos := pos })

/-- The first `k` tokens of a file, and the place behind them. -/
def readTokens (stream : Nat → UInt8) : Nat → List (Token UInt8) × Cursor
  | 0 => ([], { pos := 16, flags := 0 })
  | k + 1 =>
      let (tokens, cursor) := readTokens stream k
      let (token, cursor) := readToken stream k cursor
      (tokens ++ [token], cursor)

def tokens (stream : Nat → UInt8) (k : Nat) : List (Token UInt8) :=
  (readTokens stream k).1

def cursorAt (stream : Nat → UInt8) (k : Nat) : Cursor :=
  (readTokens stream k).2

/-- The token of number `k`, at its place in the file. -/
def tokenAt (stream : Nat → UInt8) (k : Nat) : Token UInt8 :=
  (readToken stream k (cursorAt stream k)).1

def expandedSize (stream : Nat → UInt8) : Nat :=
  (stream 4).toNat * 2 ^ 24 + (stream 5).toNat * 2 ^ 16 + (stream 6).toNat * 2 ^ 8 +
    (stream 7).toNat

/-- The file expands to `out`: a number of its tokens gives the expanded size. -/
def Expansion (stream : Nat → UInt8) (out : List UInt8) : Prop :=
  ∃ k, expand (tokens stream k) = some out ∧ out.length = expandedSize stream

/-! ## The decoder -/

abbrev GuestMemory := BitVec 32 → UInt8

def flatRead8 (mem : GuestMemory) (address : BitVec 32) : BitVec 32 :=
  BitVec.ofNat 32 (mem address).toNat

/-- The state of the loop, with the addresses written to and those that copies
were read from. -/
structure DecodeState where
  mem : GuestMemory
  srcIdx : BitVec 32
  dstIdx : BitVec 32
  mask : BitVec 32
  flags : BitVec 32
  written : List (BitVec 32)
  copied : List (BitVec 32)

inductive Decoded where
  /-- The file is malformed and the program aborts. -/
  | malformed (s : DecodeState)
  | done (s : DecodeState)

def writeByte (dst : BitVec 32) (value : UInt8) (s : DecodeState) : DecodeState :=
  { s with
    mem := store s.mem (dst + s.dstIdx) [value]
    dstIdx := s.dstIdx + 1
    written := s.written ++ [dst + s.dstIdx] }

/-- Note the place that a copy reads. -/
def noteCopied (address : BitVec 32) (s : DecodeState) : DecodeState :=
  { s with copied := s.copied ++ [address] }

/-- The flags of the next group, when those of the last are used up. -/
def loadFlags (src : BitVec 32) (s : DecodeState) : DecodeState :=
  if s.mask = 0 then
    { s with
      flags := flatRead8 s.mem (src + s.srcIdx)
      srcIdx := s.srcIdx + 1
      mask := 0x80 }
  else s

def copyLoop (dst expandSize : BitVec 32) : Nat → BitVec 32 → DecodeState → Decoded
  | 0, _, s => .done s
  | n + 1, copyIdx, s =>
      if expandSize ≤ s.dstIdx then .malformed s
      else
        copyLoop dst expandSize n (copyIdx + 1)
          (writeByte dst (s.mem (dst + copyIdx)) (noteCopied (dst + copyIdx) s))

/-- A clear flag: the back-reference is read, checked and copied. -/
def copyStep (src dst expandSize : BitVec 32) (s : DecodeState) : Decoded :=
  let high := flatRead8 s.mem (src + s.srcIdx)
  let low := flatRead8 s.mem (src + s.srcIdx + 1)
  let s := { s with srcIdx := s.srcIdx + 2 }
  let rep := high <<< 8 ||| low
  let distance := (rep &&& 0xFFF) + 1
  if s.dstIdx < distance then .malformed s
  else
    let copyIdx := s.dstIdx - distance
    let count := rep >>> 12
    if count ≠ 0 then copyLoop dst expandSize (count + 2).toNat copyIdx s
    else
      let count := flatRead8 s.mem (src + s.srcIdx) + 18
      copyLoop dst expandSize count.toNat copyIdx { s with srcIdx := s.srcIdx + 1 }

def decodeStep (src dst expandSize : BitVec 32) (s : DecodeState) : Decoded :=
  let s := loadFlags src s
  let decoded :=
    if s.flags &&& s.mask ≠ 0 then
      .done (writeByte dst (s.mem (src + s.srcIdx)) { s with srcIdx := s.srcIdx + 1 })
    else copyStep src dst expandSize s
  match decoded with
  | .malformed s => .malformed s
  | .done s => .done { s with mask := s.mask >>> 1 }

/-- The loop of the decoder, for a number of iterations; the comparison of the
indices is signed. -/
def decodeLoop (src dst expandSize : BitVec 32) : Nat → DecodeState → Option Decoded
  | 0, s => if s.dstIdx.slt expandSize then none else some (.done s)
  | fuel + 1, s =>
      if s.dstIdx.slt expandSize then
        match decodeStep src dst expandSize s with
        | .malformed s => some (.malformed s)
        | .done s => decodeLoop src dst expandSize fuel s
      else some (.done s)

def readExpandSize (mem : GuestMemory) (src : BitVec 32) : BitVec 32 :=
  flatRead8 mem (src + 4) <<< 24 ||| flatRead8 mem (src + 5) <<< 16 |||
    flatRead8 mem (src + 6) <<< 8 ||| flatRead8 mem (src + 7)

def startState (mem : GuestMemory) : DecodeState where
  mem := mem
  srcIdx := 16
  dstIdx := 0
  mask := 0
  flags := 0
  written := []
  copied := []

/-- The decoder, for a number of iterations of its loop. -/
def decodeSZS (fuel : Nat) (mem : GuestMemory) (src dst : BitVec 32) : Option Decoded :=
  decodeLoop src dst (readExpandSize mem src) fuel (startState mem)

def streamAt (mem : GuestMemory) (src : BitVec 32) (n : Nat) : UInt8 :=
  mem (src + BitVec.ofNat 32 n)

/-! ## The grammar reads forward -/

theorem tokens_succ
    (stream : Nat → UInt8) (k : Nat) :
    tokens stream (k + 1) = tokens stream k ++ [tokenAt stream k] :=
  rfl

theorem cursorAt_succ
    (stream : Nat → UInt8) (k : Nat) :
    cursorAt stream (k + 1) = (readToken stream k (cursorAt stream k)).2 :=
  rfl

theorem exists_tokens_append
    (stream : Nat → UInt8) {k l : Nat} (hle : k ≤ l) :
    ∃ others, tokens stream l = tokens stream k ++ others := by
  induction l, hle using Nat.le_induction with
  | base => exact ⟨[], (List.append_nil _).symm⟩
  | succ l hle ih =>
      obtain ⟨others, hothers⟩ := ih
      exact ⟨others ++ [tokenAt stream l], by rw [tokens_succ, hothers, List.append_assoc]⟩

/-- A file whose next token cannot be emitted, or leads past the expanded size,
has no expansion. -/
theorem not_expansion_of_token
    {stream : Nat → UInt8} {k : Nat} {out : List UInt8}
    (hout : expand (tokens stream k) = some out) (hlt : out.length < expandedSize stream)
    (hbad : ∀ next, emit out (tokenAt stream k) = some next →
      expandedSize stream < next.length) :
    ¬ ∃ all, Expansion stream all := by
  rintro ⟨all, l, hall, hlength⟩
  by_cases hle : l ≤ k
  · obtain ⟨others, hothers⟩ := exists_tokens_append stream hle
    rw [hothers] at hout
    obtain ⟨first, hfirst, hfirstLe⟩ := exists_expand_of_append hout
    rw [hall] at hfirst
    rw [← Option.some.inj hfirst] at hfirstLe
    omega
  · obtain ⟨others, hothers⟩ := exists_tokens_append stream (Nat.lt_of_not_le hle)
    rw [hothers] at hall
    obtain ⟨next, hnext, hnextLe⟩ := exists_expand_of_append hall
    rw [Nat.succ_eq_add_one, tokens_succ, expand_concat, hout, Option.bind_some] at hnext
    have hpast := hbad next hnext
    omega

end Wiicompiled.Egg
