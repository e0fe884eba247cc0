import Wiicompiled.Parsing.KamekPulFile

/-!
# Kamek files as laid out

A parsed chunk keeps all of its bytes but three words of its header.  With these words the
chunks of a file lay it out again, and a file that is laid out from well-formed chunks is
parsed to them.
-/

namespace Wiicompiled.Parsing

open ByteImage

/-! ## Words -/

def wordBytes (words : List (BitVec 32)) : List UInt8 :=
  words.flatMap fun word => toBytes 4 word.toNat

@[simp]
theorem wordBytes_nil : wordBytes [] = [] := rfl

@[simp]
theorem wordBytes_cons (word : BitVec 32) (words : List (BitVec 32)) :
    wordBytes (word :: words) = toBytes 4 word.toNat ++ wordBytes words := rfl

@[simp]
theorem length_wordBytes (words : List (BitVec 32)) :
    (wordBytes words).length = 4 * words.length := by
  induction words with
  | nil => rfl
  | cons word words ih =>
      rw [wordBytes_cons, List.length_append, length_toBytes, ih, List.length_cons]
      omega

namespace KamekChunk

variable {data : List UInt8} {position count : ℕ} {words : List (BitVec 32)}

theorem readWords_eq_some_iff : readWords data position count = some words ↔
    words.length = count ∧ Holds data position (wordBytes words) := by
  induction count generalizing position words with
  | zero =>
      rw [readWords, Option.some.injEq]
      constructor
      · rintro rfl
        exact ⟨rfl, holds_nil⟩
      · rintro ⟨hlength, -⟩
        exact (List.length_eq_zero_iff.mp hlength).symm
  | succ count ih =>
      simp only [readWords, Option.bind_eq_bind, Option.bind_eq_some_iff, Option.some.injEq, ih]
      constructor
      · rintro ⟨word, hword, rest, ⟨hlength, hrest⟩, rfl⟩
        refine ⟨by rw [List.length_cons, hlength], ?_⟩
        rw [wordBytes_cons, holds_append, length_toBytes]
        exact ⟨readUInt32_eq_some_iff_holds.mp hword, hrest⟩
      · rintro ⟨hlength, hholds⟩
        cases words with
        | nil => exact absurd hlength (Nat.succ_ne_zero count).symm
        | cons word rest =>
            rw [wordBytes_cons, holds_append, length_toBytes] at hholds
            exact ⟨word, readUInt32_eq_some_iff_holds.mpr hholds.1, rest,
              ⟨Nat.succ.inj hlength, hholds.2⟩, rfl⟩

end KamekChunk

/-! ## Commands -/

namespace KamekCommand

/-- A command as it stands in the file. -/
def bytes (c : KamekCommand) : List UInt8 :=
  wordBytes (c.commandWord :: ((if c.addressIsAbsolute then [c.address] else []) ++ c.arguments))

/-- The fields of a command that its word determines. -/
structure WellFormed (c : KamekCommand) : Prop where
  id : KamekCommandId.ofValue (c.commandWord >>> 24).toNat = some c.id
  absolute : c.addressIsAbsolute =
    decide (c.commandWord &&& 0x00FFFFFF = KamekChunk.absoluteAddress)
  relative : c.addressIsAbsolute = false → c.address = c.commandWord &&& 0x00FFFFFF
  arguments : c.arguments.length = KamekChunk.argumentCount c.id

theorem four_le_length_bytes (c : KamekCommand) : 4 ≤ c.bytes.length := by
  rw [bytes, length_wordBytes, List.length_cons]
  omega

end KamekCommand

namespace KamekChunk

variable {data : List UInt8} {position next stop fuel : ℕ} {c : KamekCommand}
  {commands : List KamekCommand}

theorem readCommand_eq_some_iff : readCommand data position = some (c, next) ↔
    c.WellFormed ∧ c.streamOffset = position ∧ Holds data position c.bytes ∧
      next = position + c.bytes.length := by
  simp only [readCommand, Option.bind_eq_bind, Option.bind_eq_some_iff, Option.some.injEq,
    readUInt32_eq_some_iff_holds, readWords_eq_some_iff, Prod.exists, Prod.mk.injEq]
  constructor
  · rintro ⟨word, hword, id, hid, absolute, address, start, haddress, args, ⟨hlength, hargs⟩,
      rfl, rfl⟩
    rw [readAddress] at haddress
    split at haddress
    · rename_i habsolute
      obtain ⟨address', hread, heq⟩ := Option.map_eq_some_iff.mp haddress
      simp only [Prod.mk.injEq] at heq
      obtain ⟨rfl, rfl, rfl⟩ := heq
      refine ⟨⟨hid, (decide_eq_true habsolute).symm, nofun, hlength⟩, rfl, ?_, ?_⟩
      · rw [KamekCommand.bytes, if_pos rfl, List.singleton_append, wordBytes_cons, wordBytes_cons,
          holds_append, holds_append, length_toBytes, length_toBytes]
        exact ⟨hword, readUInt32_eq_some_iff_holds.mp hread, hargs⟩
      · simp only [KamekCommand.bytes, length_wordBytes, if_pos, List.length_cons,
          List.length_append, List.length_nil, hlength]
        omega
    · rename_i habsolute
      simp only [Option.some.injEq, Prod.mk.injEq] at haddress
      obtain ⟨rfl, rfl, rfl⟩ := haddress
      refine ⟨⟨hid, (decide_eq_false habsolute).symm, fun _ => rfl, hlength⟩, rfl, ?_, ?_⟩
      · rw [KamekCommand.bytes, if_neg Bool.false_ne_true, List.nil_append, wordBytes_cons,
          holds_append, length_toBytes]
        exact ⟨hword, hargs⟩
      · simp only [KamekCommand.bytes, length_wordBytes, Bool.false_eq_true, if_false,
          List.length_cons, List.nil_append, hlength]
        omega
  · rintro ⟨⟨hid, habsolute, hrelative, hlength⟩, rfl, hholds, rfl⟩
    obtain ⟨start, word, id, absolute, address, args⟩ := c
    simp only at hid habsolute hrelative hlength
    rw [KamekCommand.bytes, wordBytes_cons, holds_append, length_toBytes] at hholds
    obtain ⟨hword, hrest⟩ := hholds
    cases absolute with
    | true =>
        have habsolute := of_decide_eq_true habsolute.symm
        rw [if_pos rfl, List.singleton_append, wordBytes_cons, holds_append, length_toBytes]
          at hrest
        refine ⟨word, hword, id, hid, true, address, start + 4 + 4, ?_, args,
          ⟨hlength, hrest.2⟩, rfl, ?_⟩
        · rw [readAddress, if_pos habsolute, readUInt32_eq_some_iff_holds.mpr hrest.1]
          rfl
        · simp only [KamekCommand.bytes, length_wordBytes, if_pos, List.length_cons,
            List.length_append, List.length_nil, hlength]
          omega
    | false =>
        have habsolute := of_decide_eq_false habsolute.symm
        rw [if_neg Bool.false_ne_true, List.nil_append] at hrest
        refine ⟨word, hword, id, hid, false, address, start + 4, ?_, args,
          ⟨hlength, hrest⟩, rfl, ?_⟩
        · rw [readAddress, if_neg habsolute, hrelative rfl]
        · simp only [KamekCommand.bytes, length_wordBytes, Bool.false_eq_true, if_false,
            List.length_cons, List.nil_append, hlength]
          omega

/-- Well-formed commands, one after the other from `position` on. -/
def Commands : ℕ → List KamekCommand → Prop
  | _, [] => True
  | position, c :: commands =>
      c.WellFormed ∧ c.streamOffset = position ∧ Commands (position + c.bytes.length) commands

def commandBytes (commands : List KamekCommand) : List UInt8 :=
  commands.flatMap KamekCommand.bytes

theorem commandBytes_cons (c : KamekCommand) (commands : List KamekCommand) :
    commandBytes (c :: commands) = c.bytes ++ commandBytes commands := rfl

/-- The loop over the commands ends exactly at the end of the chunk. -/
theorem readCommands_eq_some_iff (hfuel : stop < position + fuel) :
    readCommands data stop fuel position = some commands ↔
      Commands position commands ∧ Holds data position (commandBytes commands) ∧
        position + (commandBytes commands).length = stop := by
  induction fuel generalizing position commands with
  | zero =>
      rw [readCommands]
      refine ⟨nofun, ?_⟩
      rintro ⟨-, -, hend⟩
      omega
  | succ fuel ih =>
      rw [readCommands]
      by_cases hlt : position < stop
      · rw [if_pos hlt]
        simp only [Option.bind_eq_bind, Option.bind_eq_some_iff, Option.some.injEq, Prod.exists,
          readCommand_eq_some_iff]
        constructor
        · rintro ⟨c, next, ⟨hc, hoffset, hholds, rfl⟩, rest, hrest, rfl⟩
          have hfour := c.four_le_length_bytes
          obtain ⟨hcommands, hbytes, hend⟩ := (ih (by omega)).mp hrest
          refine ⟨⟨hc, hoffset, hcommands⟩, ?_, ?_⟩
          · rw [commandBytes_cons, holds_append]
            exact ⟨hholds, hbytes⟩
          · rw [commandBytes_cons, List.length_append]
            omega
        · rintro ⟨hcommands, hbytes, hend⟩
          cases commands with
          | nil =>
              rw [commandBytes, List.flatMap_nil, List.length_nil] at hend
              omega
          | cons c rest =>
              obtain ⟨hc, hoffset, hrest⟩ := hcommands
              have hfour := c.four_le_length_bytes
              rw [commandBytes_cons, holds_append] at hbytes
              rw [commandBytes_cons, List.length_append] at hend
              exact ⟨c, _, ⟨hc, hoffset, hbytes.1, rfl⟩, rest,
                (ih (by omega)).mpr ⟨hrest, hbytes.2, by omega⟩, rfl⟩
      · rw [if_neg hlt]
        simp only [Option.bind_eq_bind, Option.bind_eq_some_iff, Option.some.injEq, ensure,
          Option.ite_none_right_eq_some]
        constructor
        · rintro ⟨_, ⟨hstop, -⟩, rfl⟩
          exact ⟨trivial, holds_nil, hstop⟩
        · rintro ⟨hcommands, hbytes, hend⟩
          cases commands with
          | nil => exact ⟨(), ⟨hend, trivial⟩, rfl⟩
          | cons c rest =>
              have hfour := c.four_le_length_bytes
              rw [commandBytes_cons, List.length_append] at hend
              omega

end KamekChunk

/-! ## Chunks -/

namespace KamekChunk

/-- The words of a header that a chunk does not keep. -/
structure UnkeptWords where
  version : BitVec 32
  declaredChunkSize : BitVec 32
  reserved : BitVec 32

def headerWords (chunk : KamekChunk) (w : UnkeptWords) : List (BitVec 32) :=
  [magic0, w.version, chunk.bssSize, chunk.codeSize, chunk.ctorStart, chunk.ctorEnd,
    w.declaredChunkSize, w.reserved]

/-- A chunk as it stands in the file. -/
def bytes (chunk : KamekChunk) (w : UnkeptWords) : List UInt8 :=
  wordBytes (chunk.headerWords w) ++ (chunk.codeBlob ++ commandBytes chunk.commands)

/-- The conditions on a chunk: only the newer version gives the size in the header. -/
structure WellFormed (chunk : KamekChunk) (w : UnkeptWords) : Prop where
  version : isSupportedFormatVersion w.version
  declared : w.version = magic1 → w.declaredChunkSize = chunk.chunkSize
  code : chunk.codeBlob.length = chunk.codeSize.toNat
  size : (chunk.bytes w).length = chunk.chunkSize.toNat
  ctors : chunk.ctorStart ≤ chunk.codeSize ∧ chunk.ctorEnd ≤ chunk.codeSize ∧
    chunk.ctorStart ≤ chunk.ctorEnd ∧ (chunk.ctorEnd - chunk.ctorStart) % 4 = 0
  commands : Commands (chunk.fileOffset + headerSize + chunk.codeBlob.length) chunk.commands

section Chunk

variable {data : List UInt8} {offset expectedSize index : ℕ} {chunk : KamekChunk}
  {w : UnkeptWords}

theorem length_bytes : (chunk.bytes w).length =
    headerSize + chunk.codeBlob.length + (commandBytes chunk.commands).length := by
  rw [bytes, List.length_append, List.length_append, length_wordBytes]
  simp only [headerWords, List.length_cons, List.length_nil, headerSize]
  omega

theorem holds_bytes : Holds data offset (chunk.bytes w) ↔
    Holds data offset (wordBytes (chunk.headerWords w)) ∧
      Holds data (offset + headerSize) chunk.codeBlob ∧
      Holds data (offset + headerSize + chunk.codeBlob.length) (commandBytes chunk.commands) := by
  have hheader : (wordBytes (chunk.headerWords w)).length = headerSize := by
    rw [length_wordBytes]
    rfl
  rw [bytes, holds_append, holds_append, hheader]

theorem holds_headerWords : Holds data offset (wordBytes (chunk.headerWords w)) ↔
    readUInt32 data offset = some magic0 ∧
      readUInt32 data (offset + 4) = some w.version ∧
      readUInt32 data (offset + 8) = some chunk.bssSize ∧
      readUInt32 data (offset + 12) = some chunk.codeSize ∧
      readUInt32 data (offset + 16) = some chunk.ctorStart ∧
      readUInt32 data (offset + 20) = some chunk.ctorEnd ∧
      readUInt32 data (offset + 24) = some w.declaredChunkSize ∧
      readUInt32 data (offset + 28) = some w.reserved := by
  simp only [headerWords, wordBytes_cons, wordBytes_nil, holds_append, length_toBytes, holds_nil,
    and_true, Nat.add_assoc, Nat.reduceAdd, readUInt32_eq_some_iff_holds]

theorem readBytes_eq_some_iff {bytes : List UInt8} {count : ℕ} :
    readBytes data offset count = some bytes ↔
      offset + count ≤ data.length ∧ bytes.length = count ∧ Holds data offset bytes := by
  rw [readBytes, Option.ite_none_right_eq_some, Option.some.injEq]
  constructor
  · rintro ⟨hbound, rfl⟩
    refine ⟨hbound, length_window hbound, ?_⟩
    rw [Holds, length_window hbound]
  · rintro ⟨hbound, rfl, hholds⟩
    exact ⟨hbound, hholds⟩

def SizeGiven (data : List UInt8) (offset expectedSize : ℕ) (chunk : KamekChunk)
    (w : UnkeptWords) : Prop :=
  if expectedSize = 0 then
    w.version = magic1V2 → chunk.chunkSize.toNat = data.length - offset
  else chunk.chunkSize.toNat = expectedSize

theorem wellFormed_of_parse (hdata : data.length < 2 ^ 31)
    (h : parse data offset expectedSize index = some chunk) :
    chunk.index = index ∧ chunk.fileOffset = offset ∧
      ∃ w, chunk.WellFormed w ∧ Holds data offset (chunk.bytes w) ∧
        SizeGiven data offset expectedSize chunk w := by
  rw [parse] at h
  obtain ⟨_, _, h⟩ := Option.bind_eq_some_iff.mp h
  obtain ⟨word, hmagic, h⟩ := Option.bind_eq_some_iff.mp h
  obtain ⟨version, hversion, h⟩ := Option.bind_eq_some_iff.mp h
  obtain ⟨_, hsupported, h⟩ := Option.bind_eq_some_iff.mp h
  obtain ⟨bssSize, hbss, h⟩ := Option.bind_eq_some_iff.mp h
  obtain ⟨codeSize, hcode, h⟩ := Option.bind_eq_some_iff.mp h
  obtain ⟨ctorStart, hstart, h⟩ := Option.bind_eq_some_iff.mp h
  obtain ⟨ctorEnd, hend, h⟩ := Option.bind_eq_some_iff.mp h
  obtain ⟨declared, hdeclared, h⟩ := Option.bind_eq_some_iff.mp h
  obtain ⟨reserved, hreserved, h⟩ := Option.bind_eq_some_iff.mp h
  obtain ⟨_, _, h⟩ := Option.bind_eq_some_iff.mp h
  obtain ⟨_, hgiven, h⟩ := Option.bind_eq_some_iff.mp h
  obtain ⟨_, hinside, h⟩ := Option.bind_eq_some_iff.mp h
  obtain ⟨_, hctors, h⟩ := Option.bind_eq_some_iff.mp h
  obtain ⟨codeLength, hcodeLength, h⟩ := Option.bind_eq_some_iff.mp h
  obtain ⟨codeBlob, hblob, h⟩ := Option.bind_eq_some_iff.mp h
  obtain ⟨chunkLength, hchunkLength, h⟩ := Option.bind_eq_some_iff.mp h
  obtain ⟨commands, hcommands, h⟩ := Option.bind_eq_some_iff.mp h
  obtain rfl := Option.some.inj h
  obtain ⟨hword, hversionOk⟩ := ensure_eq_some.mp hsupported
  subst hword
  have hinside := ensure_eq_some.mp hinside
  have hctors := ensure_eq_some.mp hctors
  obtain ⟨hsmall, rfl⟩ := checkedInt_eq_some.mp hcodeLength
  obtain ⟨_, rfl⟩ := checkedInt_eq_some.mp hchunkLength
  obtain ⟨hbound, hlength, hblob⟩ := readBytes_eq_some_iff.mp hblob
  rw [← hlength] at hcommands
  obtain ⟨hwell, hholds, hstop⟩ := (readCommands_eq_some_iff (by omega)).mp hcommands
  refine ⟨rfl, rfl, ⟨version, declared, reserved⟩, ⟨hversionOk, ?_, hlength, ?_, hctors, hwell⟩,
    holds_bytes.mpr ⟨holds_headerWords.mpr ⟨hmagic, hversion, hbss, hcode, hstart, hend,
      hdeclared, hreserved⟩, hblob, hholds⟩, ?_⟩
  · rintro rfl
    rw [if_neg (by decide)]
  · rw [length_bytes]
    simp only
    omega
  · by_cases hzero : expectedSize = 0
    · rw [SizeGiven, if_pos hzero]
      rintro rfl
      simp only [if_true, hzero, ne_eq, not_true, if_false, BitVec.toNat_ofNat]
      omega
    · rw [SizeGiven, if_neg hzero]
      exact ensure_eq_some.mp hgiven hzero

theorem parse_of_wellFormed (hdata : data.length < 2 ^ 31) (hexpected : expectedSize < 2 ^ 31)
    (hwell : chunk.WellFormed w) (hholds : Holds data chunk.fileOffset (chunk.bytes w))
    (hgiven : SizeGiven data chunk.fileOffset expectedSize chunk w) :
    parse data chunk.fileOffset expectedSize chunk.index = some chunk := by
  obtain ⟨hversion, hdeclared, hcode, hsize, hctors, hcommands⟩ := hwell
  have hheader : headerSize ≤ (chunk.bytes w).length := by
    rw [length_bytes]
    omega
  have hbound := hholds.length_le fun hnil => by
    rw [hnil, List.length_nil] at hheader
    exact absurd hheader (by decide)
  have hlength := @length_bytes chunk w
  rw [holds_bytes, holds_headerWords] at hholds
  obtain ⟨⟨h0, h4, h8, h12, h16, h20, h24, h28⟩, hblob, hbytes⟩ := hholds
  have hchunkSize : (if w.version = magic1V2 then
      BitVec.ofNat 32 (if expectedSize ≠ 0 then expectedSize
        else data.length - chunk.fileOffset)
      else w.declaredChunkSize) = chunk.chunkSize := by
    split
    · rename_i hv2
      rw [SizeGiven] at hgiven
      apply BitVec.eq_of_toNat_eq
      rw [BitVec.toNat_ofNat]
      by_cases hzero : expectedSize = 0
      · rw [if_pos hzero] at hgiven
        rw [if_neg (not_not_intro hzero), hgiven hv2, Nat.mod_eq_of_lt (by omega)]
      · rw [if_neg hzero] at hgiven
        rw [if_pos hzero, hgiven, Nat.mod_eq_of_lt (by omega)]
    · rename_i hv2
      rw [isSupportedFormatVersion, Bool.or_eq_true, decide_eq_true_eq, decide_eq_true_eq]
        at hversion
      exact hdeclared (hversion.resolve_left hv2)
  have hcodeFits : BitVec.ofNat 32 headerSize + chunk.codeSize ≤ chunk.chunkSize := by
    rw [BitVec.le_def, BitVec.toNat_add, BitVec.toNat_ofNat]
    have : headerSize = 32 := rfl
    omega
  rw [parse]
  refine Option.bind_eq_some_iff.mpr ⟨(), ensure_eq_some.mpr (by omega), ?_⟩
  refine Option.bind_eq_some_iff.mpr ⟨_, h0, ?_⟩
  refine Option.bind_eq_some_iff.mpr ⟨_, h4, ?_⟩
  refine Option.bind_eq_some_iff.mpr ⟨(), ensure_eq_some.mpr ⟨rfl, hversion⟩, ?_⟩
  refine Option.bind_eq_some_iff.mpr ⟨_, h8, ?_⟩
  refine Option.bind_eq_some_iff.mpr ⟨_, h12, ?_⟩
  refine Option.bind_eq_some_iff.mpr ⟨_, h16, ?_⟩
  refine Option.bind_eq_some_iff.mpr ⟨_, h20, ?_⟩
  refine Option.bind_eq_some_iff.mpr ⟨_, h24, ?_⟩
  refine Option.bind_eq_some_iff.mpr ⟨_, h28, ?_⟩
  simp only [hchunkSize]
  refine Option.bind_eq_some_iff.mpr ⟨(), ensure_eq_some.mpr hcodeFits, ?_⟩
  refine Option.bind_eq_some_iff.mpr ⟨(), ensure_eq_some.mpr fun hnonzero => ?_, ?_⟩
  · rwa [SizeGiven, if_neg hnonzero] at hgiven
  refine Option.bind_eq_some_iff.mpr ⟨(), ensure_eq_some.mpr (by omega), ?_⟩
  refine Option.bind_eq_some_iff.mpr ⟨(), ensure_eq_some.mpr hctors, ?_⟩
  refine Option.bind_eq_some_iff.mpr ⟨_, checkedInt_eq_some.mpr ⟨by omega, hcode.symm⟩, ?_⟩
  refine Option.bind_eq_some_iff.mpr
    ⟨_, readBytes_eq_some_iff.mpr ⟨by omega, rfl, hblob⟩, ?_⟩
  refine Option.bind_eq_some_iff.mpr ⟨_, checkedInt_eq_some.mpr ⟨by omega, hsize.symm⟩, ?_⟩
  refine Option.bind_eq_some_iff.mpr
    ⟨_, (readCommands_eq_some_iff (by omega)).mpr ⟨hcommands, hbytes, by omega⟩, rfl⟩

theorem hasMagic_iff : hasMagic data offset ↔
    ∃ version, readUInt32 data offset = some magic0 ∧
      readUInt32 data (offset + 4) = some version ∧ isSupportedFormatVersion version := by
  rw [hasMagic, Bool.and_eq_true, Bool.and_eq_true, decide_eq_true_eq, decide_eq_true_eq,
    Option.any_eq_true]
  constructor
  · rintro ⟨⟨_, hmagic⟩, version, hversion, hsupported⟩
    exact ⟨version, hmagic, hversion, hsupported⟩
  · rintro ⟨version, hmagic, hversion, hsupported⟩
    have hbound := (read_eq_some_iff.mp (readUInt32_eq_some_iff.mp hversion)).1
    exact ⟨⟨by omega, hmagic⟩, version, hversion, hsupported⟩

theorem hasMagic_of_holds (hwell : chunk.WellFormed w)
    (hholds : Holds data offset (chunk.bytes w)) : hasMagic data offset := by
  rw [holds_bytes, holds_headerWords] at hholds
  obtain ⟨⟨hmagic, hversion, _⟩, _⟩ := hholds
  exact hasMagic_iff.mpr ⟨_, hmagic, hversion, hwell.version⟩

end Chunk

end KamekChunk

/-! ## Files -/

namespace KamekPulFile

open KamekChunk

abbrev Laid := List (KamekChunk × UnkeptWords)

def chunkBytes (laid : Laid) : List UInt8 :=
  laid.flatMap fun c => c.1.bytes c.2

/-- The chunks of a combined file, one for each size that is not zero, from `offset` on. -/
inductive Placed : ℕ → ℕ → List (BitVec 32) → Laid → Prop
  | nil {offset i : ℕ} : Placed offset i [] []
  | absent {offset i : ℕ} {sizes : List (BitVec 32)} {laid : Laid} :
      Placed offset (i + 1) sizes laid → Placed offset i (0 :: sizes) laid
  | chunk {chunk : KamekChunk} {w : UnkeptWords} {sizes : List (BitVec 32)} {laid : Laid} :
      chunk.WellFormed w →
      Placed (chunk.fileOffset + chunk.chunkSize.toNat) (chunk.index + 1) sizes laid →
      Placed chunk.fileOffset chunk.index (chunk.chunkSize :: sizes) ((chunk, w) :: laid)

inductive Lays : KamekPulFile → List UInt8 → Prop
  | raw {chunk : KamekChunk} {w : UnkeptWords} :
      chunk.WellFormed w → chunk.index = 0 → chunk.fileOffset = 0 →
      Lays ⟨false, [], [chunk]⟩ (chunk.bytes w)
  | combined {sizes : List (BitVec 32)} {laid : Laid} :
      sizes.length = 4 → laid ≠ [] → Placed 0x10 0 sizes laid →
      Lays ⟨true, sizes, laid.map Prod.fst⟩ (wordBytes sizes ++ chunkBytes laid)

section File

variable {data : List UInt8} {offset i : ℕ} {sizes : List (BitVec 32)} {laid : Laid}
  {chunks : List KamekChunk} {file : KamekPulFile}

theorem chunkSize_pos {chunk : KamekChunk} {w : UnkeptWords} (hwell : chunk.WellFormed w) :
    headerSize ≤ chunk.chunkSize.toNat := by
  rw [← hwell.size, length_bytes]
  omega

theorem Placed.length (h : Placed offset i sizes laid) :
    (chunkBytes laid).length = (sizes.map BitVec.toNat).sum := by
  induction h with
  | nil => rfl
  | absent _ ih =>
      rw [ih, List.map_cons, List.sum_cons]
      simp
  | chunk hwell _ ih =>
      rw [chunkBytes, List.flatMap_cons, List.length_append, hwell.size, List.map_cons,
        List.sum_cons, ← ih]
      rfl

theorem Placed.sizes_eq_zero (h : Placed offset i sizes laid) :
    (∀ size ∈ sizes, size = 0) ↔ laid = [] := by
  induction h with
  | nil => simp
  | absent _ ih => simpa using ih
  | @chunk chunk w _ _ hwell _ _ =>
      have hpos := chunkSize_pos hwell
      have hne : chunk.chunkSize ≠ 0 := by
        intro hzero
        rw [hzero] at hpos
        exact absurd hpos (by decide)
      exact ⟨fun hall => absurd (hall _ List.mem_cons_self) hne,
        fun hnil => absurd hnil (List.cons_ne_nil _ _)⟩

theorem placed_of_parseChunks (hdata : data.length < 2 ^ 31)
    (h : parseChunks data offset i sizes = some (some chunks)) :
    ∃ laid, Placed offset i sizes laid ∧ laid.map Prod.fst = chunks ∧
      Holds data offset (chunkBytes laid) := by
  induction sizes generalizing offset i chunks with
  | nil =>
      obtain rfl := Option.some.inj (Option.some.inj h)
      exact ⟨[], .nil, rfl, holds_nil⟩
  | cons size sizes ih =>
      rw [parseChunks] at h
      by_cases hzero : size = 0
      · rw [if_pos hzero] at h
        obtain ⟨laid, hplaced, hmap, hholds⟩ := ih h
        rw [hzero]
        exact ⟨laid, .absent hplaced, hmap, hholds⟩
      · rw [if_neg hzero] at h
        split at h
        · exact absurd (Option.some.inj h).symm (Option.some_ne_none _)
        · simp only [Option.bind_eq_bind, Option.bind_eq_some_iff, Option.some.injEq,
            Option.map_eq_some_iff] at h
          obtain ⟨chunkLength, hlength, chunk, hparse, _, hrest, rest, rfl, rfl⟩ := h
          obtain ⟨hsmall, rfl⟩ := checkedInt_eq_some.mp hlength
          obtain ⟨rfl, rfl, w, hwell, hholds, hgiven⟩ :=
            wellFormed_of_parse hdata hparse
          have hnonzero : size.toNat ≠ 0 := fun h0 => hzero (BitVec.eq_of_toNat_eq h0)
          rw [SizeGiven, if_neg hnonzero] at hgiven
          obtain rfl := BitVec.eq_of_toNat_eq hgiven
          obtain ⟨laid, hplaced, hmap, hothers⟩ := ih hrest
          refine ⟨(chunk, w) :: laid, .chunk hwell hplaced, by rw [List.map_cons, hmap], ?_⟩
          rw [chunkBytes, List.flatMap_cons, holds_append, hwell.size]
          exact ⟨hholds, hothers⟩

theorem parseChunks_of_placed (hdata : data.length < 2 ^ 31)
    (h : Placed offset i sizes laid) (hholds : Holds data offset (chunkBytes laid)) :
    parseChunks data offset i sizes = some (some (laid.map Prod.fst)) := by
  induction h with
  | nil => rfl
  | absent _ ih =>
      rw [parseChunks, if_pos rfl]
      exact ih hholds
  | @chunk chunk w sizes laid hwell _ ih =>
      have hpos := chunkSize_pos hwell
      have hlength : headerSize = 32 := rfl
      rw [chunkBytes, List.flatMap_cons, holds_append, hwell.size] at hholds
      obtain ⟨hchunk, hothers⟩ := hholds
      have hbound := hchunk.length_le fun hnil => by
        have hsize := hwell.size
        rw [hnil, List.length_nil] at hsize
        omega
      rw [hwell.size] at hbound
      have hnonzero : ¬ chunk.chunkSize = 0 := by
        intro hzero
        rw [hzero] at hpos
        exact absurd hpos (by decide)
      rw [parseChunks, if_neg hnonzero, if_neg]
      · refine Option.bind_eq_some_iff.mpr
          ⟨_, checkedInt_eq_some.mpr ⟨by omega, rfl⟩, ?_⟩
        have hgiven : SizeGiven data chunk.fileOffset chunk.chunkSize.toNat chunk w := by
          rw [SizeGiven, if_neg (by omega)]
        refine Option.bind_eq_some_iff.mpr
          ⟨_, parse_of_wellFormed hdata (by omega) hwell hchunk hgiven, ?_⟩
        exact Option.bind_eq_some_iff.mpr ⟨_, ih hothers, rfl⟩
      · have hmagic := hasMagic_of_holds hwell hchunk
        rintro (hsmall | hlong | hother)
        · omega
        · omega
        · exact hother hmagic

theorem combinedSizes_eq_some_iff : combinedSizes data = some sizes ↔
    0x10 + headerSize ≤ data.length ∧ sizes.length = 4 ∧ Holds data 0 (wordBytes sizes) ∧
      ¬ (∀ size ∈ sizes, size = 0) ∧ 0x10 + (sizes.map BitVec.toNat).sum = data.length := by
  rw [combinedSizes]
  by_cases hshort : data.length < 0x10 + headerSize
  · rw [if_pos hshort]
    exact ⟨nofun, fun h => absurd h.1 (by omega)⟩
  · rw [if_neg hshort, Option.bind_eq_some_iff]
    simp only [readWords_eq_some_iff, Option.ite_none_left_eq_some, Option.some.injEq,
      List.all_eq_true, decide_eq_true_eq, not_or, not_not]
    constructor
    · rintro ⟨sizes, ⟨hlength, hholds⟩, ⟨hzero, hsum⟩, rfl⟩
      exact ⟨by omega, hlength, hholds, hzero, hsum⟩
    · rintro ⟨_, hlength, hholds, hzero, hsum⟩
      exact ⟨sizes, ⟨hlength, hholds⟩, ⟨hzero, hsum⟩, rfl⟩

/-- Read as sizes, the words that begin a chunk are more than an array can have bytes. -/
theorem combinedSizes_of_hasMagic (hdata : data.length < 2 ^ 31) (hmagic : hasMagic data 0) :
    combinedSizes data = none := by
  obtain ⟨version, hfirst, hsecond, hsupported⟩ := hasMagic_iff.mp hmagic
  rw [Option.eq_none_iff_forall_ne_some]
  intro sizes hsizes
  obtain ⟨_, hlength, hholds, _, hsum⟩ := combinedSizes_eq_some_iff.mp hsizes
  obtain ⟨a, b, c, d, rfl⟩ := List.length_eq_four.mp hlength
  simp only [wordBytes_cons, holds_append, length_toBytes, ← readUInt32_eq_some_iff_holds,
    Nat.zero_add] at hholds
  obtain rfl := Option.some.inj (hfirst.symm.trans hholds.1)
  obtain rfl := Option.some.inj (hsecond.symm.trans hholds.2.1)
  have hversion : 0x6B000002 ≤ version.toNat := by
    rw [isSupportedFormatVersion, Bool.or_eq_true, decide_eq_true_eq, decide_eq_true_eq]
      at hsupported
    rcases hsupported with rfl | rfl <;> decide
  have hword : magic0.toNat = 0x4B616D65 := rfl
  simp only [List.map_cons, List.sum_cons] at hsum
  omega

theorem parseRaw_eq_some_iff (hdata : data.length < 2 ^ 31) : parseRaw data = some file ↔
    ∃ chunk w, chunk.WellFormed w ∧ chunk.index = 0 ∧ chunk.fileOffset = 0 ∧
      file = ⟨false, [], [chunk]⟩ ∧ data = chunk.bytes w := by
  simp only [parseRaw, Option.bind_eq_bind, Option.bind_eq_some_iff, ensure_eq_some,
    Option.some.injEq]
  constructor
  · rintro ⟨_, _, chunk, hparse, _, hsize, rfl⟩
    obtain ⟨hindex, hoffset, w, hwell, hholds, -⟩ := wellFormed_of_parse hdata hparse
    exact ⟨chunk, w, hwell, hindex, hoffset, rfl,
      eq_of_holds hholds (by rw [hwell.size, hsize])⟩
  · rintro ⟨chunk, w, hwell, hindex, hoffset, rfl, rfl⟩
    have hgiven : SizeGiven (chunk.bytes w) chunk.fileOffset 0 chunk w := by
      rw [SizeGiven, if_pos rfl, hoffset, hwell.size]
      exact fun _ => rfl
    have hparse := parse_of_wellFormed hdata (by decide) hwell (by rw [hoffset]; exact holds_self)
      hgiven
    rw [hoffset, hindex] at hparse
    exact ⟨(), hasMagic_of_holds hwell holds_self, chunk, hparse, (), hwell.size.symm, rfl⟩

theorem tryParseCombined_eq_some_iff (hdata : data.length < 2 ^ 31) :
    tryParseCombined data = some (some file) ↔
      ∃ sizes laid, sizes.length = 4 ∧ laid ≠ [] ∧ Placed 0x10 0 sizes laid ∧
        file = ⟨true, sizes, laid.map Prod.fst⟩ ∧ data = wordBytes sizes ++ chunkBytes laid := by
  constructor
  · intro h
    rw [tryParseCombined] at h
    split at h
    · exact absurd (Option.some.inj h).symm (Option.some_ne_none _)
    · rename_i sizes hsizes
      obtain ⟨_, hlength, hholds, hnonzero, hsum⟩ := combinedSizes_eq_some_iff.mp hsizes
      obtain ⟨parsed, hchunks, hmap⟩ := Option.map_eq_some_iff.mp h
      obtain ⟨chunks, rfl, rfl⟩ := Option.map_eq_some_iff.mp hmap
      obtain ⟨laid, hplaced, rfl, hbytes⟩ := placed_of_parseChunks hdata hchunks
      refine ⟨sizes, laid, hlength, fun hnil => hnonzero (hplaced.sizes_eq_zero.mpr hnil),
        hplaced, rfl, ?_⟩
      apply eq_of_holds
      · rw [holds_append, length_wordBytes, hlength]
        exact ⟨hholds, hbytes⟩
      · rw [List.length_append, length_wordBytes, hlength, hplaced.length]
        omega
  · rintro ⟨sizes, laid, hlength, hne, hplaced, rfl, rfl⟩
    have hself := @holds_self (wordBytes sizes ++ chunkBytes laid)
    rw [holds_append, length_wordBytes, hlength] at hself
    have htotal : (wordBytes sizes ++ chunkBytes laid).length =
        0x10 + (sizes.map BitVec.toNat).sum := by
      rw [List.length_append, length_wordBytes, hlength, hplaced.length]
    have hlong : headerSize ≤ (chunkBytes laid).length := by
      cases laid with
      | nil => exact absurd rfl hne
      | cons c laid =>
          rw [chunkBytes, List.flatMap_cons, List.length_append, length_bytes]
          omega
    have hsizes : combinedSizes (wordBytes sizes ++ chunkBytes laid) = some sizes :=
      combinedSizes_eq_some_iff.mpr ⟨by rw [htotal, ← hplaced.length]; omega, hlength,
        hself.1, fun hzero => hne (hplaced.sizes_eq_zero.mp hzero), htotal.symm⟩
    rw [tryParseCombined, hsizes]
    simp only [parseChunks_of_placed hdata hplaced hself.2, Option.map_some]

end File

theorem headerSize_le_of_lays {file : KamekPulFile} {data : List UInt8} (h : Lays file data) :
    headerSize ≤ data.length := by
  cases h with
  | raw hwell =>
      rw [length_bytes]
      omega
  | @combined sizes laid _ hne _ =>
      cases laid with
      | nil => exact absurd rfl hne
      | cons c laid =>
          rw [chunkBytes, List.flatMap_cons, List.length_append, List.length_append, length_bytes]
          omega

theorem parse_iff_cases {data : Data} {file : KamekPulFile} : parse data = some file ↔
    headerSize ≤ data.bytes.length ∧
      (tryParseCombined data.bytes = some (some file) ∨
        tryParseCombined data.bytes = some none ∧ parseRaw data.bytes = some file) := by
  simp only [parse, Option.bind_eq_bind, Option.bind_eq_some_iff, ensure_eq_some]
  constructor
  · rintro ⟨_, hheader, combined, hcombined, h⟩
    refine ⟨hheader, ?_⟩
    cases combined with
    | none => exact .inr ⟨hcombined, h⟩
    | some combined => exact .inl (hcombined.trans (congrArg some h))
  · rintro ⟨hheader, hcombined | ⟨hcombined, hraw⟩⟩
    · exact ⟨(), hheader, _, hcombined, rfl⟩
    · exact ⟨(), hheader, _, hcombined, hraw⟩

/-- A file that begins as a chunk is not taken for a combined one. -/
theorem tryParseCombined_of_hasMagic {data : List UInt8} (hdata : data.length < 2 ^ 31)
    (hmagic : hasMagic data 0) : tryParseCombined data = some none := by
  rw [tryParseCombined, combinedSizes_of_hasMagic hdata hmagic]

/-- A file is parsed to a result exactly when the result, with some words for its headers,
lays it out; and no file that begins as a chunk is read as a combined one. -/
theorem parse_eq_some_iff (data : Data) :
    (∀ file, parse data = some file ↔ Lays file data.bytes) ∧
      ¬ (hasMagic data.bytes 0 ∧ ∃ file, parse data = some file ∧ file.isCombined = true) := by
  have hdata : data.bytes.length < 2 ^ 31 := lt_of_le_of_lt data.length_le (by decide)
  constructor
  · intro file
    rw [parse_iff_cases, tryParseCombined_eq_some_iff hdata, parseRaw_eq_some_iff hdata]
    constructor
    · rintro ⟨_, ⟨sizes, laid, hlength, hne, hplaced, rfl, hbytes⟩ |
        ⟨_, chunk, w, hwell, hindex, hoffset, rfl, hbytes⟩⟩
      · rw [hbytes]
        exact .combined hlength hne hplaced
      · rw [hbytes]
        exact .raw hwell hindex hoffset
    · intro hlays
      refine ⟨headerSize_le_of_lays hlays, ?_⟩
      obtain ⟨bytes, _⟩ := data
      cases hlays with
      | combined hlength hne hplaced =>
          exact .inl ⟨_, _, hlength, hne, hplaced, rfl, rfl⟩
      | raw hwell hindex hoffset =>
          have hmagic := hasMagic_of_holds hwell holds_self
          exact .inr ⟨tryParseCombined_of_hasMagic hdata hmagic, _, _, hwell, hindex, hoffset,
            rfl, rfl⟩
  · rintro ⟨hmagic, file, h, hfile⟩
    rcases parse_iff_cases.mp h with ⟨_, hcombined | ⟨_, hraw⟩⟩
    · rw [tryParseCombined_of_hasMagic hdata hmagic] at hcombined
      exact absurd (Option.some.inj hcombined).symm (Option.some_ne_none _)
    · obtain ⟨_, _, _, _, _, rfl, _⟩ := (parseRaw_eq_some_iff hdata).mp hraw
      exact absurd hfile Bool.false_ne_true

/-! ## The words that are not kept -/

/-- The smallest chunk, with the given reserved word. -/
def emptyChunk (reserved : ℕ) : Data where
  bytes := toBytes 4 0x4B616D65 ++ toBytes 4 0x6B000003 ++ List.replicate 16 0 ++
    toBytes 4 0x20 ++ toBytes 4 reserved
  length_le := by
    simp only [List.length_append, length_toBytes, List.length_replicate, maxArrayLength]
    decide

/-- Files that differ in the reserved word are parsed to the same chunk, so nothing lays out
a file from its chunks alone. -/
theorem not_parse_lays_alone :
    ¬ ∃ layout : KamekPulFile → List UInt8,
      ∀ data file, parse data = some file → layout file = data.bytes := by
  rintro ⟨layout, hlayout⟩
  have hzero : parse (emptyChunk 0) =
      some ⟨false, [], [⟨0, 0, 0, 0, 0, 0, 0x20, [], []⟩]⟩ := by decide +kernel
  have hone : parse (emptyChunk 1) =
      some ⟨false, [], [⟨0, 0, 0, 0, 0, 0, 0x20, [], []⟩]⟩ := by decide +kernel
  have hsame := (hlayout _ _ hzero).symm.trans (hlayout _ _ hone)
  exact absurd hsame (by decide +kernel)

end KamekPulFile
end Wiicompiled.Parsing
