import Mathlib.Algebra.Ring.Nat
import Mathlib.Data.List.Basic

/-!
# ICE signals

A description and its candidates as lines of text.  The fields are arbitrary bytes, so that they
are written in base64; a candidate's line has its two fields with a blank between them.  A thrown
exception is its text.
-/

namespace Wiicompiled.Voice.IceSignal

/-- The bytes of a literal of the source. -/
def ascii (text : String) : List UInt8 :=
  text.toList.map fun ch => UInt8.ofNat ch.toNat

structure IceDescriptionSignal where
  sdp : List UInt8
  type : List UInt8
deriving DecidableEq, Repr

structure IceCandidateSignal where
  candidate : List UInt8
  mid : List UInt8
deriving DecidableEq, Repr

structure IceSignalBundle where
  description : IceDescriptionSignal
  candidates : List IceCandidateSignal
deriving DecidableEq, Repr

/-! ## Base64 -/

def Alphabet : List UInt8 :=
  ascii "ABCDEFGHIJKLMNOPQRSTUVWXYZabcdefghijklmnopqrstuvwxyz0123456789+/"

/-- The byte of `=`. -/
def padding : UInt8 := 61

/-- The letter of six bits. -/
def letter (sextet : ℕ) : UInt8 :=
  Alphabet.getD sextet 0

/-- The four letters of the next `count` bytes. -/
def encodeGroup (count : ℕ) (a b c : UInt8) : List UInt8 :=
  let value := a.toNat <<< 16 ||| b.toNat <<< 8 ||| c.toNat
  [letter ((value >>> 18) &&& 63), letter ((value >>> 12) &&& 63),
    if 1 < count then letter ((value >>> 6) &&& 63) else padding,
    if 2 < count then letter (value &&& 63) else padding]

def base64Encode : List UInt8 → List UInt8
  | [] => []
  | [a] => encodeGroup 1 a 0 0
  | [a, b] => encodeGroup 2 a b 0
  | a :: b :: c :: input => encodeGroup 3 a b c ++ base64Encode input

/-- The place of a letter in the alphabet. -/
def base64Value (ch : UInt8) : Option ℕ :=
  Alphabet.idxOf? ch

/-- The place of a letter, and zero for the padding. -/
def paddedValue (ch : UInt8) : Option ℕ :=
  if ch = padding then some 0 else base64Value ch

/-- The bytes of four letters. -/
def decodeGroup (a b c d : UInt8) : Except String (List UInt8) :=
  match base64Value a, base64Value b, paddedValue c, paddedValue d with
  | some va, some vb, some vc, some vd =>
      let value := va <<< 18 ||| vb <<< 12 ||| vc <<< 6 ||| vd
      .ok (UInt8.ofNat ((value >>> 16) &&& 0xFF) ::
        ((if c ≠ padding then [UInt8.ofNat ((value >>> 8) &&& 0xFF)] else []) ++
          if d ≠ padding then [UInt8.ofNat (value &&& 0xFF)] else []))
  | _, _, _, _ => .error "Invalid ICE signal encoding"

def decodeGroups : List UInt8 → Except String (List UInt8)
  | a :: b :: c :: d :: input => do
      let head ← decodeGroup a b c d
      let rest ← decodeGroups input
      pure (head ++ rest)
  | _ => pure []

def base64Decode (input : List UInt8) : Except String (List UInt8) :=
  if input.length % 4 ≠ 0 then .error "Invalid ICE signal encoding" else decodeGroups input

/-! ## Lines -/

def newline : UInt8 := 10

def blank : UInt8 := 32

def splitAtFirst (delimiter : UInt8) (text : List UInt8) : Option (List UInt8 × List UInt8) :=
  (text.idxOf? delimiter).map fun place => (text.take place, text.drop (place + 1))

def takeLine (text : List UInt8) : List UInt8 × List UInt8 :=
  (splitAtFirst newline text).getD (text, [])

def afterKeyword (keyword : String) (line : List UInt8) : Option (List UInt8) :=
  if (ascii keyword).isPrefixOf line then some (line.drop (ascii keyword).length) else none

def encodeCandidate (candidate : IceCandidateSignal) : List UInt8 :=
  ascii "CAND " ++ base64Encode candidate.mid ++ [blank] ++ base64Encode candidate.candidate ++
    [newline]

def encodeIceSignal (bundle : IceSignalBundle) : Except String (List UInt8) :=
  if bundle.description.sdp = [] ∨ bundle.description.type = [] then
    .error "ICE signal has no description"
  else
    .ok (ascii "MKWVC-ICE-1" ++ [newline] ++
      (ascii "TYPE " ++ bundle.description.type ++ [newline]) ++
      (ascii "SDP " ++ base64Encode bundle.description.sdp ++ [newline]) ++
      bundle.candidates.flatMap encodeCandidate)

/-- What a line that is not empty says. -/
def decodeLine (bundle : IceSignalBundle) (line : List UInt8) : Except String IceSignalBundle :=
  match afterKeyword "TYPE " line with
  | some type => .ok { bundle with description := { bundle.description with type := type } }
  | none =>
    match afterKeyword "SDP " line with
    | some payload => do
        let sdp ← base64Decode payload
        pure { bundle with description := { bundle.description with sdp := sdp } }
    | none =>
      match afterKeyword "CAND " line with
      | some payload =>
        match splitAtFirst blank payload with
        | some (mid, candidate) => do
            let candidate ← base64Decode candidate
            let mid ← base64Decode mid
            pure { bundle with candidates := bundle.candidates ++ [⟨candidate, mid⟩] }
        | none => .error "Invalid ICE candidate signal"
      | none => .ok bundle

theorem takeLine_length_lt {text : List UInt8} (h : text ≠ []) :
    (takeLine text).2.length < text.length := by
  have hpos : 0 < text.length := List.length_pos_iff.mpr h
  rw [takeLine, splitAtFirst]
  rcases text.idxOf? newline with _ | place
  · exact hpos
  · rw [Option.map_some, Option.getD_some, List.length_drop]
    omega

def decodeLines (text : List UInt8) (bundle : IceSignalBundle) : Except String IceSignalBundle :=
  if h : text = [] then pure bundle
  else
    have := takeLine_length_lt h
    let line := (takeLine text).1
    if line = [] then decodeLines (takeLine text).2 bundle
    else do
      let bundle ← decodeLine bundle line
      decodeLines (takeLine text).2 bundle
termination_by text.length

def decodeIceSignal (text : List UInt8) : Except String IceSignalBundle :=
  if (takeLine text).1 ≠ ascii "MKWVC-ICE-1" then .error "Not an MKW VoiceChat ICE signal"
  else do
    let bundle ← decodeLines (takeLine text).2 ⟨⟨[], []⟩, []⟩
    if bundle.description.type ≠ ascii "offer" ∧ bundle.description.type ≠ ascii "answer" then
      throw "ICE signal has invalid description type"
    else if bundle.description.sdp = [] then throw "ICE signal has no SDP"
    else pure bundle

end Wiicompiled.Voice.IceSignal
