import Wiicompiled.Voice.IceSignal

/-!
# ICE signals come back

Base64 is undone group by group, and no encoded field has a delimiter in it.  So the lines of a
signal are read as they were written, and the candidates come back in order.
-/

namespace Wiicompiled.Voice.IceSignal

/-! ## Groups -/

theorem base64Value_letter : ∀ sextet < 64, base64Value (letter sextet) = some sextet := by
  decide +kernel

theorem letter_ne : ∀ sextet < 64,
    letter sextet ≠ padding ∧ letter sextet ≠ newline ∧ letter sextet ≠ blank := by
  decide +kernel

theorem paddedValue_letter {sextet : ℕ} (h : sextet < 64) :
    paddedValue (letter sextet) = some sextet := by
  rw [paddedValue, if_neg (letter_ne sextet h).1, base64Value_letter sextet h]

theorem paddedValue_padding : paddedValue padding = some 0 :=
  if_pos rfl

theorem or_shifts {x y z : ℕ} (hy : y < 2 ^ 8) (hz : z < 2 ^ 8) :
    x <<< 16 ||| y <<< 8 ||| z = x * 65536 + y * 256 + z := by
  have hxy : x <<< 8 ||| y = x * 256 + y := by
    rw [← Nat.shiftLeft_add_eq_or_of_lt hy, Nat.shiftLeft_eq]
  have hshift : x <<< 16 ||| y <<< 8 = (x <<< 8 ||| y) <<< 8 := by
    rw [Nat.shiftLeft_or_distrib, ← Nat.shiftLeft_add]
  rw [hshift, hxy, ← Nat.shiftLeft_add_eq_or_of_lt hz, Nat.shiftLeft_eq]
  omega

theorem or_sextets {x y z w : ℕ} (hy : y < 2 ^ 6) (hz : z < 2 ^ 6) (hw : w < 2 ^ 6) :
    x <<< 18 ||| y <<< 12 ||| z <<< 6 ||| w = x * 262144 + y * 4096 + z * 64 + w := by
  have hxy : x <<< 6 ||| y = x * 64 + y := by
    rw [← Nat.shiftLeft_add_eq_or_of_lt hy, Nat.shiftLeft_eq]
  have hxyz : (x * 64 + y) <<< 6 ||| z = (x * 64 + y) * 64 + z := by
    rw [← Nat.shiftLeft_add_eq_or_of_lt hz, Nat.shiftLeft_eq]
  have hshift : x <<< 18 ||| y <<< 12 ||| z <<< 6 = ((x <<< 6 ||| y) <<< 6 ||| z) <<< 6 := by
    rw [Nat.shiftLeft_or_distrib, Nat.shiftLeft_or_distrib, Nat.shiftLeft_or_distrib,
      ← Nat.shiftLeft_add, ← Nat.shiftLeft_add, ← Nat.shiftLeft_add]
  rw [hshift, hxy, hxyz, ← Nat.shiftLeft_add_eq_or_of_lt hw, Nat.shiftLeft_eq]
  omega

theorem and_63 (value : ℕ) : value &&& 63 = value % 64 :=
  Nat.and_two_pow_sub_one_eq_mod value 6

theorem and_255 (value : ℕ) : value &&& 0xFF = value % 256 :=
  Nat.and_two_pow_sub_one_eq_mod value 8

section Groups

variable {a b c d : UInt8} {va vb vc vd : ℕ}

theorem decodeGroup_of_values (ha : base64Value a = some va) (hb : base64Value b = some vb)
    (hc : paddedValue c = some vc) (hd : paddedValue d = some vd) (hvb : vb < 64) (hvc : vc < 64)
    (hvd : vd < 64) {value : ℕ} (hvalue : va * 262144 + vb * 4096 + vc * 64 + vd = value) :
    decodeGroup a b c d = .ok (UInt8.ofNat (value / 65536 % 256) ::
      ((if c ≠ padding then [UInt8.ofNat (value / 256 % 256)] else []) ++
        if d ≠ padding then [UInt8.ofNat (value % 256)] else [])) := by
  simp only [decodeGroup, ha, hb, hc, hd, or_sextets hvb hvc hvd, hvalue, and_255,
    Nat.shiftRight_eq_div_pow, Nat.reducePow]

theorem encodeGroup_eq (count : ℕ) (a b c : UInt8) {value : ℕ}
    (hvalue : a.toNat * 65536 + b.toNat * 256 + c.toNat = value) :
    encodeGroup count a b c =
      [letter (value / 262144 % 64), letter (value / 4096 % 64),
        if 1 < count then letter (value / 64 % 64) else padding,
        if 2 < count then letter (value % 64) else padding] := by
  simp only [encodeGroup, or_shifts b.toNat_lt c.toNat_lt, hvalue, and_63,
    Nat.shiftRight_eq_div_pow, Nat.reducePow]

theorem ofNat_byte {value : ℕ} (h : value = a.toNat) : UInt8.ofNat value = a := by
  rw [h, UInt8.ofNat_toNat]

theorem decodeGroup_three (h : va * 262144 + vb * 4096 + vc * 64 + vd =
      a.toNat * 65536 + b.toNat * 256 + c.toNat)
    (hva : va < 64) (hvb : vb < 64) (hvc : vc < 64) (hvd : vd < 64) :
    decodeGroup (letter va) (letter vb) (letter vc) (letter vd) = .ok [a, b, c] := by
  have ha := a.toNat_lt
  have hb := b.toNat_lt
  have hc := c.toNat_lt
  obtain ⟨value, hvalue⟩ : ∃ value, a.toNat * 65536 + b.toNat * 256 + c.toNat = value := ⟨_, rfl⟩
  have hfirst : UInt8.ofNat (value / 65536 % 256) = a := ofNat_byte (by omega)
  have hsecond : UInt8.ofNat (value / 256 % 256) = b := ofNat_byte (by omega)
  have hthird : UInt8.ofNat (value % 256) = c := ofNat_byte (by omega)
  rw [decodeGroup_of_values (base64Value_letter va hva) (base64Value_letter vb hvb)
    (paddedValue_letter hvc) (paddedValue_letter hvd) hvb hvc hvd (h.trans hvalue),
    if_pos (letter_ne vc hvc).1, if_pos (letter_ne vd hvd).1, hfirst, hsecond, hthird]
  rfl

theorem decodeGroup_two (h : va * 262144 + vb * 4096 + vc * 64 = a.toNat * 65536 + b.toNat * 256)
    (hva : va < 64) (hvb : vb < 64) (hvc : vc < 64) :
    decodeGroup (letter va) (letter vb) (letter vc) padding = .ok [a, b] := by
  have ha := a.toNat_lt
  have hb := b.toNat_lt
  obtain ⟨value, hvalue⟩ : ∃ value, a.toNat * 65536 + b.toNat * 256 = value := ⟨_, rfl⟩
  have hfirst : UInt8.ofNat (value / 65536 % 256) = a := ofNat_byte (by omega)
  have hsecond : UInt8.ofNat (value / 256 % 256) = b := ofNat_byte (by omega)
  rw [decodeGroup_of_values (base64Value_letter va hva) (base64Value_letter vb hvb)
    (paddedValue_letter hvc) paddedValue_padding hvb hvc (by omega)
    (show va * 262144 + vb * 4096 + vc * 64 + 0 = value by rw [Nat.add_zero, h, hvalue]),
    if_pos (letter_ne vc hvc).1, if_neg (fun hne => hne rfl), hfirst, hsecond]
  rfl

theorem decodeGroup_one (h : va * 262144 + vb * 4096 = a.toNat * 65536)
    (hva : va < 64) (hvb : vb < 64) :
    decodeGroup (letter va) (letter vb) padding padding = .ok [a] := by
  have ha := a.toNat_lt
  obtain ⟨value, hvalue⟩ : ∃ value, a.toNat * 65536 = value := ⟨_, rfl⟩
  have hfirst : UInt8.ofNat (value / 65536 % 256) = a := ofNat_byte (by omega)
  rw [decodeGroup_of_values (base64Value_letter va hva) (base64Value_letter vb hvb)
    paddedValue_padding paddedValue_padding hvb (by omega) (by omega)
    (show va * 262144 + vb * 4096 + 0 * 64 + 0 = value by
      rw [Nat.zero_mul, Nat.add_zero, h, hvalue]),
    if_neg (fun hne => hne rfl), hfirst]
  rfl

theorem decodeGroups_cons {head input : List UInt8} (h : decodeGroup a b c d = .ok head) :
    decodeGroups (a :: b :: c :: d :: input) = (decodeGroups input).map (head ++ ·) := by
  rw [decodeGroups, h]
  rcases decodeGroups input with error | rest <;> rfl

theorem decodeGroups_base64Encode (input : List UInt8) :
    decodeGroups (base64Encode input) = .ok input := by
  induction input using base64Encode.induct with
  | case1 => rfl
  | case2 a =>
      have ha := a.toNat_lt
      rw [base64Encode, encodeGroup_eq 1 a 0 0 rfl, if_neg (by omega), if_neg (by omega),
        decodeGroups_cons (decodeGroup_one (a := a) ?_ (by omega) (by omega))]
      · rfl
      · rw [show (0 : UInt8).toNat = 0 from rfl]
        omega
  | case3 a b =>
      have ha := a.toNat_lt
      have hb := b.toNat_lt
      rw [base64Encode, encodeGroup_eq 2 a b 0 rfl, if_pos (by omega), if_neg (by omega),
        decodeGroups_cons (decodeGroup_two (a := a) (b := b) ?_ (by omega) (by omega) (by omega))]
      · rfl
      · rw [show (0 : UInt8).toNat = 0 from rfl]
        omega
  | case4 a b c input ih =>
      have ha := a.toNat_lt
      have hb := b.toNat_lt
      have hc := c.toNat_lt
      rw [base64Encode, encodeGroup_eq 3 a b c rfl, if_pos (by omega), if_pos (by omega)]
      refine (decodeGroups_cons (decodeGroup_three (a := a) (b := b) (c := c) ?_ (by omega)
        (by omega) (by omega) (by omega))).trans ?_
      · omega
      · exact congrArg (Except.map ([a, b, c] ++ ·)) ih

theorem length_base64Encode (input : List UInt8) : (base64Encode input).length % 4 = 0 := by
  induction input using base64Encode.induct with
  | case1 => rfl
  | case2 a => rw [base64Encode, show (encodeGroup 1 a 0 0).length = 4 from rfl]
  | case3 a b => rw [base64Encode, show (encodeGroup 2 a b 0).length = 4 from rfl]
  | case4 a b c input ih =>
      rw [base64Encode, List.length_append, show (encodeGroup 3 a b c).length = 4 from rfl]
      omega

theorem base64Decode_base64Encode (input : List UInt8) :
    base64Decode (base64Encode input) = .ok input := by
  rw [base64Decode, if_neg (not_not.mpr (length_base64Encode input)), decodeGroups_base64Encode]

theorem mem_encodeGroup {count : ℕ} (h : d ∈ encodeGroup count a b c) :
    d ≠ newline ∧ d ≠ blank := by
  have hletter : ∀ value, letter (value % 64) ≠ newline ∧ letter (value % 64) ≠ blank := fun value =>
    (letter_ne (value % 64) (Nat.mod_lt _ (by omega))).2
  have hpadding : padding ≠ newline ∧ padding ≠ blank := by decide
  rw [encodeGroup_eq count a b c rfl] at h
  simp only [List.mem_cons, List.not_mem_nil, or_false] at h
  rcases h with rfl | rfl | rfl | rfl
  · exact hletter _
  · exact hletter _
  · split_ifs
    · exact hletter _
    · exact hpadding
  · split_ifs
    · exact hletter _
    · exact hpadding

theorem mem_base64Encode {input : List UInt8} (h : d ∈ base64Encode input) :
    d ≠ newline ∧ d ≠ blank := by
  induction input using base64Encode.induct with
  | case1 => exact absurd h List.not_mem_nil
  | case2 a => exact mem_encodeGroup h
  | case3 a b => exact mem_encodeGroup h
  | case4 a b c input ih =>
      rw [base64Encode, List.mem_append] at h
      exact h.elim mem_encodeGroup ih

end Groups

/-! ## Lines -/

section Lines

variable {delimiter : UInt8} {field rest line : List UInt8} {bundle : IceSignalBundle}

theorem splitAtFirst_append (h : delimiter ∉ field) (rest : List UInt8) :
    splitAtFirst delimiter (field ++ delimiter :: rest) = some (field, rest) := by
  have hplace : (field ++ delimiter :: rest).idxOf? delimiter = some field.length := by
    induction field with
    | nil => rw [List.nil_append, List.idxOf?_cons, if_pos (beq_self_eq_true _), List.length_nil]
    | cons ch field ih =>
        obtain ⟨hne, hnotMem⟩ := List.ne_and_not_mem_of_not_mem_cons h
        rw [List.cons_append, List.idxOf?_cons, if_neg fun heq => hne (beq_iff_eq.mp heq).symm,
          ih hnotMem]
        rfl
  have hdrop : (field ++ delimiter :: rest).drop (field.length + 1) = rest := by
    rw [← List.drop_drop, List.drop_left, List.drop_one, List.tail_cons]
  rw [splitAtFirst, hplace, Option.map_some, List.take_left, hdrop]

theorem takeLine_append (h : newline ∉ line) (rest : List UInt8) :
    takeLine (line ++ newline :: rest) = (line, rest) := by
  rw [takeLine, splitAtFirst_append h, Option.getD_some]

theorem afterKeyword_append (keyword : String) (payload : List UInt8) :
    afterKeyword keyword (ascii keyword ++ payload) = some payload := by
  rw [afterKeyword, if_pos (List.isPrefixOf_iff_prefix.mpr (List.prefix_append _ _)),
    List.drop_left]

theorem decodeLines_append (hnewline : newline ∉ line) (hline : line ≠ []) (rest : List UInt8) :
    decodeLines (line ++ newline :: rest) bundle =
      (decodeLine bundle line).bind fun bundle => decodeLines rest bundle := by
  have hne : line ++ newline :: rest ≠ [] := List.append_ne_nil_of_right_ne_nil _ (List.cons_ne_nil _ _)
  rw [decodeLines, dif_neg hne]
  simp only [takeLine_append hnewline, if_neg hline]
  rfl

theorem decodeLine_type (type : List UInt8) :
    decodeLine bundle (ascii "TYPE " ++ type) =
      .ok { bundle with description := { bundle.description with type := type } } := by
  rw [decodeLine, afterKeyword_append]

theorem decodeLine_sdp (sdp : List UInt8) :
    decodeLine bundle (ascii "SDP " ++ base64Encode sdp) =
      .ok { bundle with description := { bundle.description with sdp := sdp } } := by
  have htype : afterKeyword "TYPE " (ascii "SDP " ++ base64Encode sdp) = none := by
    rw [afterKeyword, if_neg]
    exact fun h => nomatch h
  rw [decodeLine, htype, afterKeyword_append]
  simp only [base64Decode_base64Encode]
  rfl

theorem decodeLine_candidate (candidate : IceCandidateSignal) :
    decodeLine bundle (ascii "CAND " ++ (base64Encode candidate.mid ++
        blank :: base64Encode candidate.candidate)) =
      .ok { bundle with candidates := bundle.candidates ++ [candidate] } := by
  obtain ⟨payload, hpayload⟩ : ∃ payload,
      payload = base64Encode candidate.mid ++ blank :: base64Encode candidate.candidate := ⟨_, rfl⟩
  have htype : afterKeyword "TYPE " (ascii "CAND " ++ payload) = none := by
    rw [afterKeyword, if_neg]
    exact fun h => nomatch h
  have hsdp : afterKeyword "SDP " (ascii "CAND " ++ payload) = none := by
    rw [afterKeyword, if_neg]
    exact fun h => nomatch h
  have hsplit : splitAtFirst blank payload =
      some (base64Encode candidate.mid, base64Encode candidate.candidate) := by
    rw [hpayload]
    exact splitAtFirst_append (fun h => (mem_base64Encode h).2 rfl) _
  rw [← hpayload, decodeLine, htype, hsdp, afterKeyword_append]
  simp only [hsplit, base64Decode_base64Encode]
  rfl

theorem notMem_candidate (candidate : IceCandidateSignal) :
    newline ∉ ascii "CAND " ++ (base64Encode candidate.mid ++
      blank :: base64Encode candidate.candidate) := by
  rw [List.mem_append, List.mem_append, List.mem_cons]
  rintro (h | h | h | h)
  · exact absurd h (by decide)
  · exact (mem_base64Encode h).1 rfl
  · exact absurd h (by decide)
  · exact (mem_base64Encode h).1 rfl

theorem decodeLines_candidates (candidates : List IceCandidateSignal) :
    decodeLines (candidates.flatMap encodeCandidate) bundle =
      .ok { bundle with candidates := bundle.candidates ++ candidates } := by
  induction candidates generalizing bundle with
  | nil =>
      rw [List.flatMap_nil, decodeLines, dif_pos rfl, List.append_nil]
      rfl
  | cons candidate candidates ih =>
      have hline : encodeCandidate candidate ++ candidates.flatMap encodeCandidate =
          (ascii "CAND " ++ (base64Encode candidate.mid ++
            blank :: base64Encode candidate.candidate)) ++
            newline :: candidates.flatMap encodeCandidate := by
        simp only [encodeCandidate, List.append_assoc, List.cons_append, List.nil_append]
      rw [List.flatMap_cons, hline, decodeLines_append (notMem_candidate candidate)
        (List.append_ne_nil_of_right_ne_nil _ (List.append_ne_nil_of_right_ne_nil _
          (List.cons_ne_nil _ _))), decodeLine_candidate]
      refine ih.trans ?_
      rw [List.append_assoc, List.singleton_append]

end Lines

/-- Every signal that has a description is read back as it was written. -/
theorem decodeIceSignal_encodeIceSignal (bundle : IceSignalBundle)
    (htype : bundle.description.type = ascii "offer" ∨ bundle.description.type = ascii "answer")
    (hsdp : bundle.description.sdp ≠ []) :
    (encodeIceSignal bundle).bind decodeIceSignal = .ok bundle := by
  obtain ⟨⟨sdp, type⟩, candidates⟩ := bundle
  have hnonempty : type ≠ [] := by
    rintro rfl
    exact htype.elim (fun h => nomatch h) fun h => nomatch h
  have hnewline : newline ∉ ascii "TYPE " ++ type := by
    rcases htype with h | h <;> simp only at h <;> rw [h] <;> decide
  have hpayload : newline ∉ ascii "SDP " ++ base64Encode sdp := by
    rw [List.mem_append]
    exact fun h => h.elim (fun h => absurd h (by decide)) fun h => (mem_base64Encode h).1 rfl
  rw [encodeIceSignal, if_neg fun h => h.elim hsdp hnonempty]
  have htext : ascii "MKWVC-ICE-1" ++ [newline] ++ (ascii "TYPE " ++ type ++ [newline]) ++
      (ascii "SDP " ++ base64Encode sdp ++ [newline]) ++ candidates.flatMap encodeCandidate =
      ascii "MKWVC-ICE-1" ++ newline :: ((ascii "TYPE " ++ type) ++ newline ::
        ((ascii "SDP " ++ base64Encode sdp) ++ newline ::
          candidates.flatMap encodeCandidate)) := by
    simp only [List.append_assoc, List.cons_append, List.nil_append]
  refine (congrArg decodeIceSignal htext).trans ?_
  have hlines : decodeLines ((ascii "TYPE " ++ type) ++ newline ::
      ((ascii "SDP " ++ base64Encode sdp) ++ newline ::
        candidates.flatMap encodeCandidate)) ⟨⟨[], []⟩, []⟩ = .ok ⟨⟨sdp, type⟩, candidates⟩ := by
    rw [decodeLines_append hnewline (List.append_ne_nil_of_left_ne_nil (by decide) _),
      decodeLine_type]
    refine (decodeLines_append hpayload (List.append_ne_nil_of_left_ne_nil (by decide) _) _).trans ?_
    rw [decodeLine_sdp]
    exact decodeLines_candidates candidates
  rw [decodeIceSignal, takeLine_append (by decide), if_neg (fun h => h rfl)]
  simp only [hlines]
  exact (if_neg fun h => htype.elim h.1 h.2).trans (if_neg hsdp)

/-- An answer with empty fields, a blank and a newline. -/
theorem answer_roundTrip :
    (encodeIceSignal ⟨⟨[0, 10, 255], ascii "answer"⟩, [⟨[], []⟩, ⟨[32, 10], [0]⟩]⟩).bind
      decodeIceSignal =
      .ok ⟨⟨[0, 10, 255], ascii "answer"⟩, [⟨[], []⟩, ⟨[32, 10], [0]⟩]⟩ :=
  decodeIceSignal_encodeIceSignal _ (Or.inr rfl) (List.cons_ne_nil _ _)

end Wiicompiled.Voice.IceSignal
