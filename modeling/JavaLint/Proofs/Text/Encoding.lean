import Mathlib.Data.List.Forall2
import JavaLint.Proofs.Outcome
import JavaLint.Text.Utf8

/-!
# Decoding inverts encoding

A sequence that can be read is the encoding of the character that is read, and every encoding can be read.
So decoding succeeds exactly on the encodings of texts, and gives back the text.

- `readContinuation_eq_ok_iff`, `readSequence_eq_ok_iff`: what reading takes from the input
- `isSequence_iff`: the sequences are the encodings of characters
- `decode?_eq_ok_iff`: decoding inverts encoding
- `decodeReplacing_of_decode?`: nothing is replaced in well-formed input
-/

namespace JavaLint.Utf8

/-- The bytes of a text. -/
def encode (text : List Char) : Bytes :=
  text.flatMap String.utf8EncodeChar

/-! ## One sequence -/

/-- The byte is within the range. -/
def InRange (range : UInt8 × UInt8) (b : UInt8) : Prop := range.1 ≤ b ∧ b ≤ range.2

/-- The code point of a sequence: the bits of its lead byte, and six more from each byte after it. -/
def codePoint (bits : Nat) (tail : Bytes) : Nat :=
  tail.foldl (fun code b => code * 64 + (b.toNat - 0x80)) bits

/-- Bytes are compared by their values. -/
private theorem inRange_iff {lo hi b : UInt8} : InRange (lo, hi) b ↔ lo.toNat ≤ b.toNat ∧ b.toNat ≤ hi.toNat :=
  Iff.rfl

/-- One byte more adds its six bits. -/
private theorem codePoint_cons (bits : Nat) (b : UInt8) (tail : Bytes) :
    codePoint bits (b :: tail) = codePoint (bits * 64 + (b.toNat - 0x80)) tail := by
  rw [codePoint, List.foldl_cons, ← codePoint]

/-- The bytes `b :: tail` are the sequence of a character. -/
def IsSequence (b : UInt8) (tail : Bytes) (c : Char) : Prop :=
  ∃ bits ranges, lead? b = some (bits, ranges) ∧ List.Forall₂ InRange ranges tail ∧
    c = Char.ofNat (codePoint bits tail)

/-- Reading the bytes after a lead byte takes one for each range, each within its range. -/
theorem readContinuation_eq_ok_iff {ranges : List (UInt8 × UInt8)} {bits taken n code : Nat}
    {bytes : Bytes} :
    readContinuation bits taken ranges bytes = (.ok code, n) ↔
      ∃ tail rest, bytes = tail ++ rest ∧ n = taken + tail.length ∧ List.Forall₂ InRange ranges tail ∧
        code = codePoint bits tail := by
  -- one byte is taken for each range, and its bits are added to those that were read
  induction ranges generalizing bits taken bytes with
  | nil =>
    simp only [readContinuation, Prod.mk.injEq, Except.ok.injEq, List.forall₂_nil_left_iff]
    constructor
    · rintro ⟨hcode, hn⟩
      exact ⟨[], bytes, rfl, hn.symm, rfl, hcode.symm⟩
    · rintro ⟨tail, rest, _, hn, htail, hcode⟩
      subst htail
      exact ⟨hcode.symm, hn.symm⟩
  | cons range ranges ih =>
    obtain ⟨lo, hi⟩ := range
    cases bytes with
    | nil =>
      constructor
      · intro h
        simp [readContinuation] at h
      · rintro ⟨tail, rest, hbytes, _, hranges, _⟩
        obtain ⟨rfl, _⟩ := List.append_eq_nil_iff.1 hbytes.symm
        simp at hranges
    | cons b bytes =>
      rw [readContinuation]
      split
      · next hb =>
        rw [ih]
        constructor
        · rintro ⟨tail, rest, hbytes, hn, hranges, hcode⟩
          subst hbytes
          refine ⟨b :: tail, rest, rfl, ?_, .cons hb hranges, hcode.trans (codePoint_cons ..).symm⟩
          rw [List.length_cons]
          omega
        · rintro ⟨tail, rest, hbytes, hn, hranges, hcode⟩
          obtain ⟨_, tail, _, hrest, rfl⟩ := List.forall₂_cons_left_iff.1 hranges
          obtain ⟨rfl, rfl⟩ := List.cons.inj hbytes
          refine ⟨tail, rest, rfl, ?_, hrest, hcode.trans (codePoint_cons ..)⟩
          rw [List.length_cons] at hn
          omega
      · next hb =>
        constructor
        · intro h
          simp at h
        · rintro ⟨tail, rest, hbytes, _, hranges, _⟩
          -- the byte would have to be in its range
          obtain ⟨_, tail, hrange, _, rfl⟩ := List.forall₂_cons_left_iff.1 hranges
          obtain ⟨rfl, _⟩ := List.cons.inj hbytes
          exact absurd hrange hb

/-- Reading one character takes its sequence and leaves the rest. -/
theorem readSequence_eq_ok_iff {b : UInt8} {bytes : Bytes} {c : Char} {taken : Nat} :
    readSequence b bytes = (.ok c, taken) ↔
      ∃ tail rest, bytes = tail ++ rest ∧ taken = tail.length ∧ IsSequence b tail c := by
  rw [readSequence]
  cases hlead : lead? b with
  | none =>
    constructor
    · intro h
      simp at h
    · rintro ⟨_, _, _, _, _, _, hsome, _⟩
      rw [hlead] at hsome
      cases hsome
  | some entry =>
    obtain ⟨bits, ranges⟩ := entry
    -- the lead byte settles the bits and the ranges
    have hsequence : ∀ tail, IsSequence b tail c ↔
        List.Forall₂ InRange ranges tail ∧ c = Char.ofNat (codePoint bits tail) := by
      intro tail
      simp [IsSequence, hlead]
    simp only [hsequence]
    cases hread : readContinuation bits 0 ranges bytes with
    | mk result n =>
      cases result with
      | error fault =>
        constructor
        · intro h
          simp at h
        · rintro ⟨tail, rest, hbytes, htaken, hranges, hc⟩
          have hok : readContinuation bits 0 ranges bytes = (.ok (codePoint bits tail), 0 + tail.length) :=
            readContinuation_eq_ok_iff.2 ⟨tail, rest, hbytes, rfl, hranges, rfl⟩
          rw [hread] at hok
          cases hok
      | ok code =>
        obtain ⟨tail, rest, hbytes, hn, hranges, hcode⟩ := readContinuation_eq_ok_iff.1 hread
        simp only [Prod.mk.injEq, Except.ok.injEq]
        constructor
        · rintro ⟨hc, htaken⟩
          exact ⟨tail, rest, hbytes, by omega, hranges, by rw [← hc, hcode]⟩
        · rintro ⟨tail', rest', hbytes', htaken, hranges', hc⟩
          -- both parts are as long as the ranges
          have hlength : tail'.length = tail.length :=
            hranges'.length_eq.symm.trans hranges.length_eq
          obtain ⟨rfl, _⟩ := List.append_inj (hbytes'.symm.trans hbytes) hlength
          exact ⟨by rw [hc, hcode], by omega⟩

/-! ## Sequences are encodings -/

/-- The values of the bytes that encode a code point. -/
def units (code : Nat) : List Nat :=
  if code ≤ 0x7F then [code]
  else if code ≤ 0x7FF then [code / 64 + 0xC0, code % 64 + 0x80]
  else if code ≤ 0xFFFF then [code / 4096 + 0xE0, code / 64 % 64 + 0x80, code % 64 + 0x80]
  else [code / 262144 + 0xF0, code / 4096 % 64 + 0x80, code / 64 % 64 + 0x80, code % 64 + 0x80]

/-- The encoding of a character, as values. -/
theorem map_toNat_utf8EncodeChar (c : Char) :
    (String.utf8EncodeChar c).map UInt8.toNat = units c.toNat := by
  have hvalid : c.toNat < 0x110000 := by
    have h := c.valid
    simp only [UInt32.isValidChar, Nat.isValidChar] at h
    rw [Char.toNat]
    omega
  have hval : c.val.toNat = c.toNat := rfl
  simp only [String.utf8EncodeChar, units, hval]
  -- every byte is below 256, so nothing is lost in it
  split_ifs
  all_goals
    simp only [List.map_cons, List.map_nil, UInt8.toNat_ofNat', List.cons.injEq, and_true]
    omega

/-- The range of every byte after the second. -/
def continuationRange : UInt8 × UInt8 := (0x80, 0xBF)

/-- The range of the second byte after a lead byte. -/
def secondRange (b : UInt8) : UInt8 × UInt8 :=
  (if b = 0xE0 then 0xA0 else if b = 0xF0 then 0x90 else 0x80,
    if b = 0xED then 0x9F else if b = 0xF4 then 0x8F else 0xBF)

/-- The bytes after the second have six free bits. -/
private theorem inRange_continuationRange_iff {x : UInt8} :
    InRange continuationRange x ↔ 0x80 ≤ x.toNat ∧ x.toNat ≤ 0xBF :=
  inRange_iff

/-- The second byte has six free bits, less what its lead byte rules out. -/
private theorem inRange_secondRange_iff {b x : UInt8} :
    InRange (secondRange b) x ↔ 0x80 ≤ x.toNat ∧ x.toNat ≤ 0xBF ∧
      (b.toNat = 0xE0 → 0xA0 ≤ x.toNat) ∧ (b.toNat = 0xED → x.toNat ≤ 0x9F) ∧
      (b.toNat = 0xF0 → 0x90 ≤ x.toNat) ∧ (b.toNat = 0xF4 → x.toNat ≤ 0x8F) := by
  simp only [secondRange, inRange_iff, ← UInt8.toNat_inj, UInt8.reduceToNat]
  split_ifs
  all_goals
    simp only [UInt8.reduceToNat]
    omega

/-- The lead bytes, by the number of bytes after them. -/
private theorem lead?_eq (b : UInt8) :
    lead? b =
      if b.toNat < 0x80 then some (b.toNat, [])
      else if b.toNat < 0xC2 then none
      else if b.toNat < 0xE0 then some (b.toNat - 0xC0, [secondRange b])
      else if b.toNat < 0xF0 then some (b.toNat - 0xE0, [secondRange b, continuationRange])
      else if b.toNat < 0xF5 then
        some (b.toNat - 0xF0, [secondRange b, continuationRange, continuationRange])
      else none := by
  simp only [lead?, secondRange, UInt8.lt_iff_toNat_lt, beq_iff_eq, ← UInt8.toNat_inj,
    UInt8.reduceToNat]
  grind [continuationRange]

/-- Bytes with the same values are the same. -/
private theorem map_toNat_inj {a b : Bytes} (h : a.map UInt8.toNat = b.map UInt8.toNat) : a = b :=
  List.map_injective_iff.2 (fun _ _ hxy => UInt8.toNat_inj.1 hxy) h

/-- A sequence is the encoding of its character. -/
private theorem IsSequence.encode_eq {b : UInt8} {tail : Bytes} {c : Char} (h : IsSequence b tail c) :
    String.utf8EncodeChar c = b :: tail := by
  obtain ⟨bits, ranges, hlead, hranges, rfl⟩ := h
  -- it is enough to compare the values of the bytes, of a code point that is valid
  suffices hcode : (codePoint bits tail).isValidChar ∧
      units (codePoint bits tail) = (b :: tail).map UInt8.toNat by
    apply map_toNat_inj
    rw [map_toNat_utf8EncodeChar, Char.ofNat, dif_pos hcode.1]
    exact hcode.2
  -- by the number of bytes; the range of the second keeps out what is too small and the surrogates
  rw [lead?_eq] at hlead
  split_ifs at hlead
  all_goals
    simp only [Option.some.injEq, Prod.mk.injEq] at hlead
    obtain ⟨hbits, hlist⟩ := hlead
    rw [← hlist] at hranges
    simp only [List.forall₂_cons_left_iff, List.forall₂_nil_left_iff, inRange_secondRange_iff,
      inRange_continuationRange_iff] at hranges
  · -- one byte: the code point itself
    subst hranges
    simp only [codePoint, List.foldl_nil, List.map_cons, List.map_nil, Nat.isValidChar]
    rw [units, if_pos (by omega), hbits]
    exact ⟨by omega, rfl⟩
  · -- two bytes, with eleven bits
    obtain ⟨x, _, hx, rfl, rfl⟩ := hranges
    simp only [codePoint, List.foldl_cons, List.foldl_nil, List.map_cons, List.map_nil, Nat.isValidChar]
    rw [units, if_neg (by omega), if_pos (by omega)]
    simp only [List.cons.injEq, and_true]
    omega
  · -- three bytes, with sixteen bits
    obtain ⟨x, _, hx, ⟨y, _, hy, rfl, rfl⟩, rfl⟩ := hranges
    simp only [codePoint, List.foldl_cons, List.foldl_nil, List.map_cons, List.map_nil, Nat.isValidChar]
    rw [units, if_neg (by omega), if_neg (by omega), if_pos (by omega)]
    simp only [List.cons.injEq, and_true]
    omega
  · -- four bytes, with twenty-one bits
    obtain ⟨x, _, hx, ⟨y, _, hy, ⟨z, _, hz, rfl, rfl⟩, rfl⟩, rfl⟩ := hranges
    simp only [codePoint, List.foldl_cons, List.foldl_nil, List.map_cons, List.map_nil, Nat.isValidChar]
    rw [units, if_neg (by omega), if_neg (by omega), if_neg (by omega)]
    simp only [List.cons.injEq, and_true]
    omega

/-- The encoding of a character is a sequence of it. -/
private theorem isSequence_of_encode_eq {b : UInt8} {tail : Bytes} {c : Char}
    (h : String.utf8EncodeChar c = b :: tail) : IsSequence b tail c := by
  have hunits : units c.toNat = b.toNat :: tail.map UInt8.toNat := by
    rw [← map_toNat_utf8EncodeChar, h, List.map_cons]
  have hvalid : c.toNat.isValidChar := c.valid
  simp only [Nat.isValidChar] at hvalid
  suffices hread : ∃ bits ranges, lead? b = some (bits, ranges) ∧ List.Forall₂ InRange ranges tail ∧
      c.toNat = codePoint bits tail by
    obtain ⟨bits, ranges, hlead, hranges, hcode⟩ := hread
    exact ⟨bits, ranges, hlead, hranges, by rw [← hcode, Char.ofNat_toNat]⟩
  -- by the size of the code point, which settles the number of bytes
  rw [units] at hunits
  split_ifs at hunits
  all_goals
    obtain ⟨hb, htail⟩ := List.cons.inj hunits
    have htail := htail.symm
    simp only [List.map_eq_cons_iff, List.map_eq_nil_iff] at htail
    rw [lead?_eq]
  · subst htail
    exact ⟨b.toNat, [], if_pos (by omega), .nil, hb⟩
  · obtain ⟨x, _, rfl, hx, rfl⟩ := htail
    rw [if_neg (by omega), if_neg (by omega), if_pos (by omega)]
    refine ⟨_, _, rfl, ?_, ?_⟩
    · simp only [List.forall₂_cons, inRange_secondRange_iff, List.Forall₂.nil, and_true]
      omega
    · simp only [codePoint, List.foldl_cons, List.foldl_nil]
      omega
  · obtain ⟨x, _, rfl, hx, y, _, rfl, hy, rfl⟩ := htail
    rw [if_neg (by omega), if_neg (by omega), if_neg (by omega), if_pos (by omega)]
    refine ⟨_, _, rfl, ?_, ?_⟩
    · simp only [List.forall₂_cons, inRange_secondRange_iff, inRange_continuationRange_iff,
        List.Forall₂.nil, and_true]
      omega
    · simp only [codePoint, List.foldl_cons, List.foldl_nil]
      omega
  · obtain ⟨x, _, rfl, hx, y, _, rfl, hy, z, _, rfl, hz, rfl⟩ := htail
    rw [if_neg (by omega), if_neg (by omega), if_neg (by omega), if_neg (by omega), if_pos (by omega)]
    refine ⟨_, _, rfl, ?_, ?_⟩
    · simp only [List.forall₂_cons, inRange_secondRange_iff, inRange_continuationRange_iff,
        List.Forall₂.nil, and_true]
      omega
    · simp only [codePoint, List.foldl_cons, List.foldl_nil]
      omega

/-- The sequences of a character are its encodings, of which there is one. -/
theorem isSequence_iff {b : UInt8} {tail : Bytes} {c : Char} :
    IsSequence b tail c ↔ String.utf8EncodeChar c = b :: tail :=
  ⟨IsSequence.encode_eq, isSequence_of_encode_eq⟩

/-! ## All sequences -/

/-- Nothing is decoded to the empty text. -/
private theorem decode?_nil : decode? [] = .ok [] := by
  rw [decode?, readAll]
  rfl

/-- Decoding reads one character and decodes what is left. -/
theorem decode?_cons_eq_ok_iff {b : UInt8} {bytes : Bytes} {text : List Char} :
    decode? (b :: bytes) = .ok text ↔
      ∃ c taken rest, readSequence b bytes = (.ok c, taken) ∧
        decode? (bytes.drop taken) = .ok rest ∧ text = c :: rest := by
  -- the results are read one by one, and a fault in one of them is the fault of the whole
  have hdecode : decode? (b :: bytes) = (do
      let c ← (readSequence b bytes).1
      let rest ← decode? (bytes.drop (readSequence b bytes).2)
      return c :: rest) := by
    rw [decode?, readAll, List.mapM_cons]
    rfl
  rw [hdecode]
  obtain ⟨result, taken⟩ := readSequence b bytes
  cases result with
  | error fault =>
    constructor
    · intro h
      cases h
    · rintro ⟨c, _, _, hread, _⟩
      cases hread
  | ok c =>
    simp only [Prod.mk.injEq, Except.ok.injEq]
    cases hrest : decode? (bytes.drop taken) with
    | error fault =>
      simp only [bind, Except.bind]
      constructor
      · intro h
        cases h
      · rintro ⟨_, _, _, ⟨_, htaken⟩, hok, _⟩
        rw [← htaken, hrest] at hok
        cases hok
    | ok rest =>
      simp only [bind, Except.bind, pure, Except.pure, Except.ok.injEq]
      constructor
      · intro htext
        exact ⟨c, taken, rest, ⟨rfl, rfl⟩, hrest, htext.symm⟩
      · rintro ⟨_, _, _, ⟨hc, htaken⟩, hok, htext⟩
        rw [← htaken, hrest] at hok
        rw [htext, ← hc, Except.ok.inj hok]

/-- Decoding inverts encoding: it gives a text exactly if the bytes are the encoding of this text. -/
theorem decode?_eq_ok_iff {bytes : Bytes} {text : List Char} :
    decode? bytes = .ok text ↔ bytes = encode text := by
  -- character by character, each with its own encoding in front of the rest
  induction text generalizing bytes with
  | nil =>
    cases bytes with
    | nil => exact ⟨fun _ => rfl, fun _ => decode?_nil⟩
    | cons b bytes => simp [decode?_cons_eq_ok_iff, encode]
  | cons c text ih =>
    -- the encoding of the first character is not empty
    have hpos : 0 < (String.utf8EncodeChar c).length := by
      rw [String.length_utf8EncodeChar]
      exact c.utf8Size_pos
    obtain ⟨first, tail, hfirst⟩ := List.exists_cons_of_length_pos hpos
    have hencode : encode (c :: text) = first :: (tail ++ encode text) := by
      rw [encode, List.flatMap_cons, hfirst, List.cons_append, ← encode]
    rw [hencode]
    cases bytes with
    | nil => simp [decode?_nil]
    | cons b bytes =>
      simp only [decode?_cons_eq_ok_iff, readSequence_eq_ok_iff, isSequence_iff, List.cons.injEq]
      constructor
      · rintro ⟨_, taken, _, ⟨tail', rest, hbytes, htaken, hsequence⟩, hrest, hc, htext⟩
        subst hc htext
        obtain ⟨rfl, rfl⟩ := List.cons.inj (hfirst.symm.trans hsequence)
        rw [hbytes, htaken, List.drop_left, ih] at hrest
        exact ⟨rfl, by rw [hbytes, hrest]⟩
      · rintro ⟨hb, hbytes⟩
        subst hb hbytes
        refine ⟨c, tail.length, text, ⟨tail, _, rfl, rfl, hfirst⟩, ?_, rfl, rfl⟩
        rw [List.drop_left, ih]

/-- Nothing is replaced in well-formed input. -/
theorem decodeReplacing_of_decode? {bytes : Bytes} {text : List Char} (h : decode? bytes = .ok text) :
    decodeReplacing bytes = .ofList text := by
  rw [decode?, mapM_eq_ok_iff] at h
  rw [decodeReplacing]
  congr 1
  -- every result is a character, so each of them is kept
  generalize readAll bytes = results at h
  induction h with
  | nil => rfl
  | cons hc _ ih =>
    rw [id_eq] at hc
    rw [List.map_cons, ih, hc]

end JavaLint.Utf8
