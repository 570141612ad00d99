/-!
# UTF-8

Decoding of byte lists. A sequence is a lead byte and the continuation bytes it asks for; the range
allowed for the first of those excludes overlong forms, surrogates and code points beyond the last.

`decode?` refuses malformed input with the first fault in it. `decodeReplacing` accepts every input
and puts one replacement character in place of each maximal part of a sequence that cannot be
completed.
-/

namespace JavaLint

/-- Source text as it is stored. -/
abbrev Bytes := List UInt8

namespace Utf8

/-- Why bytes are not well-formed UTF-8. -/
inductive Fault where
  /-- No sequence starts with this byte. -/
  | invalidStart
  /-- The byte after a part of a sequence cannot continue it. -/
  | invalidContinuation
  /-- The input ends inside a sequence. -/
  | unexpectedEnd
  deriving DecidableEq, Repr

/-- The text that names a fault. -/
def Fault.message : Fault → String
  | .invalidStart => "invalid start byte"
  | .invalidContinuation => "invalid continuation byte"
  | .unexpectedEnd => "unexpected end of data"

/-- The bits that a lead byte contributes, and the ranges of the continuation bytes it asks for. -/
def lead? (b : UInt8) : Option (Nat × List (UInt8 × UInt8)) :=
  if b < 0x80 then some (b.toNat, [])
  else if b < 0xC2 then none
  else if b < 0xE0 then some (b.toNat - 0xC0, [(0x80, 0xBF)])
  else if b == 0xE0 then some (0, [(0xA0, 0xBF), (0x80, 0xBF)])
  else if b == 0xED then some (0xD, [(0x80, 0x9F), (0x80, 0xBF)])
  else if b < 0xF0 then some (b.toNat - 0xE0, [(0x80, 0xBF), (0x80, 0xBF)])
  else if b == 0xF0 then some (0, [(0x90, 0xBF), (0x80, 0xBF), (0x80, 0xBF)])
  else if b < 0xF4 then some (b.toNat - 0xF0, [(0x80, 0xBF), (0x80, 0xBF), (0x80, 0xBF)])
  else if b == 0xF4 then some (4, [(0x80, 0x8F), (0x80, 0xBF), (0x80, 0xBF)])
  else none

/-- Reads the continuation bytes asked for. The answer holds the code point or the fault, and the
    number of bytes that were taken. -/
def readContinuation (bits taken : Nat) : List (UInt8 × UInt8) → Bytes → Except Fault Nat × Nat
  | [], _ => (.ok bits, taken)
  | _ :: _, [] => (.error .unexpectedEnd, taken)
  | (lo, hi) :: ranges, b :: bytes =>
    if lo ≤ b ∧ b ≤ hi then
      readContinuation (bits * 64 + (b.toNat - 0x80)) (taken + 1) ranges bytes
    else (.error .invalidContinuation, taken)

/-- Reads the sequence that starts with `b`: its character or its fault, and how many of the
    bytes after `b` belong to it. -/
def readSequence (b : UInt8) (bytes : Bytes) : Except Fault Char × Nat :=
  match lead? b with
  | none => (.error .invalidStart, 0)
  | some (bits, ranges) =>
    match readContinuation bits 0 ranges bytes with
    | (.ok code, taken) => (.ok (Char.ofNat code), taken)
    | (.error fault, taken) => (.error fault, taken)

/-- The sequences of the input in order, each a character or a fault. -/
def readAll : Bytes → List (Except Fault Char)
  | [] => []
  | b :: bytes =>
    let (result, taken) := readSequence b bytes
    result :: readAll (bytes.drop taken)
termination_by bytes => bytes.length
decreasing_by
  simp only [List.length_drop, List.length_cons]
  omega

/-- The characters of well-formed input, or its first fault. -/
def decode? (bytes : Bytes) : Except Fault (List Char) :=
  (readAll bytes).mapM id

/-- The text of any input, with a replacement character for each malformed sequence. -/
def decodeReplacing (bytes : Bytes) : String :=
  String.ofList <| (readAll bytes).map fun
    | .ok c => c
    | .error _ => '\uFFFD'

end Utf8

end JavaLint
