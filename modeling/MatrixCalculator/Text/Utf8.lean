import MatrixCalculator.Text.Quoted

namespace MatrixCalculator.Text.Utf8

inductive Reason where
  | startByte
  | continuationByte
  | endOfData
  deriving DecidableEq, Repr

/-- What is wrong with the bytes from position `start` up to `stop`, the first of them `byte`. -/
structure Malformed where
  start : Nat
  stop : Nat
  byte : Nat
  reason : Reason
  deriving DecidableEq, Repr

def Reason.text : Reason → String
  | .startByte => "invalid start byte"
  | .continuationByte => "invalid continuation byte"
  | .endOfData => "unexpected end of data"

def Malformed.message (m : Malformed) : String :=
  let place :=
    if m.stop = m.start + 1 then
      s!"byte 0x{String.ofList (hexDigits 2 m.byte)} in position {m.start}"
    else s!"bytes in position {m.start}-{m.stop - 1}"
  s!"'utf-8' codec can't decode {place}: {m.reason.text}"

/-- A character begun at `start`: `owed` more bytes, the next one from `low` to `high`. -/
structure Pending where
  start : Nat
  byte : Nat
  owed : Nat
  low : Nat
  high : Nat
  value : Nat

def Pending.begin? (start byte : Nat) : Option Pending :=
  if 0xc2 ≤ byte ∧ byte ≤ 0xdf then some ⟨start, byte, 1, 0x80, 0xbf, byte - 0xc0⟩
  else if 0xe0 ≤ byte ∧ byte ≤ 0xef then
    some ⟨start, byte, 2, if byte = 0xe0 then 0xa0 else 0x80, if byte = 0xed then 0x9f else 0xbf,
      byte - 0xe0⟩
  else if 0xf0 ≤ byte ∧ byte ≤ 0xf4 then
    some ⟨start, byte, 3, if byte = 0xf0 then 0x90 else 0x80, if byte = 0xf4 then 0x8f else 0xbf,
      byte - 0xf0⟩
  else none

def Pending.push (p : Pending) (byte : Nat) : Pending :=
  { p with owed := p.owed - 1, low := 0x80, high := 0xbf, value := 64 * p.value + (byte - 0x80) }

/-- The characters of the bytes from position `pos` on, inside the character `pending` if any. -/
def decodeFrom : Option Pending → Nat → List UInt8 → Except Malformed (List Char)
  | none, _, [] => .ok []
  | some p, pos, [] => .error ⟨p.start, pos, p.byte, .endOfData⟩
  | none, pos, b :: rest =>
    if b.toNat < 0x80 then do
      let cs ← decodeFrom none (pos + 1) rest
      return Char.ofNat b.toNat :: cs
    else
      match Pending.begin? pos b.toNat with
      | some p => decodeFrom (some p) (pos + 1) rest
      | none => .error ⟨pos, pos + 1, b.toNat, .startByte⟩
  | some p, pos, b :: rest =>
    if p.low ≤ b.toNat ∧ b.toNat ≤ p.high then
      let next := p.push b.toNat
      if next.owed = 0 then do
        let cs ← decodeFrom none (pos + 1) rest
        return Char.ofNat next.value :: cs
      else decodeFrom (some next) (pos + 1) rest
    else .error ⟨p.start, pos, p.byte, .continuationByte⟩

def decode (bytes : List UInt8) : Except Malformed (List Char) := decodeFrom none 0 bytes

end MatrixCalculator.Text.Utf8
