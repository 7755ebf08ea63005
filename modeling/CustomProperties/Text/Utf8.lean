import CustomProperties.Text.Quoted

/-!
Reading bytes as UTF-8. Bytes that are not UTF-8 have a first fault: a byte that cannot start
a character, a byte that cannot continue the character before it, or the end of the data
within a character. The fault spans the bytes that still made sense, counted from the one
that starts the character.
-/

namespace CustomProperties.Utf8

inductive Flaw where
  | badStart
  | badContinuation
  | cutShort
deriving DecidableEq, Repr

structure Fault where
  byte : Nat
  first : Nat
  last : Nat
  flaw : Flaw
deriving DecidableEq, Repr

/-- The bounds on the bytes that have to follow a first byte: the narrower ones on the second
byte exclude overlong forms, surrogates and what lies beyond the last code point. -/
def continuations (lead : Nat) : Option (List (Nat × Nat)) :=
  let any := (0x80, 0xBF)
  if lead < 0x80 then some []
  else if lead < 0xC2 then none
  else if lead < 0xE0 then some [any]
  else if lead < 0xF0 then
    some [(if lead = 0xE0 then 0xA0 else 0x80, if lead = 0xED then 0x9F else 0xBF), any]
  else if lead < 0xF5 then
    some [(if lead = 0xF0 then 0x90 else 0x80, if lead = 0xF4 then 0x8F else 0xBF), any, any]
  else none

/-- Read the bytes that `bounds` ask for, `count` of the character's bytes being read: the rest
behind them, or the flaw and the number of bytes read before it. -/
def continue? : List (Nat × Nat) → Nat → List UInt8 → Except (Flaw × Nat) (List UInt8)
  | [], _, rest => .ok rest
  | _ :: _, count, [] => .error (.cutShort, count)
  | (low, high) :: bounds, count, b :: rest =>
      if low ≤ b.toNat && b.toNat ≤ high then continue? bounds (count + 1) rest
      else .error (.badContinuation, count)

theorem continue?_length {bounds : List (Nat × Nat)} {count : Nat} {bytes rest : List UInt8}
    (h : continue? bounds count bytes = .ok rest) : rest.length ≤ bytes.length := by
  fun_induction continue? bounds count bytes with
  | case1 => simp_all
  | case2 => simp at h
  | case3 count low high bounds b bytes _ ih => have := ih h; simp; omega
  | case4 => simp at h

/-- The first fault of some bytes, the first of them at the offset `start`. Bytes without a fault
are taken to lack what would come next. -/
def firstFault (start : Nat) : List UInt8 → Fault
  | [] => ⟨0, start, start, .cutShort⟩
  | b :: bytes =>
      match continuations b.toNat with
      | none => ⟨b.toNat, start, start, .badStart⟩
      | some bounds =>
          match h : continue? bounds 1 bytes with
          | .error (flaw, count) => ⟨b.toNat, start, start + count - 1, flaw⟩
          | .ok rest => firstFault (start + (bounds.length + 1)) rest
termination_by bytes => bytes.length
decreasing_by have := continue?_length h; simp; omega

def decode (bytes : ByteArray) : Except Fault Text :=
  match String.fromUTF8? bytes with
  | some s => .ok s.toList
  | none => .error (firstFault 0 bytes.toList)

def encode (t : Text) : ByteArray := (String.ofList t).toUTF8

def Flaw.message : Flaw → String
  | .badStart => "invalid start byte"
  | .badContinuation => "invalid continuation byte"
  | .cutShort => "unexpected end of data"

def Fault.message (f : Fault) : String :=
  let place :=
    if f.first = f.last then
      "byte 0x" ++ String.ofList (Text.hexDigits 2 f.byte) ++ " in position " ++ toString f.first
    else "bytes in position " ++ toString f.first ++ "-" ++ toString f.last
  "'utf-8' codec can't decode " ++ place ++ ": " ++ f.flaw.message

end CustomProperties.Utf8
