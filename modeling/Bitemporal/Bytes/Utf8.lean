/-!
# Text in octets

Text is stored in UTF-8. `Utf8.decode` reads octets back and says of octets that
are no text where the first character that cannot be completed begins, and how
many octets of it were read before that became certain; of octets that merely
stop inside a character it says that.

The second octet of a character is the one that excludes overlong forms,
surrogates and numbers beyond the last code point (`Utf8.isSecond`).
-/

namespace Bitemporal.Utf8

/-- Why octets are not text. The `index` counts the octets of the characters
    before the fault. -/
inductive Fault where
  /-- The `count` octets from `index` on begin no character. -/
  | invalid (count index : Nat)
  /-- The octets stop inside the character that begins at `index`. -/
  | incomplete (index : Nat)
deriving DecidableEq, Repr

/-- The words for a fault. -/
def Fault.message : Fault → String
  | .invalid count index => s!"invalid utf-8 sequence of {count} bytes from index {index}"
  | .incomplete index => s!"incomplete utf-8 byte sequence from index {index}"

instance : ToString Fault := ⟨Fault.message⟩

/-- Whether an octet continues a character. -/
def isContinuation (b : UInt8) : Bool :=
  0x80 ≤ b && b ≤ 0xBF

/-- Whether `b` can follow the first octet `a` of a character of three or four
    octets. -/
def isSecond (a b : UInt8) : Bool :=
  if a = 0xE0 then 0xA0 ≤ b && b ≤ 0xBF
  else if a = 0xED then 0x80 ≤ b && b ≤ 0x9F
  else if a = 0xF0 then 0x90 ≤ b && b ≤ 0xBF
  else if a = 0xF4 then 0x80 ≤ b && b ≤ 0x8F
  else isContinuation b

/-- The six payload bits of a continuation octet. -/
def payload (b : UInt8) : Nat :=
  b.toNat % 64

/-- The characters of two, three and four octets, from the bits that each octet
    carries. -/
def ofTwo (a b : UInt8) : Char :=
  Char.ofNat (a.toNat % 32 * 64 + payload b)

@[inherit_doc ofTwo]
def ofThree (a b c : UInt8) : Char :=
  Char.ofNat ((a.toNat % 16 * 64 + payload b) * 64 + payload c)

@[inherit_doc ofTwo]
def ofFour (a b c d : UInt8) : Char :=
  Char.ofNat (((a.toNat % 8 * 64 + payload b) * 64 + payload c) * 64 + payload d)

/-- The characters of octets that lie `index` octets into the text, after the
    characters `before`, which are in reverse. The first octet of a character
    fixes how many there are. -/
def decodeFrom (index : Nat) (before : List Char) : List UInt8 → Except Fault (List Char)
  | [] => .ok before.reverse
  | a :: rest =>
    if a < 0x80 then decodeFrom (index + 1) (Char.ofNat a.toNat :: before) rest
    else if 0xC2 ≤ a && a ≤ 0xDF then
      match rest with
      | [] => .error (.incomplete index)
      | b :: rest =>
        if !isContinuation b then .error (.invalid 1 index)
        else decodeFrom (index + 2) (ofTwo a b :: before) rest
    else if 0xE0 ≤ a && a ≤ 0xEF then
      match rest with
      | [] => .error (.incomplete index)
      | b :: rest =>
        if !isSecond a b then .error (.invalid 1 index)
        else
          match rest with
          | [] => .error (.incomplete index)
          | c :: rest =>
            if !isContinuation c then .error (.invalid 2 index)
            else decodeFrom (index + 3) (ofThree a b c :: before) rest
    else if 0xF0 ≤ a && a ≤ 0xF4 then
      match rest with
      | [] => .error (.incomplete index)
      | b :: rest =>
        if !isSecond a b then .error (.invalid 1 index)
        else
          match rest with
          | [] => .error (.incomplete index)
          | c :: rest =>
            if !isContinuation c then .error (.invalid 2 index)
            else
              match rest with
              | [] => .error (.incomplete index)
              | d :: rest =>
                if !isContinuation d then .error (.invalid 3 index)
                else decodeFrom (index + 4) (ofFour a b c d :: before) rest
    else .error (.invalid 1 index)

/-- The text that octets stand for. -/
def decode (octets : List UInt8) : Except Fault String :=
  (decodeFrom 0 [] octets).map String.ofList

/-- The octets of a text. -/
def encode (text : String) : List UInt8 :=
  text.toList.flatMap String.utf8EncodeChar

end Bitemporal.Utf8
