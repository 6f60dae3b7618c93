import DocGraft.Text.Basic

/-!
# Encodings

Files hold bytes. Three encodings are written out here: UTF-8, ASCII and Latin-1. Decoding gives a
character for each valid sequence of bytes and marks each invalid one; in UTF-8 an invalid sequence
is as long as the beginning of a valid one can be.
-/

namespace DocGraft

/-- The content of a file. -/
abbrev Bytes := List UInt8

/-- The encodings that are written out. -/
inductive Encoding where
  /-- One to four bytes for each character. -/
  | utf8
  /-- One byte for each of the first 128 characters. -/
  | ascii
  /-- One byte for each of the first 256 characters. -/
  | latin1
deriving DecidableEq, Repr

namespace Encoding

/-! ### Decoding -/

/-- Whether a byte continues a sequence. -/
def isContinuation (b : UInt8) : Bool :=
  0x80 ≤ b && b ≤ 0xbf

/-- Whether the byte `b` can follow the byte `lead` of a sequence of three or four bytes. -/
def mayFollow (lead b : UInt8) : Bool :=
  isContinuation b && match lead with
    | 0xe0 => 0xa0 ≤ b
    | 0xed => b ≤ 0x9f
    | 0xf0 => 0x90 ≤ b
    | 0xf4 => b ≤ 0x8f
    | _ => true

/-- The code point of a lead byte's payload `high` and the continuation bytes. -/
def codePoint (high : Nat) (tail : List UInt8) : Nat :=
  tail.foldl (fun n b => 0x40 * n + b.toNat % 0x40) high

/-- The character at the beginning of some UTF-8 bytes, if they are valid there, and the number of
bytes that it or the invalid sequence takes. -/
def utf8Step : Bytes → Option Char × Nat
  | [] => (none, 1)
  | lead :: rest =>
    if lead < 0x80 then (some (Char.ofNat lead.toNat), 1)
    else if 0xc2 ≤ lead ∧ lead ≤ 0xdf then
      match rest with
      | b :: _ =>
        if isContinuation b then (some (Char.ofNat (codePoint (lead.toNat - 0xc0) [b])), 2)
        else (none, 1)
      | [] => (none, 1)
    else if 0xe0 ≤ lead ∧ lead ≤ 0xef then
      match rest with
      | b :: more =>
        if mayFollow lead b then
          match more with
          | c :: _ =>
            if isContinuation c then (some (Char.ofNat (codePoint (lead.toNat - 0xe0) [b, c])), 3)
            else (none, 2)
          | [] => (none, 2)
        else (none, 1)
      | [] => (none, 1)
    else if 0xf0 ≤ lead ∧ lead ≤ 0xf4 then
      match rest with
      | b :: more =>
        if mayFollow lead b then
          match more with
          | c :: most =>
            if isContinuation c then
              match most with
              | d :: _ =>
                if isContinuation d then
                  (some (Char.ofNat (codePoint (lead.toNat - 0xf0) [b, c, d])), 4)
                else (none, 3)
              | [] => (none, 3)
            else (none, 2)
          | [] => (none, 2)
        else (none, 1)
      | [] => (none, 1)
    else (none, 1)

/-- The characters of UTF-8 bytes once `skip` more bytes have been passed over, with `none` for each
invalid sequence. -/
def utf8From : (skip : Nat) → Bytes → List (Option Char)
  | _, [] => []
  | skip + 1, _ :: bytes => utf8From skip bytes
  | 0, b :: bytes =>
    let (c, n) := utf8Step (b :: bytes)
    c :: utf8From (n - 1) bytes

/-- The characters of some bytes, with `none` for each invalid sequence. -/
def characters (encoding : Encoding) (bytes : Bytes) : List (Option Char) :=
  match encoding with
  | utf8 => utf8From 0 bytes
  | ascii => bytes.map fun b => if b < 0x80 then some (Char.ofNat b.toNat) else none
  | latin1 => bytes.map fun b => some (Char.ofNat b.toNat)

def decode? (encoding : Encoding) (bytes : Bytes) : Option Text :=
  (encoding.characters bytes).mapM id

/-- The text of some bytes, with U+FFFD for each invalid sequence. -/
def decodeLossy (encoding : Encoding) (bytes : Bytes) : Text :=
  (encoding.characters bytes).map fun c => c.getD '\ufffd'

/-! ### Encoding -/

/-- The bytes of a character, or a question mark. -/
def encodeChar (encoding : Encoding) (c : Char) : Bytes :=
  match encoding with
  | utf8 => String.utf8EncodeChar c
  | ascii => [if c.toNat < 0x80 then c.toNat.toUInt8 else 0x3f]
  | latin1 => [if c.toNat < 0x100 then c.toNat.toUInt8 else 0x3f]

def encode (encoding : Encoding) (s : Text) : Bytes :=
  s.flatMap encoding.encodeChar

end Encoding

end DocGraft
