import DocGraft.Markup.Reference
import DocGraft.Text.Encoding

/-!
# Percent codes in addresses

An address writes bytes as two hexadecimal digits after a percent sign. A run of ASCII characters is
decoded as UTF-8 as a whole; a percent sign without two digits stands for itself.
-/

namespace DocGraft.Markup

open Text

/-- The byte of the percent code that begins here. -/
def percentByte? : Text → Option UInt8
  | '%' :: a :: b :: _ =>
    (hexValue? a).bind fun x => (hexValue? b).map fun y => (16 * x + y).toUInt8
  | _ => none

/-- The bytes of ASCII characters with percent codes once `skip` more characters have been passed
over. -/
def percentBytesFrom : (skip : Nat) → Text → Bytes
  | _, [] => []
  | skip + 1, _ :: s => percentBytesFrom skip s
  | 0, c :: s =>
    match percentByte? (c :: s) with
    | some b => b :: percentBytesFrom 2 s
    | none => c.toNat.toUInt8 :: percentBytesFrom 0 s

def percentBytes (s : Text) : Bytes :=
  percentBytesFrom 0 s

/-- Decodes the runs of ASCII characters of an address; `ascii` is the run read so far, reversed. -/
def unquoteFrom (ascii : Text) : Text → Text
  | [] => Encoding.utf8.decodeLossy (percentBytes ascii.reverse)
  | c :: s =>
    if c.toNat < 0x80 then unquoteFrom (c :: ascii) s
    else Encoding.utf8.decodeLossy (percentBytes ascii.reverse) ++ c :: unquoteFrom [] s

/-- The text of an address with its percent codes decoded. -/
def unquote (s : Text) : Text :=
  unquoteFrom [] s

end DocGraft.Markup
