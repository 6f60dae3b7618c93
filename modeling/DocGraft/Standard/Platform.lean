import DocGraft.Platform
import DocGraft.Standard.SourceTree

/-!
# The standard platform

The parsers of this library and the encodings that it has, each under several names.
-/

namespace DocGraft

namespace Encoding

/-- The title of each encoding. -/
def title : Encoding → String
  | utf8 => "utf_8"
  | ascii => "ascii"
  | latin1 => "latin_1"

/-- The other names of each encoding, in lower case and with underscores for most marks. -/
def aliases : Encoding → List String
  | utf8 => ["cp65001", "u8", "utf", "utf8", "utf8_ucs2", "utf8_ucs4"]
  | ascii =>
    ["646", "ansi_x3.4_1968", "ansi_x3.4_1986", "ansi_x3_4_1968", "cp367", "csascii", "ibm367",
     "iso646_us", "iso_646.irv_1991", "iso_ir_6", "us", "us_ascii"]
  | latin1 =>
    ["8859", "cp819", "csisolatin1", "ibm819", "iso8859", "iso8859_1", "iso_8859_1",
     "iso_8859_1_1987", "iso_ir_100", "l1", "latin", "latin1"]

/-- A name in the form of the tables: small letters, and one underscore between two letters, digits
or dots for each run of other marks. -/
def plainName (name : Text) : Text :=
  let mark (c : Char) : Char := if c.isAlphanum || c = '.' then c.toLower else ' '
  Text.joinWith ['_'] ((Text.fields ' ' (name.map mark)).filter (· ≠ []))

/-- The encoding with a name: its title, or an alias, in which dots may stand for underscores. -/
def ofName? (name : Text) : Option Encoding :=
  let plain := plainName name
  let undotted := plain.map fun c => if c = '.' then '_' else c
  [utf8, ascii, latin1].find? fun encoding =>
    encoding.title.toList = plain ||
      encoding.aliases.any fun known => known.toList = plain || known.toList = undotted

def codec (encoding : Encoding) : Codec where
  decode? := encoding.decode?
  decodeLossy := encoding.decodeLossy
  encode := encoding.encode

end Encoding

instance Standard.platform : Platform where
  java := sourceTree
  html := pageTree
  codec? name := (Encoding.ofName? name).map Encoding.codec

end DocGraft
