import DocGraft.Comment.Localized
import DocGraft.Files.FileTree
import DocGraft.Signature.Declaration
import DocGraft.Text.Numeral

/-!
# Failures and notices

A failure stops the work on a file or on everything. A notice tells of something that was passed
over while the work went on.
-/

namespace DocGraft

open Text

/-- What can stop a merge. -/
inductive Failure where
  /-- The source declares no top-level type with the name. -/
  | noSuchType (name : Text)
  /-- There is no encoding with the name. -/
  | unknownEncoding (name : Text)
  /-- A file cannot be read or written. -/
  | file (fault : FileFault)
  /-- A number on a page is too long. -/
  | badNumber (e : NumeralError)
  /-- The directory has no class index page. -/
  | notDocumentation (root : Text)
  | noSources (directory : Text)
  | emptySources (directory : Text)
  /-- The results would be written over the sources. -/
  | outputIsSource (directory : Text)
deriving DecidableEq, Repr

def FileFault.message : FileFault → Text
  | missing => "no such file or directory".toList
  | notDirectory => "not a directory".toList
  | isDirectory => "is a directory".toList
  | occupied => "already exists".toList
  | sameFile => "source and target are the same file".toList

def Failure.message : Failure → Text
  | noSuchType name => "No top-level type named ".toList ++ quoted name ++ " found".toList
  | unknownEncoding name => "unknown encoding: ".toList ++ name
  | file fault => fault.message
  | badNumber e => e.message
  | notDocumentation root =>
    "Not an API documentation root (no allclasses page): ".toList ++ root
  | noSources directory => "Source directory not found: ".toList ++ directory
  | emptySources directory => "Source directory is empty: ".toList ++ directory
  | outputIsSource directory => "Output directory is the source directory: ".toList ++ directory

/-- Why a page cannot be read. -/
inductive PageFault where
  | undecodable
  | file (fault : FileFault)
deriving DecidableEq, Repr

def PageFault.message : PageFault → Text
  | undecodable => "not valid in its encoding".toList
  | file fault => fault.message

/-- What was passed over. -/
inductive Notice where
  /-- No declaration follows a documentation comment. -/
  | noDeclaration (offset : Nat) (className following : Text)
  /-- A declaration in a source has no key. -/
  | badDeclaration (e : SignatureError) (className : Text)
  /-- A declaration on a page has no key. -/
  | badPageEntry (e : SignatureError) (path : Text)
  /-- The body of an inner class has no end. -/
  | unclosedClass (outer inner : Text)
  /-- A localized comment did not fit. -/
  | misfit (warning : LayoutWarning)
  | unreadablePage (path : Text) (fault : PageFault)
  /-- A source was copied because it could not be merged. -/
  | notMerged (path : Text) (failure : Failure)
  | refused (failure : Failure)
deriving DecidableEq, Repr

def Notice.message : Notice → Text
  | noDeclaration offset className following =>
    "No signature after the doc comment at offset ".toList ++ ofNat offset ++ " in ".toList
      ++ className ++ ":\n".toList ++ following
  | badDeclaration e className => e.message ++ " (in ".toList ++ className ++ [')']
  | badPageEntry e path => e.message ++ " (page ".toList ++ path ++ [')']
  | unclosedClass outer inner =>
    "End of inner class ".toList ++ outer ++ '#' :: inner ++ " not found".toList
  | misfit warning => warning.describe
  | unreadablePage path fault =>
    "Could not read documentation page ".toList ++ path ++ ": ".toList ++ fault.message
  | notMerged path failure =>
    "Failed to merge ".toList ++ path ++ ": ".toList ++ failure.message
  | refused failure => failure.message

end DocGraft
