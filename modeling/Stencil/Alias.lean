import Stencil.Digest.Sha256
import Stencil.Text.Hex
/-!
Names in the registry of the runtime.  The runtime reads only plain names, so any other reference is
replaced by a name made from its digest.
-/

namespace Stencil.Alias

/-- Sixteen hexadecimal digits of the digest of a text. -/
def shortDigest (t : Text) : Text :=
  (Text.Hex.encode (Sha256.digest (Text.utf8 t))).take 16

def isPlainChar (c : Char) : Bool :=
  c.isAlphanum || c = '_' || c = '-'

/-- Whether the runtime reads a reference as it stands. -/
def isPlain (reference : Text) : Bool :=
  !reference.isEmpty && reference.all isPlainChar

/-- Where aliases begin. -/
def mark : Text := "tpl_".toList

/-- Where the names of root templates begin. -/
def rootMark : Text := "__tscope_compiled_".toList

/-- The registry name of a partial. -/
def ofReference (reference : Text) : Text :=
  if isPlain reference then reference else mark ++ shortDigest reference

/-- The registry name of a root template. -/
def ofRoot (source : Text) : Text :=
  rootMark ++ shortDigest source

end Stencil.Alias
