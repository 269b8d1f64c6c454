import Callable.Digest.Sha256
import Callable.Json.Canonical
import Callable.Wire.Records
/-!
The canonical text of a descriptor and its fingerprint.
-/
namespace Callable.Descriptor

def canonical (d : Descriptor) : String := (Wire.ofDescriptor d).canonical

/-- The SHA-256 digest of the canonical text. -/
def fingerprint (d : Descriptor) : String := Digest.sha256 d.canonical.toUTF8.toList

end Callable.Descriptor
