/-
# Ways to read files

What a file holds is not known to the rest of the library: it is handed over as a function.  A
value of this type is all that reading a document needs to know of the file system.
-/
import BlockDoc.Bytes
import BlockDoc.Error

namespace BlockDoc

/-- The content of the file at each path, or why there is none. -/
abbrev FileReader := String → Except IoFailure Bytes

end BlockDoc
