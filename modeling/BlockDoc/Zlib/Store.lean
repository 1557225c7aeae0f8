/-
# Writing a stream

A stream is written without compression, in blocks that are stored as they are.  That is a
stream like any other, and whoever reads it gets back the same bytes.
-/
import BlockDoc.Checksum

namespace BlockDoc.Zlib

/-- The most bytes that a stored block can hold. -/
def maxStored : Nat := 65535

/-- A stored block. -/
def storedBytes (last : Bool) (content : Bytes) : Bytes :=
  (if last then 1 else 0) ::
    (Word.bytes 2 content.length ++ Word.bytes 2 (0xFFFF - content.length) ++ content)

/-- The blocks that hold some bytes, each filled before the next begins. -/
def storedBlocks (content : Bytes) : Bytes :=
  if content.length ≤ maxStored then storedBytes true content
  else storedBytes false (content.take maxStored) ++ storedBlocks (content.drop maxStored)
termination_by content.length
decreasing_by simp [maxStored] at *; omega

/-- The stream that holds some bytes. -/
def deflate (content : Bytes) : Bytes :=
  0x78 :: 0x01 :: (storedBlocks content ++ (Word.bytes 4 (adler content)).reverse)

end BlockDoc.Zlib
