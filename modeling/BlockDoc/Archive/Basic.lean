/-
# Archives

    archive := check of the frame (4 bytes), masked seed (4 bytes), encrypted frame

An archive is a compressed frame under a keystream.  The seed of the keystream is stored with
the archive, under a mask; the check is that of the frame before it was encrypted, so nothing is
taken out of an archive that was changed.  The frame holds a document in the grouped layout.
-/
import BlockDoc.Archive.Frame
import BlockDoc.Binary.Writer
import BlockDoc.Keystream

namespace BlockDoc.Archive

/-- The mask over the stored seed. -/
def seedMask : Bytes := [0x89, 0xC6, 0xE8, 0xB1]

/-- Put the mask over four bytes, or take it off. -/
def mask (bytes : Bytes) : Bytes := bytes.zipWith (· ^^^ ·) seedMask

/-- What stands in front of the encrypted frame. -/
structure Header where
  /-- The check of the frame. -/
  hash : UInt32
  /-- The seed under its mask. -/
  maskedSeed : Bytes
  deriving DecidableEq

namespace Header

/-- The size of a header. -/
def size : Nat := 8

/-- The header for a check and a seed. -/
def new (hash : UInt32) (seed : Int32) : Header :=
  ⟨hash, mask (Word.bytes 4 seed.toUInt32.toNat)⟩

/-- The seed. -/
def seed (h : Header) : Int32 := (UInt32.ofNat (Word.value (mask h.maskedSeed))).toInt32

/-- The bytes of a header. -/
def toBytes (h : Header) : Bytes := Word.bytes 4 h.hash.toNat ++ h.maskedSeed

/-- The header at the front of some bytes. -/
def ofBytes? (bytes : Bytes) : Option Header :=
  if bytes.length < size then none
  else some ⟨UInt32.ofNat (Word.value (bytes.take 4)), (bytes.drop 4).take 4⟩

end Header

/-- Encrypt a frame. -/
def lock (frame : Bytes) (seed : Int32) : Bytes :=
  (Header.new (Crc.ofBytes frame) seed).toBytes ++ ((Keystream.Cipher.ofSeed seed).apply frame).1

/-- Decrypt an archive and check what comes out. -/
def unlock (data : Bytes) : Except Error Bytes :=
  match Header.ofBytes? data with
  | none => .error (.archiveTooShort data.length)
  | some header => do
    let frame := ((Keystream.Cipher.ofSeed header.seed).apply (data.drop Header.size)).1
    Crc.verify header.hash frame
    .ok frame

/-- The document in an archive. -/
def parse (data : Bytes) (z : Compression := .zlib) : Except Error Document := do
  let frame ← unlock data
  let payload ← Frame.decompress frame z
  Binary.parse .grouped payload

/-- The archive of a document. -/
def build (d : Document) (seed : Int32) (z : Compression := .zlib) : Except Error Bytes := do
  let payload ← Binary.build .grouped d
  let frame ← Frame.compress payload z
  .ok (lock frame seed)

end BlockDoc.Archive
