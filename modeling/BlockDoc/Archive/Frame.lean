/-
# Compressed frames

    frame := magic (4 bytes), size (4 bytes), compressed stream

Two magics are accepted and the first of them is written.  The recorded size is told for
information only; what the stream expands to is what counts.  How a stream is compressed is a
parameter of everything that has to do with frames.
-/
import BlockDoc.Zlib.Inflate
import BlockDoc.Zlib.Store

namespace BlockDoc

/-- A format of compressed streams. -/
structure Compression where
  /-- A stream that holds some bytes. -/
  deflate : Bytes → Bytes
  /-- The bytes that a stream holds. -/
  inflate : Bytes → Except InflateFailure Bytes

/-- The format in use. -/
def Compression.zlib : Compression := ⟨Zlib.deflate, Zlib.inflate⟩

namespace Frame

/-- The magic that is written: `ZL01`. -/
def magic : Bytes := [0x5A, 0x4C, 0x30, 0x31]

/-- The other magic that is accepted: `ZL02`. -/
def magicAlternate : Bytes := [0x5A, 0x4C, 0x30, 0x32]

/-- The size of magic and recorded size. -/
def headerSize : Nat := 8

/-- The largest payload that is accepted, 256 MiB. -/
def maxPayload : Nat := 256 * 1024 * 1024

/-- Put some bytes into a frame. -/
def compress (payload : Bytes) (z : Compression := .zlib) : Except Error Bytes :=
  if payload.length < 0x100000000 then
    .ok (magic ++ Word.bytes 4 payload.length ++ z.deflate payload)
  else .error (.payloadTooLarge payload.length)

/-- Take the bytes out of a frame. -/
def decompress (frame : Bytes) (z : Compression := .zlib) : Except Error Bytes :=
  if frame.length < headerSize then .error (.unexpectedEof .frameHeader)
  else
    let found := frame.take 4
    if found ≠ magic ∧ found ≠ magicAlternate then .error (.invalidMagic found)
    else match z.inflate (frame.drop headerSize) with
      | .error e => .error (.inflate e)
      | .ok payload =>
        if payload.length > maxPayload then .error (.inflate (.tooLarge maxPayload))
        else .ok payload

end Frame

end BlockDoc
