/-
# Building and opening an archive

An archive is put together in three layers, and opening it takes them off again: the encoding of
the document (`Binary.parse_encoding`), the frame (`Frame.decompress_compress`), and the lock
(`unlock_lock`).  All that has to be known about the streams inside is that a stream is expanded
to what it holds (`Compression.Inverts`), which is true of the format in use
(`Compression.zlib_inverts`).
-/
import BlockDoc.Proofs.Archive.Lock
import BlockDoc.Proofs.Binary.RoundTrip
import BlockDoc.Proofs.Zlib.Stored

namespace BlockDoc

/-! ## 1. Frames -/

/-- Every stream is expanded to what it holds. -/
def Compression.Inverts (z : Compression) : Prop :=
  ∀ payload, z.inflate (z.deflate payload) = .ok payload

theorem Compression.zlib_inverts : Compression.zlib.Inverts := Zlib.inflate_deflate

/-- **What is put into a frame is taken out of it.** -/
theorem Frame.decompress_compress {z : Compression} (hz : z.Inverts) {payload : Bytes}
    (h : payload.length ≤ maxPayload) :
    ∃ frame, compress payload z = .ok frame ∧ decompress frame z = .ok payload := by
  have hfits : payload.length < 0x100000000 := Nat.lt_of_le_of_lt h (by decide)
  refine ⟨magic ++ Word.bytes 4 payload.length ++ z.deflate payload, if_pos hfits, ?_⟩
  have hmagic : magic.length = 4 := rfl
  have hsize : (magic ++ Word.bytes 4 payload.length).length = headerSize := by
    rw [List.length_append, hmagic, Word.length_bytes, headerSize]
  have hlong : ¬ (magic ++ Word.bytes 4 payload.length ++ z.deflate payload).length < headerSize := by
    rw [List.length_append, hsize]
    omega
  have hfound : (magic ++ Word.bytes 4 payload.length ++ z.deflate payload).take 4 = magic := by
    rw [List.append_assoc, List.take_left' hmagic]
  rw [decompress, if_neg hlong, hfound, List.drop_left' hsize, hz payload]
  simp only [ne_eq, not_true_eq_false, false_and, if_false, if_neg (Nat.not_lt_of_le h)]

/-! ## 2. Archives -/

namespace Archive

open Binary (Encodable Clean)

/-- **A document is read back from its archive**, whatever the seed is, and the header of the
archive gives back the seed.  The document has neither comments nor U+0000, and its encoding is
no larger than a frame may be. -/
theorem archive_parse {z : Compression} (hz : z.Inverts) (seed : Int32) {d : Document}
    (hd : d.Built) (he : Encodable d) (hc : Clean d) (hcomment : d.Each fun x => x.comment = "")
    (hsize : ∀ payload, Binary.build .grouped d = .ok payload →
      payload.length ≤ Frame.maxPayload) :
    ∃ data header d', build d seed z = .ok data ∧ Header.ofBytes? data = some header ∧
      header.seed = seed ∧ parse data z = .ok d' ∧ (d' == d) = true := by
  have hpayload := Binary.build_eq he hd .grouped
  obtain ⟨d', hparse, hchosen⟩ := Binary.parse_encoding he hc hd .grouped
  obtain ⟨frame, hcompress, hdecompress⟩ := Frame.decompress_compress hz (hsize _ hpayload)
  have houtline : d'.outline .chosen = d.outline .chosen := by
    rw [hchosen, Outline.bare_eq_self]
    exact hcomment.chosen hd fun x hx => by rwa [Item.comment_arranged]
  refine ⟨lock frame seed, _, d', ?_, ofBytes?_lock frame seed, Header.seed_new _ seed, ?_,
    decide_eq_true houtline⟩
  · rw [build, hpayload, ok_bind, hcompress, ok_bind]
  · rw [parse, unlock_lock, ok_bind, hdecompress, ok_bind, hparse]

/-- A document with an unsorted block in it. -/
def sample : Document :=
  .ofItems true [.param "name" "Rigel" "",
    .block "weapons" false [.param "slot" "laser" "", .param "slot" "missile" ""] "",
    .param "hull" "200" ""]

/-- A small document is read back from its archive with the least of all seeds. -/
theorem archive_parse_sample : Compression.zlib.Inverts ∧ sample.Built ∧ Encodable sample ∧
    Clean sample ∧ (sample.Each fun x => x.comment = "") ∧
    (∀ payload, Binary.build .grouped sample = .ok payload →
      payload.length ≤ Frame.maxPayload) ∧
    ∃ data header d', build sample (-2147483648) = .ok data ∧
      Header.ofBytes? data = some header ∧ header.seed = -2147483648 ∧
      parse data = .ok d' ∧ (d' == sample) = true := by
  have hd : sample.Built := Document.built_ofItems _ _
  have he : Encodable sample := by
    constructor <;> rw [sample, Document.outline_ofItems] <;> decide
  have hc : Clean sample := by
    rw [Clean, Document.Each, sample, Document.outline_ofItems]
    decide
  have hcomment : sample.Each fun x => x.comment = "" := by
    rw [Document.Each, sample, Document.outline_ofItems]
    decide
  have hsize : ∀ payload, Binary.build .grouped sample = .ok payload →
      payload.length ≤ Frame.maxPayload := by
    intro payload hpayload
    rw [Binary.build_eq he hd .grouped] at hpayload
    cases hpayload
    rw [Binary.Layout.order, hd.outline_chosen, Binary.length_encoding_arranged, sample,
      Document.outline_ofItems]
    decide +kernel
  exact ⟨Compression.zlib_inverts, hd, he, hc, hcomment, hsize,
    archive_parse Compression.zlib_inverts _ hd he hc hcomment hsize⟩

end Archive

end BlockDoc
