/-
# Locked frames

An archive is a header of eight bytes and an encrypted frame.  The header gives back the check
and the seed (`ofBytes?_append`), so unlocking starts the keystream of locking over and gets the
frame (`unlock_lock`).

Nothing else is unlocked.  A header holds a check and a seed and nothing more (`new_seed`), and the
cipher undoes itself, so locking the frame that came out with the seed of the header makes the same
archive again (`lock_unlock`).

A change of the encrypted frame is a change of the frame at the same place, since the keystream
is only added to it.  A short one changes the check of the frame, while a change of the stored
check leaves that of the frame as it was; either way the two differ, and nothing comes out
(`lock_tampered`).
-/
import BlockDoc.Archive.Basic
import BlockDoc.Proofs.Checksum.Burst
import BlockDoc.Proofs.Keystream.Cipher

namespace BlockDoc.Archive

open Keystream (Cipher)

/-! ## 1. The header -/

/-- The mask comes off when it is put on again. -/
theorem mask_mask {bytes : Bytes} (h : bytes.length ≤ 4) : mask (mask bytes) = bytes :=
  Bytes.xor_xor h

theorem length_mask {bytes : Bytes} (h : bytes.length = 4) : (mask bytes).length = 4 := by
  rw [mask, List.length_zipWith, h]
  rfl

/-- The four bytes of a word write that word. -/
theorem ofNat_value_bytes (w : UInt32) : UInt32.ofNat (Word.value (Word.bytes 4 w.toNat)) = w := by
  have hlt : w.toNat < Nat.pow 256 4 := w.toNat_lt
  rw [Word.value_bytes, Nat.mod_eq_of_lt hlt, UInt32.ofNat_toNat]

/-- Four bytes are those of the word that they write. -/
theorem bytes_ofNat_value {bytes : Bytes} (h : bytes.length = 4) :
    Word.bytes 4 (UInt32.ofNat (Word.value bytes)).toNat = bytes := by
  have hlt : Word.value bytes < 2 ^ 32 := Nat.lt_of_lt_of_eq (Word.value_lt bytes) (by rw [h]; rfl)
  rw [UInt32.toNat_ofNat', Nat.mod_eq_of_lt hlt, ← h, Word.bytes_value]

namespace Header

/-- **A header gives back its seed**, whatever the seed is. -/
@[simp] theorem seed_new (hash : UInt32) (seed : Int32) : (new hash seed).seed = seed := by
  have hlen : (Word.bytes 4 seed.toUInt32.toNat).length ≤ 4 := by simp
  rw [Header.seed, new, mask_mask hlen, ofNat_value_bytes, Int32.toInt32_toUInt32]

theorem length_maskedSeed_new (hash : UInt32) (seed : Int32) :
    (new hash seed).maskedSeed.length = 4 := length_mask (by simp)

theorem length_toBytes_new (hash : UInt32) (seed : Int32) :
    (new hash seed).toBytes.length = size := by
  rw [toBytes, List.length_append, length_maskedSeed_new, Word.length_bytes, size]

/-- Four bytes and four more are a header. -/
theorem ofBytes?_append {hash masked : Bytes} (hh : hash.length = 4) (hm : masked.length = 4)
    (rest : Bytes) :
    ofBytes? (hash ++ (masked ++ rest)) = some ⟨UInt32.ofNat (Word.value hash), masked⟩ := by
  have hlen : ¬ (hash ++ (masked ++ rest)).length < size := by
    simp only [List.length_append, hh, hm, size]
    omega
  rw [ofBytes?, if_neg hlen, List.take_left' hh, List.drop_left' hh, List.take_left' hm]

end Header

/-! ## 2. Unlocking -/

/-- Unlocking is enciphering behind the header, and comparing the checks. -/
theorem unlock_eq {data : Bytes} {header : Header} (h : Header.ofBytes? data = some header)
    {frame : Bytes}
    (hframe : ((Cipher.ofSeed header.seed).apply (data.drop Header.size)).1 = frame) :
    unlock data = if Crc.ofBytes frame = header.hash then .ok frame
      else .error (.hashMismatch header.hash (Crc.ofBytes frame)) := by
  simp only [unlock, h, hframe, Crc.verify]
  split <;> rfl

/-- What stands behind four bytes and a masked seed is enciphered with that seed. -/
theorem unlock_append {hash : Bytes} (hh : hash.length = 4) (check : UInt32) (seed : Int32)
    {rest frame : Bytes} (hframe : ((Cipher.ofSeed seed).apply rest).1 = frame) :
    unlock (hash ++ ((Header.new check seed).maskedSeed ++ rest)) =
      if Crc.ofBytes frame = UInt32.ofNat (Word.value hash) then .ok frame
      else .error (.hashMismatch (UInt32.ofNat (Word.value hash)) (Crc.ofBytes frame)) := by
  have hm := Header.length_maskedSeed_new check seed
  have hheader := Header.ofBytes?_append hh hm rest
  have hdrop : (hash ++ ((Header.new check seed).maskedSeed ++ rest)).drop Header.size = rest := by
    rw [← List.append_assoc]
    exact List.drop_left' (by rw [List.length_append, hh, hm, Header.size])
  refine unlock_eq hheader ?_
  have hseed : Header.seed ⟨UInt32.ofNat (Word.value hash), (Header.new check seed).maskedSeed⟩ =
      seed := Header.seed_new check seed
  rw [hdrop, hseed, hframe]

theorem lock_eq (frame : Bytes) (seed : Int32) :
    lock frame seed = Word.bytes 4 (Crc.ofBytes frame).toNat ++
      ((Header.new (Crc.ofBytes frame) seed).maskedSeed ++ ((Cipher.ofSeed seed).apply frame).1) :=
  List.append_assoc _ _ _

/-- The header of an archive holds the seed that it was locked with. -/
theorem ofBytes?_lock (frame : Bytes) (seed : Int32) :
    Header.ofBytes? (lock frame seed) = some (.new (Crc.ofBytes frame) seed) := by
  rw [lock_eq, Header.ofBytes?_append (by simp) (Header.length_maskedSeed_new _ _),
    ofNat_value_bytes]
  rfl

/-- **What was locked is unlocked.** -/
theorem unlock_lock (frame : Bytes) (seed : Int32) : unlock (lock frame seed) = .ok frame := by
  rw [lock_eq, unlock_append (by simp) _ _ (Cipher.apply_apply _ _), ofNat_value_bytes, if_pos rfl]

/-! ## 3. Locking what was unlocked -/

namespace Header

/-- **The header of some bytes** is their front, and there is one if they reach that far. -/
theorem ofBytes?_eq_some {data : Bytes} {header : Header} :
    ofBytes? data = some header ↔ header.maskedSeed.length = 4 ∧
      data = header.toBytes ++ data.drop size := by
  constructor
  · intro h
    rw [ofBytes?] at h
    split at h
    next => cases h
    next hsize =>
      cases h
      have hlong : 8 ≤ data.length := Nat.le_of_not_lt hsize
      have hhash : (data.take 4).length = 4 := by
        rw [List.length_take]
        omega
      have hmasked : ((data.drop 4).take 4).length = 4 := by
        rw [List.length_take, List.length_drop]
        omega
      refine ⟨hmasked, ?_⟩
      have hrest : data.drop size = (data.drop 4).drop 4 := by rw [List.drop_drop, size]
      rw [toBytes, bytes_ofNat_value hhash, hrest, List.append_assoc, List.take_append_drop,
        List.take_append_drop]
  · rintro ⟨hmasked, hdata⟩
    rw [hdata, toBytes, List.append_assoc, ofBytes?_append (by simp) hmasked, ofNat_value_bytes]

/-- **A header is made of its check and its seed.** -/
theorem new_seed {header : Header} (h : header.maskedSeed.length = 4) :
    new header.hash header.seed = header := by
  have hbytes : Word.bytes 4 header.seed.toUInt32.toNat = mask header.maskedSeed := by
    rw [seed, UInt32.toUInt32_toInt32]
    exact bytes_ofNat_value (length_mask h)
  rw [new, hbytes, mask_mask h.le]

end Header

/-- A frame is unlocked if and only if it is behind the cipher and has the stored check. -/
theorem unlock_eq_ok {data frame : Bytes} : unlock data = .ok frame ↔
    ∃ header, Header.ofBytes? data = some header ∧
      ((Cipher.ofSeed header.seed).apply (data.drop Header.size)).1 = frame ∧
      Crc.ofBytes frame = header.hash := by
  constructor
  · intro h
    cases hheader : Header.ofBytes? data with
    | none => simp only [unlock, hheader, reduceCtorEq] at h
    | some header =>
      rw [unlock_eq hheader rfl] at h
      split at h
      next hhash =>
        cases h
        exact ⟨header, rfl, rfl, hhash⟩
      next => cases h
  · rintro ⟨header, hheader, hframe, hhash⟩
    rw [unlock_eq hheader hframe, if_pos hhash]

/-- **Locking and unlocking undo each other.**  A locked frame is unlocked, and the header of the
archive has its seed.  A frame comes out of some bytes if and only if these are the archive of that
frame for the seed in their header.  And some frame comes out if and only if there are bytes enough
for a header and what is behind the cipher has the stored check. -/
theorem lock_unlock (frame data : Bytes) (seed : Int32) :
    (unlock (lock frame seed) = .ok frame ∧
      (Header.ofBytes? (lock frame seed)).map Header.seed = some seed) ∧
    (unlock data = .ok frame ↔
      ∃ header, Header.ofBytes? data = some header ∧ data = lock frame header.seed) ∧
    ((∃ frame, unlock data = .ok frame) ↔ Header.size ≤ data.length ∧
      ∃ header, Header.ofBytes? data = some header ∧
        Crc.ofBytes ((Cipher.ofSeed header.seed).apply (data.drop Header.size)).1 =
          header.hash) := by
  refine ⟨⟨unlock_lock frame seed, ?_⟩, ⟨fun h => ?_, ?_⟩, ⟨?_, ?_⟩⟩
  · rw [ofBytes?_lock, Option.map_some, Header.seed_new]
  · obtain ⟨header, hheader, rfl, hhash⟩ := unlock_eq_ok.mp h
    obtain ⟨hmasked, hdata⟩ := Header.ofBytes?_eq_some.mp hheader
    refine ⟨header, hheader, ?_⟩
    rw [lock, hhash, Header.new_seed hmasked, Cipher.apply_apply]
    exact hdata
  · rintro ⟨header, -, hdata⟩
    rw [hdata]
    exact unlock_lock frame header.seed
  · rintro ⟨frame, h⟩
    obtain ⟨header, hheader, rfl, hhash⟩ := unlock_eq_ok.mp h
    refine ⟨?_, header, hheader, hhash⟩
    by_contra hshort
    rw [Header.ofBytes?, if_pos (Nat.lt_of_not_le hshort)] at hheader
    cases hheader
  · rintro ⟨-, header, hheader, hhash⟩
    exact ⟨_, unlock_eq_ok.mpr ⟨header, hheader, rfl, hhash⟩⟩

/-! ## 4. Tampering -/

/-- Nothing comes out of an archive because its checks differ: no frame, and no document in
whatever format its stream may be. -/
def Rejected (data : Bytes) : Prop :=
  ∃ expected actual, expected ≠ actual ∧
    unlock data = .error (.hashMismatch expected actual) ∧
    ∀ z, parse data z = .error (.hashMismatch expected actual)

theorem rejected_append {hash : Bytes} (hh : hash.length = 4) (check : UInt32) (seed : Int32)
    {rest frame : Bytes} (hframe : ((Cipher.ofSeed seed).apply rest).1 = frame)
    (hne : Crc.ofBytes frame ≠ UInt32.ofNat (Word.value hash)) :
    Rejected (hash ++ ((Header.new check seed).maskedSeed ++ rest)) := by
  have hunlock := unlock_append hh check seed hframe
  rw [if_neg hne] at hunlock
  refine ⟨_, _, hne.symm, hunlock, fun z => ?_⟩
  rw [parse, hunlock]
  rfl

/-- **A cipher carries changes through**: a change of up to four neighbouring bytes of an
encrypted message changes the check of the message. -/
theorem ofBytes_apply_burst (c : Cipher) (front back : Bytes) {as bs : Bytes}
    (hlen : as.length = bs.length) (h4 : as.length ≤ 4) (hne : as ≠ bs) :
    Crc.ofBytes (c.apply (front ++ (as ++ back))).1 ≠
      Crc.ofBytes (c.apply (front ++ (bs ++ back))).1 := by
  simp only [Cipher.apply_append]
  rw [Cipher.apply_snd_congr hlen]
  exact Crc.ofBytes_burst (by simpa using hlen) (by simpa using h4) (Cipher.apply_ne hne)

/-- **No small change of an archive goes unnoticed.**  Neither adding a pattern that is not zero
to up to four neighbouring bytes of the encrypted frame, nor any other bytes in the place of the
stored check, lets anything come out. -/
theorem lock_tampered (frame : Bytes) (seed : Int32) :
    (∀ front middle back pattern : Bytes, lock frame seed = front ++ (middle ++ back) →
      Header.size ≤ front.length → middle.length ≤ 4 → pattern.length = middle.length →
      (∃ b ∈ pattern, b ≠ 0) → Rejected (front ++ (Bytes.xor middle pattern ++ back))) ∧
    ∀ hash : Bytes, hash.length = 4 → hash ≠ (lock frame seed).take 4 →
      Rejected (hash ++ (lock frame seed).drop 4) := by
  have hhash : (Word.bytes 4 (Crc.ofBytes frame).toNat).length = 4 := by simp
  have hframe := Cipher.apply_apply (Cipher.ofSeed seed) frame
  refine ⟨fun front middle back pattern hlock hfront h4 hpattern hpos => ?_, fun hash hh hne => ?_⟩
  · -- the header lies in front of the change
    set header := (Header.new (Crc.ofBytes frame) seed).toBytes with hheader
    have hsize : header.length = Header.size := Header.length_toBytes_new _ _
    obtain ⟨rest, rfl⟩ : header <+: front :=
      List.prefix_of_prefix_length_le ⟨_, hlock⟩ (List.prefix_append _ _) (hsize ▸ hfront)
    have hcipher : ((Cipher.ofSeed seed).apply frame).1 = rest ++ (middle ++ back) := by
      rw [List.append_assoc] at hlock
      exact List.append_cancel_left hlock
    rw [hcipher] at hframe
    have hchange := ofBytes_apply_burst (Cipher.ofSeed seed) rest back
      (show (Bytes.xor middle pattern).length = middle.length by simp [hpattern])
      (by simp [hpattern, h4]) (Bytes.xor_ne hpattern hpos)
    rw [hframe] at hchange
    rw [hheader, Header.toBytes, List.append_assoc, List.append_assoc]
    refine rejected_append hhash _ seed rfl ?_
    rw [ofNat_value_bytes]
    exact hchange
  · rw [lock_eq, List.drop_left' hhash]
    rw [lock_eq, List.take_left' hhash] at hne
    refine rejected_append hh _ seed hframe fun hsame => hne ?_
    rw [hsame, bytes_ofNat_value hh]

/-- The lowest bit of the last byte flipped, and another check stored. -/
theorem lock_tampered_sample :
    lock [0x5A, 0x4C] (-12345) =
        [0x9A, 0xAA, 0xE7, 0x7E, 0x4E, 0x09, 0x17, 0x4E, 0x95] ++ ([0xB2] ++ []) ∧
      Rejected ([0x9A, 0xAA, 0xE7, 0x7E, 0x4E, 0x09, 0x17, 0x4E, 0x95] ++
        (Bytes.xor [0xB2] [0x01] ++ [])) ∧
      Rejected ([0x9B, 0xAA, 0xE7, 0x7E] ++ (lock [0x5A, 0x4C] (-12345)).drop 4) := by
  have hlock : lock [0x5A, 0x4C] (-12345) =
      [0x9A, 0xAA, 0xE7, 0x7E, 0x4E, 0x09, 0x17, 0x4E, 0x95] ++ ([0xB2] ++ []) := by decide +kernel
  obtain ⟨hburst, hcheck⟩ := lock_tampered [0x5A, 0x4C] (-12345)
  refine ⟨hlock, ?_, ?_⟩
  · exact hburst _ _ _ [0x01] hlock (by decide) (by decide) rfl ⟨0x01, by decide, by decide⟩
  · exact hcheck [0x9B, 0xAA, 0xE7, 0x7E] rfl (by rw [hlock]; decide)

end BlockDoc.Archive
