import Mathlib.Data.Nat.ModEq
import PostgreSieve.WalRecord.Decode

/-! # Decoding stays inside of memory

The headers are read within the record whatever it contains. The data that they announce is inside
of the record if their lengths add up to less than `2 ^ 32`, since the total is kept in 32 bits. A
page is restored within its bounds if the hole of the image is inside of the page.
-/

namespace PostgreSieve.WalRecord

open List Nat

open Wal (maxAlign sizeOfXLogRecord)

variable {record : List UInt8} {capacity : ℕ}
variable {bytes : List UInt8} {blk : DecodedBkpBlock} {blockId : ℕ} {length : ℕ}
variable {decoded : DecodedXLogRecord}

theorem readBytes_safe {ptr size : ℕ} (h : ptr + size ≤ bytes.length) :
    Safe (fun result => result.length = size) (readBytes bytes ptr size) := by
  rw [readBytes, if_pos h, safe_ok, length_take, length_drop]
  omega

theorem writeBytes_safe {out size : ℕ} (h : out + size ≤ capacity) :
    Safe (fun _ => True) (writeBytes capacity out size) := by
  rw [writeBytes, if_pos h]
  trivial

/-! ## Headers -/

/-- From `h` on, headers that announce `length` bytes of data have been read. -/
structure Advances (record : List UInt8) (h h' : Headers) (length : ℕ) : Prop where
  position : h'.ptr + h'.remaining = record.length
  remaining_le : h'.remaining ≤ h.remaining
  decoded : h'.decoded = h.decoded
  datatotal : h'.datatotal ≡ h.datatotal + length [MOD 2 ^ 32]

variable {h h' h'' : Headers} {m n size : ℕ}

theorem Advances.trans (hm : Advances record h h' m) (hn : Advances record h' h'' n) :
    Advances record h h'' (m + n) where
  position := hn.position
  remaining_le := hn.remaining_le.trans hm.remaining_le
  decoded := hn.decoded.trans hm.decoded
  datatotal := by
    rw [← add_assoc]
    exact hn.datatotal.trans (hm.datatotal.add_right n)

theorem Advances.refl (h : Headers) (hpos : h.ptr + h.remaining = record.length) :
    Advances record h h 0 :=
  ⟨hpos, le_rfl, rfl, .rfl⟩

theorem Advances.addData (hm : Advances record h h' m) : Advances record h (h'.addData n) (m + n) :=
  hm.trans ⟨hm.position, le_rfl, rfl, mod_modEq _ _⟩

theorem copyHeaderField_safe (hpos : h.ptr + h.remaining = record.length) :
    Safe (fun x => x.1.length = size ∧ Advances record h x.2 0 ∧ x.2.remaining + size = h.remaining)
      (copyHeaderField record size h) := by
  apply Safe.unless
  intro hsize
  apply Safe.bind (readBytes_safe (by omega))
  intro bytes hbytes
  exact ⟨hbytes, ⟨by grind, sub_le _ _, rfl, .rfl⟩, by grind⟩

theorem Advances.copyHeaderField (hm : Advances record h h' m) :
    Safe (fun x => x.1.length = size ∧ Advances record h x.2 m) (copyHeaderField record size h') :=
  (copyHeaderField_safe hm.position).imp fun _ hx => ⟨hx.1, hm.trans hx.2.1⟩

theorem littleEndian_lt (bytes : List UInt8) : littleEndian bytes < 256 ^ bytes.length := by
  induction bytes with
  | nil => decide
  | cons byte bytes ih =>
    have := byte.toNat_lt
    rw [length_cons, pow_succ]
    change byte.toNat + 256 * littleEndian bytes < _
    omega

/-- What is known of an image after its header has been read. -/
structure ImageOk (blk : DecodedBkpBlock) : Prop where
  checked : checkImageHeader blk = .ok ()
  bimgLen_lt : blk.bimgLen < 2 ^ 16
  plain : blk.compressed = false → blk.holeLength = (blcksz + 2 ^ 16 - blk.bimgLen) % 2 ^ 16

theorem decodeHoleLength_safe (hm : Advances record h h' m) :
    Safe (fun x => Advances record h x.2 m ∧
        (blk.compressed = false → x.1 = (blcksz + 2 ^ 16 - blk.bimgLen) % 2 ^ 16))
      (decodeHoleLength record blk h') := by
  rw [decodeHoleLength]
  split_ifs with hc hhole
  · apply Safe.bind hm.copyHeaderField
    rintro ⟨bytes, h₁⟩ ⟨-, h₁⟩
    exact ⟨h₁, fun hplain => absurd hc (by simp [hplain])⟩
  · exact ⟨hm, fun hplain => absurd hc (by simp [hplain])⟩
  · exact ⟨hm, fun _ => rfl⟩

theorem checkImageHeader_safe (blk : DecodedBkpBlock) :
    Safe (fun _ => True) (checkImageHeader blk) := by
  rw [checkImageHeader]
  split_ifs <;> trivial

theorem decodeImageHeader_safe (hm : Advances record h h' m) :
    Safe (fun x => Advances record h x.2 (m + x.1.bimgLen) ∧ ImageOk x.1 ∧
        x.1.flags = blk.flags ∧ x.1.dataLen = blk.dataLen)
      (decodeImageHeader record blk h') := by
  apply Safe.bind hm.copyHeaderField
  rintro ⟨bimgLen, h₁⟩ ⟨hlen, h₁⟩
  apply Safe.bind h₁.copyHeaderField
  rintro ⟨holeOffset, h₂⟩ ⟨-, h₂⟩
  apply Safe.bind h₂.copyHeaderField
  rintro ⟨bimgInfo, h₃⟩ ⟨-, h₃⟩
  apply Safe.bind (decodeHoleLength_safe h₃)
  rintro ⟨holeLength, h₄⟩ ⟨h₄, hplain⟩
  have hlt : littleEndian bimgLen < 2 ^ 16 := by
    have := littleEndian_lt bimgLen
    rwa [hlen] at this
  apply Safe.bind (checkImageHeader_safe _).eq_ok
  rintro _ ⟨hchecked, -⟩
  exact ⟨h₄.addData, ⟨hchecked, hlt, hplain⟩, rfl, rfl⟩

theorem decodeLocator_safe (hm : Advances record h h' m) :
    Safe (fun x => Advances record h x.2 m ∧ ∃ rlocator, x.1 = { blk with rlocator })
      (decodeLocator record blk h') := by
  rw [decodeLocator]
  split_ifs
  · split
    · trivial
    · exact ⟨hm, _, rfl⟩
  · apply Safe.bind hm.copyHeaderField
    rintro ⟨rlocator, h₁⟩ ⟨-, h₁⟩
    exact ⟨⟨h₁.position, h₁.remaining_le, h₁.decoded, h₁.datatotal⟩, _, rfl⟩

/-- The bytes that follow the headers for a block. -/
def DecodedBkpBlock.payload (blk : DecodedBkpBlock) : ℕ :=
  (if blk.hasImage then blk.bimgLen else 0) + if blk.hasData then blk.dataLen else 0

def payload (blks : List DecodedBkpBlock) : ℕ := (blks.map (·.payload)).sum

theorem decodeImage_safe (hm : Advances record h h' blk.dataLen)
    (hlen : (if blk.hasData then blk.dataLen else 0) = blk.dataLen) :
    Safe (fun x => Advances record h x.2 x.1.payload ∧ (x.1.hasImage → ImageOk x.1))
      (decodeImage record blk h') := by
  rw [decodeImage]
  split_ifs with himage
  · apply (decodeImageHeader_safe hm).imp
    rintro ⟨blk', h₁⟩ ⟨ha, hok, hflags, hdata⟩
    have hpayload : blk'.payload = blk.dataLen + blk'.bimgLen := by
      have himage' : blk'.hasImage = true := (congrArg (testBit · 4) hflags).trans himage
      have hdata' : blk'.hasData = blk.hasData := congrArg (testBit · 5) hflags
      rw [DecodedBkpBlock.payload, if_pos himage', hdata', hdata, hlen, add_comm]
    rw [hpayload]
    exact ⟨ha, fun _ => hok⟩
  · have hpayload : blk.payload = blk.dataLen := by
      simp [DecodedBkpBlock.payload, himage, hlen]
    exact ⟨hpayload.symm ▸ hm, fun hi => absurd hi himage⟩

/-- A step of the loop for a block reference. -/
theorem decodeBlock_safe (hpos : h.ptr + h.remaining = record.length)
    (hspace : offsetOfBlocks + sizeOfDecodedBkpBlock * blockId + sizeOfDecodedBkpBlock ≤ capacity) :
    Safe (fun h' => h.decoded.nblocks ≤ blockId ∧ h'.ptr + h'.remaining = record.length ∧
        h'.remaining ≤ h.remaining ∧ ∃ blk : DecodedBkpBlock, (blk.hasImage → ImageOk blk) ∧
          h'.datatotal ≡ h.datatotal + blk.payload [MOD 2 ^ 32] ∧
          h'.decoded = { h.decoded with
            nblocks := blockId + 1, blocks := h.decoded.blocks ++ [blk] })
      (decodeBlock record capacity blockId h) := by
  apply Safe.unless
  intro hid
  apply Safe.bind (writeBytes_safe hspace)
  intro _ _
  apply Safe.bind (Advances.refl h hpos).copyHeaderField
  rintro ⟨flags, h₁⟩ ⟨-, ha₁⟩
  apply Safe.bind ha₁.copyHeaderField
  rintro ⟨dataLen, h₂⟩ ⟨-, ha₂⟩
  apply Safe.unless
  intro _
  apply Safe.unless
  intro hnodata
  have hdata : Advances record h (h₂.addData (littleEndian dataLen)) (littleEndian dataLen) := by
    simpa using ha₂.addData
  apply Safe.bind (decodeImage_safe hdata ?_)
  · rintro ⟨blk, h₃⟩ ⟨ha₃, hok⟩
    apply Safe.bind (decodeLocator_safe ha₃)
    rintro ⟨_, h₄⟩ ⟨ha₄, rlocator, rfl⟩
    apply Safe.bind ha₄.copyHeaderField
    rintro ⟨blkno, h₅⟩ ⟨-, ha₅⟩
    refine ⟨by omega, ha₅.position, ha₅.remaining_le,
      { blk with rlocator, blkno := littleEndian blkno }, fun hi => ?_, ha₅.datatotal, ?_⟩
    · obtain ⟨hchecked, hlt, hplain⟩ := hok hi
      exact ⟨hchecked, hlt, hplain⟩
    · rw [← ha₅.decoded]
  · split_ifs with hflag
    · rfl
    · exact .symm (by simpa [hflag] using hnodata)

/-! ## The loop -/

/-- The state of the loop. The data lengths are totalled modulo `2 ^ 32`. -/
structure Parsed (record : List UInt8) (h : Headers) : Prop where
  position : h.ptr + h.remaining = record.length
  used : h.decoded.blocks.length ≤ h.decoded.nblocks
  nblocks_le : h.decoded.nblocks ≤ xlrMaxBlockId + 1
  images : ∀ blk ∈ h.decoded.blocks, blk.hasImage → ImageOk blk
  datatotal : h.datatotal ≡ payload h.decoded.blocks + h.decoded.mainDataLen [MOD 2 ^ 32]

variable {fuel : ℕ}

theorem Parsed.advances (hp : Parsed record h) (ha : Advances record h h' 0) : Parsed record h' := by
  obtain ⟨hpos, hle, hdecoded, hdatatotal⟩ := ha
  refine ⟨hpos, ?_, ?_, ?_, ?_⟩ <;> rw [hdecoded]
  · exact hp.used
  · exact hp.nblocks_le
  · exact hp.images
  · exact hdatatotal.trans hp.datatotal

theorem Parsed.setMainDataLen (hp : Parsed record h) (hmain : h.decoded.mainDataLen = 0)
    (bytes : List UInt8) : Parsed record (setMainDataLen bytes h) where
  position := hp.position
  used := hp.used
  nblocks_le := hp.nblocks_le
  images := hp.images
  datatotal := by
    have hdatatotal := hp.datatotal
    rw [hmain, add_zero] at hdatatotal
    exact (mod_modEq _ _).trans (hdatatotal.add_right _)

theorem Parsed.block (hp : Parsed record h) (hid : blockId ≤ xlrMaxBlockId)
    (hspace : decodeXLogRecordRequiredSpace 0 ≤ capacity) :
    Safe (fun h' => Parsed record h' ∧ h'.remaining ≤ h.remaining ∧
      h'.decoded.mainDataLen = h.decoded.mainDataLen) (decodeBlock record capacity blockId h) := by
  have hblock : offsetOfBlocks + sizeOfDecodedBkpBlock * blockId + sizeOfDecodedBkpBlock
      ≤ capacity := by
    simp only [decodeXLogRecordRequiredSpace, offsetOfBlocks, sizeOfDecodedBkpBlock, xlrMaxBlockId]
      at *
    omega
  apply (decodeBlock_safe hp.position hblock).imp
  rintro h' ⟨hnew, hpos, hle, blk, hok, hdatatotal, hdecoded⟩
  refine ⟨⟨hpos, ?_, ?_, ?_, ?_⟩, hle, ?_⟩ <;> rw [hdecoded]
  · have := hp.used
    simp
    omega
  · exact succ_le_succ hid
  · exact forall_mem_append.2 ⟨hp.images, forall_mem_singleton.2 hok⟩
  · have hsum : payload (h.decoded.blocks ++ [blk]) = payload h.decoded.blocks + blk.payload := by
      simp [payload]
    rw [hsum, add_right_comm]
    exact hdatatotal.trans (hp.datatotal.add_right _)

theorem decodeHeaders_safe (hspace : decodeXLogRecordRequiredSpace 0 ≤ capacity)
    (hp : Parsed record h) (hmain : h.decoded.mainDataLen = 0) (hfuel : h.remaining < fuel) :
    Safe (Parsed record) (decodeHeaders record capacity fuel h) := by
  induction fuel generalizing h with
  | zero => omega
  | succ fuel ih =>
    rw [decodeHeaders]
    split_ifs with hloop
    · apply Safe.bind (copyHeaderField_safe hp.position)
      rintro ⟨id, h₁⟩ ⟨-, ha₁, hrem⟩
      dsimp only at ha₁ hrem ⊢
      have hp₁ := hp.advances ha₁
      have hmain₁ : h₁.decoded.mainDataLen = 0 := by rw [ha₁.decoded, hmain]
      have hfield {size : ℕ} : Safe (fun x : List UInt8 × Headers => Parsed record x.2 ∧
          x.2.decoded.mainDataLen = 0 ∧ x.2.remaining < fuel) (copyHeaderField record size h₁) := by
        apply (copyHeaderField_safe hp₁.position).imp
        rintro ⟨bytes, h₂⟩ ⟨-, ha₂, -⟩
        have hle := ha₂.remaining_le
        exact ⟨hp₁.advances ha₂, by rw [ha₂.decoded, hmain₁], by omega⟩
      split_ifs with h255 h254 h253 h252 hid
      · apply Safe.bind hfield
        rintro ⟨bytes, h₂⟩ ⟨hp₂, hmain₂, -⟩
        exact hp₂.setMainDataLen hmain₂ bytes
      · apply Safe.bind hfield
        rintro ⟨bytes, h₂⟩ ⟨hp₂, hmain₂, -⟩
        exact hp₂.setMainDataLen hmain₂ bytes
      · apply Safe.bind hfield
        rintro ⟨bytes, h₂⟩ ⟨⟨hpos, hused, hn, himages, htotal⟩, hmain₂, hrem₂⟩
        exact ih ⟨hpos, hused, hn, himages, htotal⟩ hmain₂ hrem₂
      · apply Safe.bind hfield
        rintro ⟨bytes, h₂⟩ ⟨⟨hpos, hused, hn, himages, htotal⟩, hmain₂, hrem₂⟩
        exact ih ⟨hpos, hused, hn, himages, htotal⟩ hmain₂ hrem₂
      · apply Safe.bind (hp₁.block hid hspace)
        rintro h₂ ⟨hp₂, hle, hmain₂⟩
        exact ih hp₂ (hmain₂.trans hmain₁) (by omega)
      · trivial
    · exact hp

theorem parseHeaders_safe (hlen : sizeOfXLogRecord ≤ record.length)
    (htot : littleEndian (record.take 4) = record.length)
    (hspace : decodeXLogRecordRequiredSpace 0 ≤ capacity) :
    Safe (fun h => Parsed record h ∧ h.remaining = h.datatotal) (parseHeaders record capacity) := by
  have hheader : offsetOfBlocks ≤ capacity := by
    simp only [decodeXLogRecordRequiredSpace, offsetOfBlocks] at *
    omega
  apply Safe.bind (writeBytes_safe (by omega))
  intro _ _
  have hread : readBytes record 0 sizeOfXLogRecord = .ok (record.take sizeOfXLogRecord) := by
    rw [readBytes, if_pos (by omega), drop_zero]
  rw [hread]
  have hfour : (record.take sizeOfXLogRecord).take 4 = record.take 4 := by
    rw [take_take]
    rfl
  change Safe _ (decodeHeaders _ _ _ _ >>= _)
  rw [hfour, htot]
  apply Safe.bind (decodeHeaders_safe hspace ⟨?_, ?_, ?_, ?_, ?_⟩ rfl (lt_succ_self _))
  · intro h hp
    apply Safe.unless
    intro heq
    exact ⟨hp, not_not.1 heq⟩
  · exact Nat.add_sub_cancel' hlen
  · exact le_rfl
  · exact zero_le _
  · exact nofun
  · exact .rfl

/-! ## The data -/

variable {c : Cursor}

theorem copyData_safe (hptr : c.ptr + length ≤ record.length) (hout : c.out + length ≤ capacity) :
    Safe (fun x => x.1.length = length ∧ x.2 = ⟨c.ptr + length, c.out + length⟩)
      (copyData record capacity length c) := by
  apply Safe.bind (readBytes_safe hptr)
  intro bytes hbytes
  apply Safe.bind (writeBytes_safe hout)
  intro _ _
  exact ⟨hbytes, rfl⟩

theorem maxAlign_le (n : ℕ) : maxAlign n ≤ n + 7 := by
  rw [maxAlign]
  omega

/-- A block that has been copied. -/
def Copied (blk blk' : DecodedBkpBlock) : Prop :=
  ∃ bkpImage data, blk' = { blk with bkpImage, data } ∧
    (blk.hasImage → bkpImage.length = blk.bimgLen)

theorem copyImage_safe (hlength : length = if blk.hasImage then blk.bimgLen else 0)
    (hptr : c.ptr + length ≤ record.length) (hout : c.out + length ≤ capacity) :
    Safe (fun x => Copied blk x.1 ∧ x.2 = ⟨c.ptr + length, c.out + length⟩)
      (copyImage record capacity blk c) := by
  rw [copyImage]
  split_ifs at hlength ⊢ with himage
  · subst hlength
    apply Safe.bind (copyData_safe hptr hout)
    rintro ⟨bkpImage, c'⟩ ⟨hlen, hc⟩
    exact ⟨⟨bkpImage, blk.data, rfl, fun _ => hlen⟩, hc⟩
  · subst hlength
    exact ⟨⟨blk.bkpImage, blk.data, rfl, fun h => absurd h himage⟩, rfl⟩

theorem copyBlock_safe (hptr : c.ptr + blk.payload ≤ record.length)
    (hout : c.out + blk.payload + 7 ≤ capacity) :
    Safe (fun x => Copied blk x.1 ∧ x.2.ptr = c.ptr + blk.payload ∧
      x.2.out ≤ c.out + blk.payload + 7) (copyBlock record capacity blk c) := by
  rw [DecodedBkpBlock.payload] at *
  generalize hlength : (if blk.hasImage then blk.bimgLen else 0) = length at *
  apply Safe.bind (copyImage_safe hlength.symm (by omega) (by omega))
  rintro ⟨_, _⟩ ⟨⟨bkpImage, data, rfl, hlen⟩, rfl⟩
  have hdata : DecodedBkpBlock.hasData { blk with bkpImage, data } = blk.hasData := rfl
  dsimp only
  rw [hdata]
  split_ifs at hptr hout ⊢ with hflag
  · have hpad := maxAlign_le (c.out + length)
    apply Safe.bind (copyData_safe (by grind) (by grind))
    rintro ⟨data, _⟩ ⟨-, rfl⟩
    exact ⟨⟨bkpImage, data, rfl, hlen⟩, by grind, by grind⟩
  · exact ⟨⟨bkpImage, data, rfl, hlen⟩, rfl, by grind⟩

theorem copyBlocks_safe {blks : List DecodedBkpBlock} (hptr : c.ptr + payload blks ≤ record.length)
    (hout : c.out + payload blks + 7 * blks.length ≤ capacity) :
    Safe (fun x => (∀ blk' ∈ x.1, ∃ blk ∈ blks, Copied blk blk') ∧ x.2.ptr = c.ptr + payload blks ∧
      x.2.out ≤ c.out + payload blks + 7 * blks.length) (copyBlocks record capacity blks c) := by
  induction blks generalizing c with
  | nil => exact ⟨nofun, rfl, le_rfl⟩
  | cons blk blks ih =>
    have hcons : payload (blk :: blks) = blk.payload + payload blks := sum_cons
    simp only [hcons, length_cons] at hptr hout ⊢
    apply Safe.bind (copyBlock_safe (by omega) (by omega))
    rintro ⟨blk', c₁⟩ ⟨hcopied, hptr₁, hout₁⟩
    dsimp only at hptr₁ hout₁
    apply Safe.bind (ih (by omega) (by omega))
    rintro ⟨blks', c₂⟩ ⟨hcopies, hptr₂, hout₂⟩
    dsimp only at hptr₂ hout₂
    refine ⟨?_, by dsimp only; omega, by dsimp only; omega⟩
    rintro b (_ | ⟨_, hb⟩)
    · exact ⟨blk, mem_cons_self, hcopied⟩
    · obtain ⟨b', hb', hcopied⟩ := hcopies b hb
      exact ⟨b', mem_cons_of_mem _ hb', hcopied⟩

theorem copyMainData_safe (hptr : c.ptr + decoded.mainDataLen ≤ record.length)
    (hout : c.out + decoded.mainDataLen + 7 ≤ capacity) :
    Safe (fun x => x.1.blocks = decoded.blocks ∧ x.2.out ≤ c.out + decoded.mainDataLen + 7)
      (copyMainData record capacity decoded c) := by
  rw [copyMainData]
  split_ifs
  · have hpad := maxAlign_le c.out
    apply Safe.bind (copyData_safe (c := ⟨c.ptr, maxAlign c.out⟩) hptr (by grind))
    rintro ⟨mainData, _⟩ ⟨-, rfl⟩
    exact ⟨rfl, by grind⟩
  · exact ⟨rfl, by grind⟩

/-! ## The result -/

/-- The announced lengths, which the decoder totals in 32 bits. -/
def Headers.payload (h : Headers) : ℕ := WalRecord.payload h.decoded.blocks + h.decoded.mainDataLen

theorem decodeXLogRecord_safe (hlen : sizeOfXLogRecord ≤ record.length)
    (hlt : record.length < 2 ^ 32) (htot : littleEndian (record.take 4) = record.length)
    {Q : DecodedBkpBlock → Prop}
    (hwrap : ∀ h, parseHeaders record (decodeXLogRecordRequiredSpace record.length) = .ok h →
      h.payload < 2 ^ 32 ∧ ∀ blk ∈ h.decoded.blocks, Q blk) :
    Safe (fun decoded => ∀ blk' ∈ decoded.blocks, ∃ blk, Copied blk blk' ∧ Q blk ∧
      (blk.hasImage → ImageOk blk))
      (decodeXLogRecord record (decodeXLogRecordRequiredSpace record.length)) := by
  have hspace : decodeXLogRecordRequiredSpace 0 ≤ decodeXLogRecordRequiredSpace record.length := by
    simp only [decodeXLogRecordRequiredSpace]
    omega
  apply Safe.bind (parseHeaders_safe hlen htot hspace).eq_ok
  rintro h ⟨hparse, hp, heq⟩
  obtain ⟨hwrap, hQ⟩ := hwrap h hparse
  -- without a wrap, the lengths add up to the bytes that remain
  have htotal : h.remaining = h.payload := by
    rw [heq]
    apply hp.datatotal.eq_of_lt_of_lt _ hwrap
    have := hp.position
    omega
  have hpos := hp.position
  have hused := hp.used
  have hnblocks := hp.nblocks_le
  rw [Headers.payload] at htotal
  have hblocks := mul_le_mul_left sizeOfDecodedBkpBlock hnblocks
  have hrequired : decodeXLogRecordRequiredSpace record.length = offsetOfBlocks
      + sizeOfDecodedBkpBlock * (xlrMaxBlockId + 1) + record.length + 7 + 7 * (xlrMaxBlockId + 1)
      + 7 := rfl
  apply Safe.bind (copyBlocks_safe (by dsimp only; omega) (by dsimp only; omega))
  rintro ⟨blocks, c₁⟩ ⟨hcopied, hptr₁, hout₁⟩
  dsimp only at hptr₁ hout₁
  apply Safe.bind (copyMainData_safe (by dsimp only; omega) (by dsimp only; omega))
  rintro ⟨decoded, c₂⟩ ⟨hdecoded, hout₂⟩
  dsimp only at hdecoded hout₂ ⊢
  have hpad := maxAlign_le c₂.out
  split_ifs with hsize
  · intro blk' hblk'
    obtain ⟨blk, hblk, hcopy⟩ := hcopied blk' (hdecoded ▸ hblk')
    exact ⟨blk, hcopy, hQ blk hblk, hp.images blk hblk⟩
  · omega

/-! ## Pages -/

variable {build : Build} {blk : DecodedBkpBlock}

/-- The bytes that `RestoreBlockImage` copies from: all that are not in the hole. -/
theorem imageBytes_safe (hok : ImageOk blk) (hlen : blk.bkpImage.length = blk.bimgLen)
    (hhole : blk.holeOffset + blk.holeLength ≤ blcksz) :
    Safe (fun bytes => blcksz ≤ bytes.length + blk.holeLength) (imageBytes build blk) := by
  rw [imageBytes]
  split_ifs with hcompressed hsupported
  · cases hresult : (outputSpace blk.method blk.holeLength).bind
      (build.decompress blk.method blk.bkpImage) with
    | none => trivial
    | some output =>
      obtain ⟨space, hspace, houtput⟩ := Option.bind_eq_some_iff.1 hresult
      have hle := build.decompress_le _ _ _ _ houtput
      have hspace' : outputSpace blk.method blk.holeLength = some (blcksz - blk.holeLength) :=
        if_pos (by omega)
      cases hspace.symm.trans hspace'
      dsimp only
      rw [if_pos (by omega), safe_ok, length_append, length_drop, build.stack_length]
      omega
  · trivial
  · have hplain := hok.plain (by simpa using hcompressed)
    rw [safe_ok, hlen]
    simp only [blcksz] at *
    omega

theorem restorePage_safe (hbytes : blcksz ≤ bytes.length + blk.holeLength)
    (hhole : blk.holeOffset + blk.holeLength ≤ blcksz) :
    Safe (fun page => page.length = blcksz) (restorePage blk bytes) := by
  rw [restorePage]
  split_ifs with hzero
  · exact readBytes_safe (by omega)
  · apply Safe.bind (writeBytes_safe (by omega))
    intro _ _
    apply Safe.bind (readBytes_safe (by omega))
    intro before hbefore
    apply Safe.bind (writeBytes_safe hhole)
    intro _ _
    apply Safe.bind (readBytes_safe (by omega))
    intro after hafter
    rw [safe_ok]
    simp only [length_append, length_replicate, hbefore, hafter]
    omega

theorem restoreBlockImage_safe
    (hdecoded : ∀ blk' ∈ decoded.blocks, ∃ blk, Copied blk blk' ∧
      blk.holeOffset + blk.holeLength ≤ blcksz ∧ (blk.hasImage → ImageOk blk)) (blockId : ℕ) :
    Safe (fun page => page.length = blcksz) (restoreBlockImage build decoded blockId) := by
  rw [restoreBlockImage]
  cases hfind : decoded.blocks.find? (·.id = blockId) with
  | none => trivial
  | some blk' =>
    obtain ⟨blk, ⟨bkpImage, data, heq, hlen⟩, hhole, hok⟩ :=
      hdecoded blk' (mem_of_find?_eq_some hfind)
    have hhole' : blk'.holeOffset + blk'.holeLength ≤ blcksz := by rwa [heq]
    have hok' : blk'.hasImage → ImageOk blk' ∧ blk'.bkpImage.length = blk'.bimgLen := by
      subst heq
      intro himage
      obtain ⟨hchecked, hlt, hplain⟩ := hok himage
      exact ⟨⟨hchecked, hlt, hplain⟩, hlen himage⟩
    dsimp only
    split_ifs with himage
    · obtain ⟨hok, hlen⟩ := hok' himage
      apply Safe.bind (imageBytes_safe hok hlen hhole')
      intro bytes hbytes
      exact restorePage_safe hbytes hhole'
    · trivial

/-- A record header with the given length, followed by the given bytes. -/
def recordOf (xlTotLen : UInt8) (body : List UInt8) : List UInt8 :=
  [xlTotLen, 0, 0, 0] ++ List.replicate 20 0 ++ body

/-- A reference to block 0 with four bytes of data. -/
def dataHeader : List UInt8 := [0, 0x20, 4, 0] ++ List.replicate 16 0

/-- A reference to block 0 with an image of one byte and a hole. -/
def imageHeader (holeOffset : UInt8 × UInt8) : List UInt8 :=
  [0, 0x10, 0, 0, 1, 0, holeOffset.1, holeOffset.2, 1] ++ List.replicate 16 0

def plainBuild : Build where
  supports := fun _ => false
  decompress := fun _ _ _ => none
  stack := List.replicate blcksz 0
  stack_length := length_replicate
  decompress_le := nofun

end PostgreSieve.WalRecord
