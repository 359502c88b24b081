import Quest.Basic
import Quest.Lib.Cursor
import Quest.Lib.Memory

/-! Reading a file of an ext2 file system: `fs/ext2/fsys_ext2fs.c`. -/
namespace Quest.Fs.Ext2

open Quest.Lib Memory Cursor List Nat

def sectorSize : Nat := 512

/-- The bytes of the drive and `s_log_block_size`; the size of a block is an `int`. -/
structure Partition where
  disk : Nat → UInt8
  logBlockSize : Nat
  logBlockSize_le : logBlockSize ≤ 20

structure Inode where
  size : Nat
  block : Nat → Nat
  size_lt : size < 2 ^ 32

def readSector (disk : Nat → UInt8) (lba : Nat) : List UInt8 :=
  bytesAt disk (sectorSize * lba) sectorSize

def devreadFrom (disk : Nat → UInt8) : Nat → Nat → Nat → List UInt8
  | 0, _, _ => []
  | n + 1, sector, byteLen =>
      if sectorSize ≤ byteLen then
        readSector disk sector ++ devreadFrom disk n (sector + 1) (byteLen - sectorSize)
      else (readSector disk sector).take byteLen

/-- With fewer bytes wanted than the rest of the first sector `byte_len` gets negative, and
`memcpy` runs over the whole memory. -/
def devread (disk : Nat → UInt8) (sector byteOffset byteLen : Nat) : Except Fault (List UInt8) :=
  let sector := sector + 63 + byteOffset / sectorSize
  let byteOffset := byteOffset % sectorSize
  if byteOffset = 0 then .ok (devreadFrom disk (byteLen + 1) sector byteLen)
  else if byteLen < sectorSize - byteOffset then .error .outOfBounds
  else .ok ((readSector disk sector).drop byteOffset ++
    devreadFrom disk (byteLen + 1) (sector + 1) (byteLen - (sectorSize - byteOffset)))

namespace Partition

variable (p : Partition)

def blockSize : Nat := 2 ^ (p.logBlockSize + 10)

def addrPerBlock : Nat := p.blockSize / 4

def addrPerBlockBits : Nat := p.logBlockSize + 8

def rdfsb (fsblock : Nat) : Except Fault (List UInt8) :=
  devread p.disk (fsblock * (p.blockSize / sectorSize)) 0 p.blockSize

end Partition

/-- The inode that `ext2fs_dir` found, the position in the file, and the blocks of pointers that
were read last. -/
structure State where
  inode : Inode
  filepos : Nat
  mapblock1 : Nat
  mapblock2 : Nat
  datablock1 : List UInt8
  datablock2 : List UInt8

/-- The `-1` of `mapblock1` and `mapblock2`. -/
def noBlock : Nat := 2 ^ 32 - 1

/-- `ext2fs_dir`, when the path has led to the inode of a regular file: the result is the length of
the file. -/
def State.dirFound (s : State) (inode : Inode) : Int × State :=
  (toInt inode.size, { s with inode, filepos := 0, mapblock1 := noBlock, mapblock2 := noBlock })

def entry (block : List UInt8) (i : Nat) : Nat := word (fun a => block.getD a 0) (4 * i)

namespace State

def loadIndirect (p : Partition) (s : State) (level : Nat) : Except Fault State :=
  if s.mapblock1 = level then .ok s
  else do
    let block ← p.rdfsb (s.inode.block (11 + level))
    .ok { s with datablock1 := block, mapblock1 := level }

def loadDouble (p : Partition) (s : State) (bnum : Nat) : Except Fault State :=
  if bnum = s.mapblock2 then .ok s
  else do
    let block ← p.rdfsb bnum
    .ok { s with datablock2 := block, mapblock2 := bnum }

def blockMap (p : Partition) (s : State) (logicalBlock : Nat) : Except Fault (Nat × State) :=
  let bits := p.addrPerBlockBits
  if logicalBlock < 12 then .ok (s.inode.block logicalBlock, s)
  else
    let logicalBlock := logicalBlock - 12
    if logicalBlock < p.addrPerBlock then do
      let s ← s.loadIndirect p 1
      .ok (entry s.datablock1 logicalBlock, s)
    else
      let logicalBlock := logicalBlock - p.addrPerBlock
      if logicalBlock < 2 ^ (bits * 2) then do
        let s ← s.loadIndirect p 2
        let s ← s.loadDouble p (entry s.datablock1 (logicalBlock >>> bits))
        .ok (entry s.datablock2 (logicalBlock % p.addrPerBlock), s)
      else do
        let logicalBlock := logicalBlock - 2 ^ (bits * 2)
        let s ← { s with mapblock2 := noBlock }.loadIndirect p 3
        let block ← p.rdfsb (entry s.datablock1 (logicalBlock >>> (bits * 2)))
        let block ← p.rdfsb (entry block ((logicalBlock >>> bits) % p.addrPerBlock))
        .ok (entry block (logicalBlock % p.addrPerBlock), { s with datablock2 := block })

def readBlock (p : Partition) (map offset size : Nat) : Except Fault (List UInt8) :=
  if map = 0 then .ok (List.replicate size 0)
  else devread p.disk (map * (p.blockSize / sectorSize)) offset size

/-- The loop of `ext2fs_read`.  A position from 2 GB on is negative as an `int`, and so is the
index into `i_block`. -/
def readFrom (p : Partition) : Nat → State → Nat → List UInt8 → Except Fault (List UInt8 × State)
  | 0, _, _, _ => .error .diverges
  | n + 1, s, len, buf =>
      if len = 0 then .ok (buf, s)
      else if 2 ^ 31 ≤ s.filepos then .error .outOfBounds
      else do
        let offset := s.filepos % p.blockSize
        let (map, s) ← s.blockMap p (s.filepos / p.blockSize)
        if 2 ^ 31 ≤ map then .ok (buf, s)
        else do
          let size := min len (p.blockSize - offset)
          let bytes ← readBlock p map offset size
          readFrom p n { s with filepos := s.filepos + size } (len - size) (buf ++ bytes)

def read (p : Partition) (s : State) (len : Nat) : Except Fault (List UInt8 × State) :=
  s.readFrom p (len + 1) len []

end State

namespace Partition

variable (p : Partition)

def address (block : Nat) : Nat := sectorSize * (block * (p.blockSize / sectorSize) + 63)

def pointer (block i : Nat) : Nat := word p.disk (p.address block + 4 * i)

def walk (follow : Nat → Nat → Nat) (inode : Inode) (logicalBlock : Nat) : Nat :=
  let bits := p.addrPerBlockBits
  if logicalBlock < 12 then inode.block logicalBlock
  else
    let logicalBlock := logicalBlock - 12
    if logicalBlock < p.addrPerBlock then follow (inode.block 12) logicalBlock
    else
      let logicalBlock := logicalBlock - p.addrPerBlock
      if logicalBlock < 2 ^ (bits * 2) then
        follow (follow (inode.block 13) (logicalBlock >>> bits)) (logicalBlock % p.addrPerBlock)
      else
        let logicalBlock := logicalBlock - 2 ^ (bits * 2)
        follow (follow (follow (inode.block 14) (logicalBlock >>> (bits * 2)))
          ((logicalBlock >>> bits) % p.addrPerBlock)) (logicalBlock % p.addrPerBlock)

def mapped (inode : Inode) : Nat → Nat := p.walk p.pointer inode

def located (inode : Inode) : Nat → Nat :=
  p.walk (fun block i => if block = 0 then 0 else p.pointer block i) inode

def byte (map : Nat → Nat) (k : Nat) : UInt8 :=
  let block := map (k / p.blockSize)
  if block = 0 then 0 else p.disk (p.address block + k % p.blockSize)

def file (inode : Inode) : List UInt8 := (List.range inode.size).map (p.byte (p.located inode))

/-- How many blocks can be read: up to one that has no number, or to 2 GB. -/
structure Readable (inode : Inode) (count : Nat) : Prop where
  le : count ≤ 2 ^ 31 / p.blockSize
  mapped : ∀ b < count, p.mapped inode b < 2 ^ 31
  stops : count < 2 ^ 31 / p.blockSize → 2 ^ 31 ≤ p.mapped inode count
  /-- no block of pointers has the number that stands for none -/
  double : ∀ i < p.addrPerBlock, p.pointer (inode.block 13) i ≠ noBlock

def blockBytes (inode : Inode) (b : Nat) : List UInt8 :=
  if p.mapped inode b = 0 then List.replicate p.blockSize 0
  else bytesAt p.disk (p.address (p.mapped inode b)) p.blockSize

def view (inode : Inode) (count : Nat) : List UInt8 := (List.range count).flatMap (p.blockBytes inode)

/-- A read in the middle of a sector goes to its end at least, or it is in a hole. -/
def Aligned (inode : Inode) (pos len : Nat) : Prop :=
  pos % sectorSize = 0 ∨ sectorSize ≤ pos % sectorSize + len ∨
    p.mapped inode (pos / p.blockSize) = 0

instance (inode : Inode) (pos len : Nat) : Decidable (p.Aligned inode pos len) :=
  inferInstanceAs (Decidable (_ ∨ _))

def Fine (inode : Inode) (count pos len : Nat) : Prop :=
  p.Aligned inode pos len ∧ (count = 2 ^ 31 / p.blockSize → pos + len ≤ 2 ^ 31)

end Partition

section Devread

variable {disk : Nat → UInt8} {sector byteOffset byteLen n : Nat}

def ToSectorEnd (byteOffset byteLen : Nat) : Prop :=
  byteOffset % sectorSize = 0 ∨ sectorSize ≤ byteOffset % sectorSize + byteLen

theorem devreadFrom_eq (hn : byteLen < n) :
    devreadFrom disk n sector byteLen = bytesAt disk (sectorSize * sector) byteLen := by
  have hpos : 0 < sectorSize := by decide
  induction n generalizing sector byteLen with
  | zero => omega
  | succ n ih =>
    rw [devreadFrom, readSector]
    split
    · rename_i hle
      rw [ih (by omega), Nat.mul_succ, ← bytesAt_add, Nat.add_sub_cancel' hle]
    · rename_i hlt
      exact take_bytesAt (Nat.le_of_not_le hlt)

theorem devread_eq : devread disk sector byteOffset byteLen =
    if byteOffset % sectorSize = 0 ∨ sectorSize ≤ byteOffset % sectorSize + byteLen then
      .ok (bytesAt disk (sectorSize * (sector + 63) + byteOffset) byteLen)
    else .error .outOfBounds := by
  have hpos : 0 < sectorSize := by decide
  have hdiv := div_add_mod byteOffset sectorSize
  have hmod := Nat.mod_lt byteOffset hpos
  rw [devread]
  by_cases hzero : byteOffset % sectorSize = 0
  · have haddr : sectorSize * (sector + 63 + byteOffset / sectorSize) =
        sectorSize * (sector + 63) + byteOffset := by
      rw [mul_add]
      omega
    rw [if_pos hzero, if_pos (.inl hzero), devreadFrom_eq (lt_succ_self _), haddr]
  · rw [if_neg hzero]
    by_cases hlong : sectorSize ≤ byteOffset % sectorSize + byteLen
    · have haddr : sectorSize * (sector + 63 + byteOffset / sectorSize) +
          byteOffset % sectorSize = sectorSize * (sector + 63) + byteOffset := by
        rw [mul_add]
        omega
      have hnext : sectorSize * (sector + 63 + byteOffset / sectorSize + 1) =
          sectorSize * (sector + 63) + byteOffset + (sectorSize - byteOffset % sectorSize) := by
        rw [Nat.mul_succ]
        omega
      rw [if_neg (by omega), if_pos (.inr hlong), readSector, drop_bytesAt hmod.le,
        devreadFrom_eq (by omega), haddr, hnext, ← bytesAt_add]
      congr 2
      omega
    · rw [if_pos (by omega), if_neg (by simp [hzero, hlong])]

end Devread

namespace Partition

variable (p : Partition)

theorem sectorSize_dvd_blockSize : sectorSize ∣ p.blockSize :=
  ⟨2 ^ (p.logBlockSize + 1), by rw [blockSize, sectorSize]; ring⟩

theorem blockSize_pos : 0 < p.blockSize := Nat.two_pow_pos _

theorem sector_le_rest (pos : Nat) :
    sectorSize ≤ pos % sectorSize + (p.blockSize - pos % p.blockSize) := by
  obtain ⟨sectors, hsectors⟩ := p.sectorSize_dvd_blockSize
  have hsec := mod_mod_of_dvd pos p.sectorSize_dvd_blockSize
  have hdiv := div_add_mod (pos % p.blockSize) sectorSize
  have hlt : pos % p.blockSize / sectorSize < sectors :=
    Nat.div_lt_of_lt_mul (hsectors ▸ Nat.mod_lt pos p.blockSize_pos)
  have := Nat.mul_le_mul_left sectorSize hlt
  rw [Nat.mul_succ] at this
  omega

theorem blockSize_eq : p.blockSize = 4 * p.addrPerBlock := by
  rw [addrPerBlock, blockSize, Nat.pow_add]
  omega

theorem rdfsb_eq (fsblock : Nat) :
    p.rdfsb fsblock = .ok (bytesAt p.disk (p.address fsblock) p.blockSize) := by
  rw [rdfsb, devread_eq, if_pos (.inl (zero_mod _)), address, add_zero]

theorem entry_block (block i : Nat) (hi : i < p.addrPerBlock) :
    entry (bytesAt p.disk (p.address block) p.blockSize) i = p.pointer block i := by
  have hbyte : ∀ j < 4, (bytesAt p.disk (p.address block) p.blockSize).getD (4 * i + j) 0 =
      p.disk (p.address block + 4 * i + j) := by
    intro j hj
    rw [getD_bytesAt (by rw [blockSize_eq]; omega), add_assoc]
  rw [entry, pointer, word, word, hbyte 1 (by omega), hbyte 2 (by omega), hbyte 3 (by omega)]
  have := hbyte 0 (by omega)
  rw [add_zero, add_zero] at this
  rw [this]

theorem length_blockBytes (inode : Inode) (b : Nat) : (p.blockBytes inode b).length = p.blockSize := by
  rw [blockBytes]
  split <;> simp

theorem length_view (inode : Inode) (count : Nat) :
    (p.view inode count).length = p.blockSize * count := by
  rw [view, length_blocks (p.length_blockBytes inode), length_range]

end Partition

namespace State

variable {p : Partition} {s : State} {b : Nat}

/-- What `mapblock1` and `mapblock2` say about the blocks in memory. -/
structure Cached (p : Partition) (s : State) : Prop where
  first : ∀ level ≤ 3, s.mapblock1 = level →
    s.datablock1 = bytesAt p.disk (p.address (s.inode.block (11 + level))) p.blockSize
  second : s.mapblock2 ≠ noBlock →
    s.datablock2 = bytesAt p.disk (p.address s.mapblock2) p.blockSize

structure Keeps (p : Partition) (s s' : State) : Prop where
  cached : s'.Cached p
  inode : s'.inode = s.inode
  filepos : s'.filepos = s.filepos

theorem Keeps.trans {s' s'' : State} (h : Keeps p s s') (h' : Keeps p s' s'') : Keeps p s s'' :=
  ⟨h'.cached, h'.inode.trans h.inode, h'.filepos.trans h.filepos⟩

theorem loadIndirect_spec (h : s.Cached p) {level : Nat} (hlevel : level ≤ 3) :
    ∃ s', s.loadIndirect p level = .ok s' ∧ Keeps p s s' ∧ s'.mapblock2 = s.mapblock2 ∧
      s'.datablock1 = bytesAt p.disk (p.address (s.inode.block (11 + level))) p.blockSize := by
  rw [loadIndirect]
  split
  · rename_i heq
    exact ⟨s, rfl, ⟨h, rfl, rfl⟩, rfl, h.first level hlevel heq⟩
  · rw [p.rdfsb_eq, ok_bind]
    refine ⟨_, rfl, ⟨⟨?_, ?_⟩, ?_, ?_⟩, ?_, ?_⟩ <;> dsimp only
    · rintro _ _ rfl
      rfl
    · exact h.second

theorem loadDouble_spec (h : s.Cached p) {bnum : Nat} (hbnum : bnum ≠ noBlock) :
    ∃ s', s.loadDouble p bnum = .ok s' ∧ Keeps p s s' ∧
      s'.datablock2 = bytesAt p.disk (p.address bnum) p.blockSize := by
  rw [loadDouble]
  split
  · rename_i heq
    refine ⟨s, rfl, ⟨h, rfl, rfl⟩, ?_⟩
    rw [heq]
    exact h.second (heq ▸ hbnum)
  · rw [p.rdfsb_eq, ok_bind]
    refine ⟨_, rfl, ⟨⟨?_, ?_⟩, ?_, ?_⟩, ?_⟩ <;> dsimp only
    · exact h.first
    · exact fun _ => rfl

theorem addrPerBlock_eq : p.addrPerBlock = 2 ^ p.addrPerBlockBits := by
  rw [Partition.addrPerBlock, Partition.blockSize, Partition.addrPerBlockBits, Nat.pow_add,
    Nat.pow_add]
  omega

theorem triple_lt (hb : b < 2 ^ 31 / p.blockSize) :
    b >>> (p.addrPerBlockBits * 2) < p.addrPerBlock := by
  have hpow : 2 ^ 31 ≤ p.blockSize * (2 ^ (p.addrPerBlockBits * 2) * 2 ^ p.addrPerBlockBits) := by
    rw [Partition.blockSize, Partition.addrPerBlockBits, ← Nat.pow_add, ← Nat.pow_add]
    exact Nat.pow_le_pow_right (by decide) (by omega)
  rw [addrPerBlock_eq, Nat.shiftRight_eq_div_pow]
  apply Nat.div_lt_of_lt_mul
  have hlt := (Nat.lt_div_iff_mul_lt p.blockSize_pos).mp hb
  apply Nat.lt_of_mul_lt_mul_left (a := p.blockSize)
  rw [mul_comm p.blockSize b]
  omega

theorem blockMap_spec (h : s.Cached p) (hb : b < 2 ^ 31 / p.blockSize)
    (hdouble : ∀ i < p.addrPerBlock, p.pointer (s.inode.block 13) i ≠ noBlock) :
    ∃ s', s.blockMap p b = .ok (p.mapped s.inode b, s') ∧ Keeps p s s' := by
  have hpos : 0 < p.addrPerBlock := by
    rw [addrPerBlock_eq]
    exact Nat.two_pow_pos _
  rw [blockMap, Partition.mapped, Partition.walk]
  dsimp only
  split
  · exact ⟨s, rfl, h, rfl, rfl⟩
  split
  · rename_i hindirect
    obtain ⟨s', hload, hkeeps, -, hblock⟩ := loadIndirect_spec h (show 1 ≤ 3 by omega)
    rw [hload, ok_bind, hblock, p.entry_block _ _ hindirect]
    exact ⟨s', rfl, hkeeps⟩
  split
  · rename_i hlt
    have hindex : (b - 12 - p.addrPerBlock) >>> p.addrPerBlockBits < p.addrPerBlock := by
      rw [addrPerBlock_eq, Nat.shiftRight_eq_div_pow]
      apply Nat.div_lt_of_lt_mul
      rw [← Nat.pow_add, ← Nat.mul_two, ← addrPerBlock_eq]
      exact hlt
    obtain ⟨s', hload, hkeeps, -, hblock⟩ := loadIndirect_spec h (show 2 ≤ 3 by omega)
    rw [hload, ok_bind, hblock, p.entry_block _ _ hindex]
    obtain ⟨s'', hload', hkeeps', hblock'⟩ := loadDouble_spec hkeeps.cached (hdouble _ hindex)
    rw [hload', ok_bind, hblock', p.entry_block _ _ (Nat.mod_lt _ hpos)]
    exact ⟨s'', rfl, hkeeps.trans hkeeps'⟩
  · have hindex : (b - 12 - p.addrPerBlock - 2 ^ (p.addrPerBlockBits * 2)) >>>
        (p.addrPerBlockBits * 2) < p.addrPerBlock := by
      apply triple_lt
      apply lt_of_le_of_lt _ hb
      rw [Nat.sub_sub, Nat.sub_sub]
      exact Nat.sub_le _ _
    have hcache : Cached p { s with mapblock2 := noBlock } := ⟨h.first, fun hne => absurd rfl hne⟩
    obtain ⟨s', hload, hkeeps, hnone, hblock⟩ := loadIndirect_spec hcache (show 3 ≤ 3 by omega)
    rw [hload, ok_bind, hblock, p.entry_block _ _ hindex, p.rdfsb_eq, ok_bind,
      p.entry_block _ _ (Nat.mod_lt _ hpos), p.rdfsb_eq, ok_bind,
      p.entry_block _ _ (Nat.mod_lt _ hpos)]
    refine ⟨_, rfl, ⟨fun level hlevel heq => ?_, fun hne => absurd hnone hne⟩, hkeeps.inode,
      hkeeps.filepos⟩
    exact hblock.symm.trans (hkeeps.cached.first level hlevel heq)

structure At (p : Partition) (inode : Inode) (s : State) (pos : Nat) : Prop where
  cached : s.Cached p
  inode : s.inode = inode
  filepos : s.filepos = pos

variable {inode : Inode} {count pos len n : Nat} {buf : List UInt8}

theorem at_dirFound (p : Partition) (s : State) (inode : Inode) :
    At p inode (s.dirFound inode).2 0 := by
  refine ⟨⟨?_, fun hne => absurd rfl hne⟩, rfl, rfl⟩
  intro level hlevel heq
  have : noBlock = level := heq
  rw [noBlock] at this
  omega

theorem take_drop_view (hb : pos / p.blockSize < count)
    (hlen : pos % p.blockSize + len ≤ p.blockSize) :
    ((p.view inode count).drop pos).take len =
      ((p.blockBytes inode (pos / p.blockSize)).drop (pos % p.blockSize)).take len := by
  have hx : (range count)[pos / p.blockSize]? = some (pos / p.blockSize) := by
    rw [getElem?_range hb]
  have h := take_drop_blocks (p.length_blockBytes inode) hx hlen
  rwa [div_add_mod] at h

theorem readBlock_eq (hlen : pos % p.blockSize + len ≤ p.blockSize) :
    readBlock p (p.mapped inode (pos / p.blockSize)) (pos % p.blockSize) len =
      if p.Aligned inode pos len then
        .ok (((p.blockBytes inode (pos / p.blockSize)).drop (pos % p.blockSize)).take len)
      else .error .outOfBounds := by
  rw [readBlock, Partition.blockBytes]
  by_cases hhole : p.mapped inode (pos / p.blockSize) = 0
  · have halign : p.Aligned inode pos len := .inr (.inr hhole)
    rw [if_pos hhole, if_pos halign, if_pos hhole, drop_replicate, take_replicate,
      Nat.min_eq_left (by omega)]
  · have halign : p.Aligned inode pos len ↔
        pos % sectorSize = 0 ∨ sectorSize ≤ pos % sectorSize + len := by
      rw [Partition.Aligned, or_iff_left hhole]
    rw [if_neg hhole, if_neg hhole, devread_eq, mod_mod_of_dvd _ p.sectorSize_dvd_blockSize,
      drop_bytesAt (by omega), take_bytesAt (by omega)]
    simp only [halign, Partition.address]

theorem readFrom_block (hs : At p inode s pos) (hread : p.Readable inode count)
    (hb : pos / p.blockSize < count) (hlen : 0 < len) :
    ∃ s', At p inode s' (pos + min len (p.blockSize - pos % p.blockSize)) ∧
      readFrom p (n + 1) s len buf =
        if p.Aligned inode pos len then
          readFrom p n s' (len - min len (p.blockSize - pos % p.blockSize))
            (buf ++ ((p.view inode count).drop pos).take
              (min len (p.blockSize - pos % p.blockSize)))
        else .error .outOfBounds := by
  have hmod := Nat.mod_lt pos p.blockSize_pos
  have hpos : pos < 2 ^ 31 := by
    have := (Nat.lt_div_iff_mul_lt p.blockSize_pos).mp (hb.trans_le hread.le)
    have := div_add_mod pos p.blockSize
    rw [mul_comm] at this
    omega
  obtain ⟨s', hmap, hkeeps⟩ := blockMap_spec hs.cached (hb.trans_le hread.le)
    (hs.inode ▸ hread.double)
  rw [hs.inode] at hmap
  refine ⟨{ s' with filepos := pos + min len (p.blockSize - pos % p.blockSize) },
    ⟨{ hkeeps.cached with }, hkeeps.inode.trans hs.inode, rfl⟩, ?_⟩
  have halign : p.Aligned inode pos (min len (p.blockSize - pos % p.blockSize)) ↔
      p.Aligned inode pos len := by
    have hwhole := p.sector_le_rest pos
    rw [Partition.Aligned, Partition.Aligned]
    omega
  rw [readFrom, if_neg (by omega), hs.filepos, if_neg (by omega), hmap, ok_bind]
  dsimp only
  rw [if_neg (not_le.mpr (hread.mapped _ hb)), readBlock_eq (by omega),
    ← take_drop_view hb (by omega)]
  simp only [halign]
  split
  · rw [ok_bind, hkeeps.filepos, hs.filepos]
  · rfl

theorem rest_mod_sector (hlong : p.blockSize - pos % p.blockSize ≤ len) :
    (pos + min len (p.blockSize - pos % p.blockSize)) % sectorSize = 0 := by
  have hmod := Nat.mod_lt pos p.blockSize_pos
  have hdiv := div_add_mod pos p.blockSize
  have hnext : pos + min len (p.blockSize - pos % p.blockSize) =
      p.blockSize * (pos / p.blockSize + 1) := by
    rw [Nat.mul_succ, min_eq_right hlong]
    omega
  rw [hnext]
  exact mod_eq_zero_of_dvd (Dvd.dvd.mul_right p.sectorSize_dvd_blockSize _)

theorem aligned_next (hlong : p.blockSize - pos % p.blockSize ≤ len) :
    p.Aligned inode (pos + min len (p.blockSize - pos % p.blockSize)) n :=
  .inl (rest_mod_sector hlong)

theorem blockSize_mul_max : p.blockSize * (2 ^ 31 / p.blockSize) = 2 ^ 31 := by
  apply Nat.mul_div_cancel'
  have := p.logBlockSize_le
  exact Nat.pow_dvd_pow 2 (by omega)

theorem readFrom_end (hs : At p inode s pos) (hread : p.Readable inode count)
    (hend : pos = p.blockSize * count) (hlen : 0 < len) :
    (count = 2 ^ 31 / p.blockSize → readFrom p (n + 1) s len buf = .error .outOfBounds) ∧
    (count ≠ 2 ^ 31 / p.blockSize →
      ∃ s', At p inode s' pos ∧ readFrom p (n + 1) s len buf = .ok (buf, s')) := by
  rw [readFrom, if_neg (by omega), hs.filepos]
  constructor
  · intro hcount
    rw [if_pos (by rw [hend, hcount, blockSize_mul_max])]
  · intro hcount
    have hlt := lt_of_le_of_ne hread.le hcount
    have hpos : pos < 2 ^ 31 := by
      rw [hend, ← blockSize_mul_max (p := p)]
      exact mul_lt_mul_of_pos_left hlt p.blockSize_pos
    have hblock : pos / p.blockSize = count := by
      rw [hend, Nat.mul_div_cancel_left _ p.blockSize_pos]
    obtain ⟨s', hmap, hkeeps⟩ := blockMap_spec hs.cached hlt (hs.inode ▸ hread.double)
    rw [hs.inode] at hmap
    rw [if_neg (by omega), hblock, hmap, ok_bind]
    dsimp only
    rw [if_pos (hread.stops hlt)]
    exact ⟨s', ⟨hkeeps.cached, hkeeps.inode.trans hs.inode, hkeeps.filepos.trans hs.filepos⟩, rfl⟩

theorem fine_next (hfine : p.Fine inode count pos len)
    (hrest : 0 < len - min len (p.blockSize - pos % p.blockSize)) :
    p.Fine inode count (pos + min len (p.blockSize - pos % p.blockSize))
      (len - min len (p.blockSize - pos % p.blockSize)) := by
  refine ⟨aligned_next (by omega), fun hcount => ?_⟩
  have := hfine.2 hcount
  omega

theorem next_le_view (hb : pos / p.blockSize < count) :
    pos + (p.blockSize - pos % p.blockSize) ≤ (p.view inode count).length := by
  have hmod := Nat.mod_lt pos p.blockSize_pos
  have hdiv := div_add_mod pos p.blockSize
  have hle := Nat.mul_le_mul_left p.blockSize hb
  rw [Nat.mul_succ] at hle
  rw [p.length_view]
  omega

theorem eq_end_of_not_lt (hpos : pos ≤ (p.view inode count).length)
    (hb : ¬pos / p.blockSize < count) : pos = p.blockSize * count := by
  rw [p.length_view] at hpos
  have hle := Nat.mul_le_mul_left p.blockSize (not_lt.mp hb)
  have hdiv := div_add_mod pos p.blockSize
  omega

theorem readFrom_fine (hs : At p inode s pos) (hread : p.Readable inode count)
    (hpos : pos ≤ (p.view inode count).length) (hn : len < n)
    (hfine : 0 < len → p.Fine inode count pos len) :
    ∃ s', readFrom p n s len buf = .ok (buf ++ ((p.view inode count).drop pos).take len, s') ∧
      At p inode s' (min (pos + len) (p.view inode count).length) := by
  induction n generalizing s pos len buf with
  | zero => omega
  | succ n ih =>
    obtain rfl | hlen := Nat.eq_zero_or_pos len
    · refine ⟨s, ?_, by rwa [add_zero, Nat.min_eq_left hpos]⟩
      rw [readFrom, if_pos rfl, take_zero, append_nil]
    by_cases hb : pos / p.blockSize < count
    · obtain ⟨s', hs', hround⟩ := readFrom_block hs hread hb hlen
      have hmod := Nat.mod_lt pos p.blockSize_pos
      have hin : pos + (p.blockSize - pos % p.blockSize) ≤ (p.view inode count).length :=
        next_le_view hb
      have hnext := fine_next (hfine hlen)
      rw [hround, if_pos (hfine hlen).1]
      generalize hsized : min len (p.blockSize - pos % p.blockSize) = size at *
      obtain ⟨rest, rfl⟩ := Nat.exists_eq_add_of_le (show size ≤ len by omega)
      rw [Nat.add_sub_cancel_left] at hnext ⊢
      obtain ⟨s'', hret, hs''⟩ := ih hs' (by omega) (by omega) hnext
      refine ⟨s'', hret.trans ?_, by rwa [← add_assoc]⟩
      rw [append_assoc, take_add, drop_drop]
    · have hend := eq_end_of_not_lt hpos hb
      have hcount : count ≠ 2 ^ 31 / p.blockSize := by
        intro hcount
        have := (hfine hlen).2 hcount
        rw [hend, hcount, blockSize_mul_max] at this
        omega
      obtain ⟨s', hs', hret⟩ := (readFrom_end hs hread hend hlen).2 hcount
      have hlength := p.length_view inode count
      refine ⟨s', ?_, ?_⟩
      · rw [hret, drop_of_length_le (by omega), take_nil, append_nil]
      · rwa [min_eq_right (by omega), hlength, ← hend]

theorem readFrom_faults (hs : At p inode s pos) (hread : p.Readable inode count)
    (hpos : pos ≤ (p.view inode count).length) (hn : len < n) (hlen : 0 < len)
    (hfine : ¬p.Fine inode count pos len) : ∃ fault, readFrom p n s len buf = .error fault := by
  induction n generalizing s pos len buf with
  | zero => omega
  | succ n ih =>
    by_cases hb : pos / p.blockSize < count
    · obtain ⟨s', hs', hround⟩ := readFrom_block hs hread hb hlen
      rw [hround]
      split
      · rename_i halign
        have hmod := Nat.mod_lt pos p.blockSize_pos
        have hin : pos + (p.blockSize - pos % p.blockSize) ≤ (p.view inode count).length :=
        next_le_view hb
        -- the read goes to 2 GB, so it does not end with this block
        obtain ⟨hcount, hlong⟩ := Classical.not_imp.mp fun hmax => hfine ⟨halign, hmax⟩
        rw [p.length_view, hcount, blockSize_mul_max] at hin
        refine ih hs' (by rw [p.length_view, hcount, blockSize_mul_max]; omega) (by omega)
          (by omega) fun hnext => ?_
        have := hnext.2 hcount
        omega
      · exact ⟨_, rfl⟩
    · have hend := eq_end_of_not_lt hpos hb
      have halign : p.Aligned inode pos len := by
        left
        rw [hend]
        exact mod_eq_zero_of_dvd (Dvd.dvd.mul_right p.sectorSize_dvd_blockSize _)
      obtain ⟨hcount, -⟩ := Classical.not_imp.mp fun hmax => hfine ⟨halign, hmax⟩
      exact ⟨_, (readFrom_end hs hread hend hlen).1 hcount⟩

def currentMap (p : Partition) (s : State) : Except Fault Nat :=
  Prod.fst <$> s.blockMap p (s.filepos / p.blockSize)

def StaysInside (len : Nat) (r : Except Fault (List UInt8 × State)) : Prop :=
  ∃ out s', r = .ok (out, s') ∧ out.length ≤ len

section

variable (p : Partition)

theorem loadIndirect_filepos (s : State) (level : Nat) :
    ∃ s', s.loadIndirect p level = .ok s' ∧ s'.filepos = s.filepos := by
  rw [loadIndirect]
  split
  · exact ⟨s, rfl, rfl⟩
  · exact ⟨_, rfl, rfl⟩

theorem loadDouble_filepos (s : State) (bnum : Nat) :
    ∃ s', s.loadDouble p bnum = .ok s' ∧ s'.filepos = s.filepos := by
  rw [loadDouble]
  split
  · exact ⟨s, rfl, rfl⟩
  · exact ⟨_, rfl, rfl⟩

theorem blockMap_filepos (s : State) (b : Nat) :
    ∃ map s', s.blockMap p b = .ok (map, s') ∧ s'.filepos = s.filepos := by
  rw [blockMap]
  dsimp only
  split
  · exact ⟨_, s, rfl, rfl⟩
  split
  · obtain ⟨s', hload, hpos⟩ := s.loadIndirect_filepos p 1
    rw [hload, ok_bind]
    exact ⟨_, s', rfl, hpos⟩
  split
  · obtain ⟨s', hload, hpos⟩ := s.loadIndirect_filepos p 2
    obtain ⟨s'', hload', hpos'⟩ := s'.loadDouble_filepos p _
    rw [hload, ok_bind, hload', ok_bind]
    exact ⟨_, s'', rfl, hpos'.trans hpos⟩
  · obtain ⟨s', hload, hpos⟩ := loadIndirect_filepos p { s with mapblock2 := noBlock } 3
    rw [hload, ok_bind, p.rdfsb_eq, ok_bind, p.rdfsb_eq, ok_bind]
    exact ⟨_, _, rfl, hpos⟩

theorem toSectorEnd_min (pos len : Nat) :
    ToSectorEnd (pos % p.blockSize) (min len (p.blockSize - pos % p.blockSize)) ↔
      ToSectorEnd pos len := by
  have hrest := p.sector_le_rest pos
  rw [ToSectorEnd, ToSectorEnd, mod_mod_of_dvd _ p.sectorSize_dvd_blockSize]
  omega

theorem readBlock_inside {map offset size : Nat}
    (h : map = 0 ∨ ToSectorEnd offset size) :
    ∃ bytes, readBlock p map offset size = .ok bytes ∧ bytes.length = size := by
  rw [readBlock]
  split
  · exact ⟨_, rfl, length_replicate⟩
  · rename_i hne
    rw [devread_eq, if_pos (show _ ∨ _ from h.resolve_left hne)]
    exact ⟨_, rfl, length_bytesAt⟩

end

variable {len n : Nat} {buf : List UInt8}

theorem readFrom_round (n : Nat) (buf : List UInt8) (hlen : len ≠ 0) (hpos : s.filepos < 2 ^ 31) {map : Nat} {s' : State}
    (hmap : s.blockMap p (s.filepos / p.blockSize) = .ok (map, s')) (hlt : map < 2 ^ 31)
    (h : map = 0 ∨ ToSectorEnd s.filepos len) :
    ∃ bytes, bytes.length = min len (p.blockSize - s.filepos % p.blockSize) ∧
      readFrom p (n + 1) s len buf =
        readFrom p n { s' with filepos := s'.filepos + bytes.length } (len - bytes.length)
          (buf ++ bytes) := by
  obtain ⟨bytes, hbytes, hlength⟩ := readBlock_inside p
    (h.imp_right (toSectorEnd_min p s.filepos len).mpr)
  refine ⟨bytes, hlength, ?_⟩
  rw [readFrom, if_neg hlen, if_neg (by omega), hmap, ok_bind]
  dsimp only
  rw [if_neg (by omega), hbytes, ok_bind, hlength]

def Harmless (p : Partition) (s : State) (len : Nat) : Prop :=
  len = 0 ∨ ToSectorEnd s.filepos len ∨ ∃ map, s.currentMap p = .ok map ∧ (map = 0 ∨ 2 ^ 31 ≤ map)

theorem currentMap_eq {map : Nat} {s' : State}
    (hmap : s.blockMap p (s.filepos / p.blockSize) = .ok (map, s')) : s.currentMap p = .ok map := by
  rw [currentMap, hmap]
  rfl

theorem readFrom_inside (hpos : s.filepos + len ≤ 2 ^ 31) (hn : len < n) (h : s.Harmless p len) :
    ∃ out s', readFrom p n s len buf = .ok (out, s') ∧ out.length ≤ buf.length + len := by
  induction n generalizing s len buf with
  | zero => omega
  | succ n ih =>
    by_cases hlen : len = 0
    · rw [readFrom, if_pos hlen]
      exact ⟨buf, s, rfl, by omega⟩
    obtain ⟨map, s', hmap, hfilepos⟩ := s.blockMap_filepos p (s.filepos / p.blockSize)
    obtain hlt | hnone := lt_or_ge map (2 ^ 31)
    · have hround : map = 0 ∨ ToSectorEnd s.filepos len := by
        obtain hzero | hend | ⟨map', hmap', hcases⟩ := h
        · exact absurd hzero hlen
        · exact .inr hend
        · rw [currentMap_eq hmap] at hmap'
          cases hmap'
          exact .inl (hcases.resolve_right (by omega))
      obtain ⟨bytes, hlength, hret⟩ := readFrom_round n buf hlen (by omega) hmap hlt hround
      have hmod := Nat.mod_lt s.filepos p.blockSize_pos
      have hnext : Harmless p { s' with filepos := s'.filepos + bytes.length }
          (len - bytes.length) := by
        by_cases hrest : len - bytes.length = 0
        · exact .inl hrest
        · have halign := rest_mod_sector (p := p)
            (show p.blockSize - s.filepos % p.blockSize ≤ len by omega)
          exact .inr (.inl (.inl (by rwa [hlength, hfilepos])))
      rw [hret]
      obtain ⟨out, s'', hok, hout⟩ : ∃ out s'', readFrom p n
          { s' with filepos := s'.filepos + bytes.length } (len - bytes.length) (buf ++ bytes) =
            .ok (out, s'') ∧ out.length ≤ (buf ++ bytes).length + (len - bytes.length) :=
        ih (by dsimp only; omega) (by omega) hnext
      refine ⟨out, s'', hok, ?_⟩
      rw [length_append] at hout
      omega
    · refine ⟨buf, s', ?_, by omega⟩
      rw [readFrom, if_neg hlen, if_neg (by omega), hmap, ok_bind]
      dsimp only
      rw [if_pos hnone]

theorem read_staysInside_iff (hpos : s.filepos + len ≤ 2 ^ 31) :
    StaysInside len (s.read p len) ↔ s.Harmless p len := by
  constructor
  · rintro ⟨out, s', hok, -⟩
    by_contra hharmful
    obtain ⟨hlen, hend, hmap⟩ := not_or.mp hharmful |>.imp_right not_or.mp
    obtain ⟨map, s1, hblock, -⟩ := s.blockMap_filepos p (s.filepos / p.blockSize)
    have hcases : ¬(map = 0 ∨ 2 ^ 31 ≤ map) := fun h => hmap ⟨map, currentMap_eq hblock, h⟩
    rw [read, readFrom, if_neg hlen, if_neg (by omega), hblock, ok_bind] at hok
    dsimp only at hok
    rw [if_neg (fun h => hcases (.inr h)), readBlock, if_neg (fun h => hcases (.inl h)), devread_eq,
      if_neg (show ¬(_ ∨ _) from fun h => hend ((toSectorEnd_min p s.filepos len).mp h))] at hok
    cases hok
  · intro h
    obtain ⟨out, s', hok, hout⟩ : ∃ out s', readFrom p (len + 1) s len [] = .ok (out, s') ∧
      out.length ≤ [].length + len := readFrom_inside hpos (lt_succ_self len) h
    exact ⟨out, s', hok, by simpa using hout⟩

end State

/-- The buffer is filled with the bytes of the drive, and nothing else is written, if the read
does not end in the sector in whose middle it begins. -/
theorem ext2_buffer_exact_iff (p : Partition) :
    (∀ sector byteOffset byteLen, devread p.disk sector byteOffset byteLen =
        .ok (bytesAt p.disk ((63 + sector) * 512 + byteOffset) byteLen) ↔
      ToSectorEnd byteOffset byteLen) ∧
    ∀ (s : State) (len : Nat), s.filepos + len ≤ 2 ^ 31 →
      (State.StaysInside len (s.read p len) ↔ s.Harmless p len) := by
  constructor
  · intro sector byteOffset byteLen
    have haddress : sectorSize * (sector + 63) + byteOffset = (63 + sector) * 512 + byteOffset := by
      rw [sectorSize]
      omega
    rw [devread_eq, haddress]
    split
    · rename_i hend
      exact iff_of_true rfl hend
    · rename_i hmiddle
      exact iff_of_false (fun h => by cases h) hmiddle
  · exact fun s len hpos => State.read_staysInside_iff hpos

theorem ext2_buffer_exact_iff_blank :
    devread (fun _ => 0) 0 1 511 = .ok (bytesAt (fun _ => 0) ((63 + 0) * 512 + 1) 511) ∧
    State.StaysInside 511 (State.read ⟨fun _ => 0, 0, by decide⟩
      ⟨⟨4096, fun b => b + 1, by decide⟩, 1, noBlock, noBlock, [], []⟩ 511) :=
  ⟨((ext2_buffer_exact_iff ⟨fun _ => 0, 0, by decide⟩).1 0 1 511).mpr (.inr (by decide)),
    ((ext2_buffer_exact_iff ⟨fun _ => 0, 0, by decide⟩).2
      ⟨⟨4096, fun b => b + 1, by decide⟩, 1, noBlock, noBlock, [], []⟩ 511 (by decide)).mpr
      (.inr (.inl (.inr (by decide))))⟩

theorem devread_overruns : devread (fun _ => 0) 0 1 1 = .error .outOfBounds := rfl

end Quest.Fs.Ext2
