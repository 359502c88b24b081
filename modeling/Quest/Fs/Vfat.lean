import Quest.Basic
import Quest.Lib.Cursor
import Quest.Lib.Memory

/-! Reading a file of a FAT file system on a USB drive: `fs/vfat/fsys_vfat.c`. -/
namespace Quest.Fs.Vfat

open Quest.Lib Memory Cursor List Nat

def sectorSize : Nat := 512

def fatCacheSize : Nat := 2048

/-- What `umsc_read_sector` finds in a sector, if it does not fail. -/
abbrev Drive := Int → Option (Nat → UInt8)

/-- The loop of `devread_vfat`.  With `byte_offset` behind the sector, the unsigned `sizeof (s) -
byte_offset` is larger than `len`. -/
def devreadFrom (d : Drive) : Nat → Int → Nat → Nat → List UInt8 → Except Fault (Bool × List UInt8)
  | 0, _, _, _, _ => .error .diverges
  | n + 1, sector, byteOffset, len, buf =>
      if len = 0 then .ok (true, buf)
      else
        match d sector with
        | none => .ok (false, buf)
        | some s =>
            if byteOffset ≤ sectorSize then
              let seclen := min len (sectorSize - byteOffset)
              devreadFrom d n (sector + 1) 0 (len - seclen) (buf ++ bytesAt s byteOffset seclen)
            else .error .outOfBounds

def devreadVfat (d : Drive) (sector : Int) (byteOffset byteLen : Nat) :
    Except Fault (Bool × List UInt8) :=
  devreadFrom d (byteLen + 2) (sector + 63) byteOffset byteLen []

inductive FatKind where
  | fat12
  | fat16
  | fat32
  deriving DecidableEq, Repr

def FatKind.size : FatKind → Nat
  | .fat12 => 3
  | .fat16 => 4
  | .fat32 => 8

def FatKind.eofMarker : FatKind → Int
  | .fat12 => 0xff8
  | .fat16 => 0xfff8
  | .fat32 => 0xffffff8

/-- The part of `fat_superblock` that `vfat_mount` fills in; it takes sectors of 512 bytes only. -/
structure Superblock where
  kind : FatKind
  fatOffset : Int
  rootOffset : Int
  rootMax : Nat
  dataOffset : Int
  numClust : Int
  clustsizeBits : Nat
  clustsizeBits_ge : 9 ≤ clustsizeBits

def Superblock.sector (sb : Superblock) (c : Int) : Int :=
  sb.dataOffset + (c - 2) * 2 ^ (sb.clustsizeBits - 9)

def FatKind.next (kind : FatKind) (mem : Nat → UInt8) (pos : Nat) : Int :=
  let next := word mem (pos / 2)
  match kind with
  | .fat12 => (((if pos % 2 = 1 then next >>> 4 else next) % 0x1000 : Nat) : Int)
  | .fat16 => ((next % 0x10000 : Nat) : Int)
  | .fat32 => toInt next

/-- The rest of `fat_superblock`, `FAT_BUF` with what is behind it, and `filepos`. -/
structure State where
  fileCluster : Int
  currentClusterNum : Int
  currentCluster : Int
  cachedFat : Int
  fatBuf : Nat → UInt8
  filepos : Nat

def maxInt : Int := 0x7FFFFFFF

/-- `vfat_dir`, when the path has led to the directory entry of a file: the result is the length
of the file. -/
def State.dirFound (s : State) (firstCluster : Int) (fileLength : Nat) : Int × State :=
  (toInt fileLength, { s with
    fileCluster := firstCluster, currentClusterNum := maxInt, filepos := 0 })

namespace State

variable (d : Drive) (sb : Superblock)

/-- Brings the entry of the current cluster into `FAT_BUF`, which holds the FAT from half byte
`cached_fat` on. -/
def loadFat (s : State) : Except Fault (Bool × State) :=
  let fatEntry := s.currentCluster * sb.kind.size
  let cachedPos := fatEntry - s.cachedFat
  if cachedPos < 0 ∨ 2 * (fatCacheSize : Int) < cachedPos + sb.kind.size then do
    let cachedFat := fatEntry - fatEntry % (2 * sectorSize)
    let (success, bytes) ←
      devreadVfat d (sb.fatOffset + cachedFat / (2 * sectorSize)) 0 fatCacheSize
    .ok (success, { s with
      cachedFat, fatBuf := blit s.fatBuf 0 (fun j => bytes.getD j 0) bytes.length })
  else .ok (true, s)

/-- The loop that follows the chain of clusters, and how it ends. -/
inductive Seek where
  | ready
  | failed
  | eof
  | corrupt
  deriving DecidableEq, Repr

def seek : Nat → State → Nat → Except Fault (Seek × State)
  | 0, _, _ => .error .diverges
  | n + 1, s, logicalClust =>
      if s.currentClusterNum < logicalClust then do
        let (success, s) ← s.loadFat d sb
        if success then
          let next := sb.kind.next s.fatBuf (s.currentCluster * sb.kind.size - s.cachedFat).toNat
          if sb.kind.eofMarker ≤ next then .ok (.eof, s)
          else if next < 2 ∨ sb.numClust ≤ next then .ok (.corrupt, s)
          else
            seek n { s with
              currentCluster := next, currentClusterNum := s.currentClusterNum + 1 } logicalClust
        else .ok (.failed, s)
      else .ok (.ready, s)

/-- The main loop of `vfat_read`, which does not look at the result of `devread_vfat`. -/
def readFrom (stale : Nat → UInt8) :
    Nat → State → Nat → Nat → Nat → List UInt8 → Except Fault (List UInt8 × State)
  | 0, _, _, _, _, _ => .error .diverges
  | n + 1, s, logicalClust, offset, len, buf =>
      if len = 0 then .ok (buf, s)
      else do
        match ← seek d sb ((logicalClust - s.currentClusterNum).toNat + 1) s logicalClust with
        | (.failed, s) => .ok ([], s)
        | (.eof, s) => .ok (buf, s)
        | (.corrupt, s) => .ok ([], s)
        | (.ready, s) =>
            let size := min len (2 ^ sb.clustsizeBits - offset)
            let (_, bytes) ← devreadVfat d (sb.sector s.currentCluster) offset size
            let rest := bytesAt stale (buf.length + bytes.length) (size - bytes.length)
            readFrom stale n { s with filepos := s.filepos + size } (logicalClust + 1) 0 (len - size)
              (buf ++ bytes ++ rest)

def rewind (s : State) (logicalClust : Nat) : State :=
  if logicalClust < s.currentClusterNum then
    { s with currentClusterNum := 0, currentCluster := s.fileCluster }
  else s

def read (stale : Nat → UInt8) (s : State) (len : Nat) : Except Fault (List UInt8 × State) :=
  if 2 ^ 31 ≤ s.filepos then .error .outOfBounds
  else if s.fileCluster < 0 then do
    let size := min len (sb.rootMax - s.filepos)
    let (success, bytes) ← devreadVfat d sb.rootOffset s.filepos size
    if success = true ∧ size ≠ 0 then .ok (bytes, { s with filepos := s.filepos + size })
    else .ok ([], s)
  else
    let logicalClust := s.filepos / 2 ^ sb.clustsizeBits
    let offset := s.filepos % 2 ^ sb.clustsizeBits
    readFrom d sb stale (len + 1) (s.rewind logicalClust) logicalClust offset len []

end State

def Drive.byte (d : Drive) (sector : Int) (k : Nat) : UInt8 :=
  (d (sector + 63 + (k / sectorSize : Nat))).getD (fun _ => 0) (k % sectorSize)

namespace Superblock

variable (d : Drive) (sb : Superblock)

def clustSize : Nat := 2 ^ sb.clustsizeBits

def entry (c : Nat) : Int := sb.kind.next (d.byte sb.fatOffset) (c * sb.kind.size)

/-- The clusters from `c` on, and whether they end with a mark; otherwise the last entry is not
the number of a cluster. -/
inductive Chain : Nat → List Nat → Bool → Prop where
  | eof {c : Nat} : sb.kind.eofMarker ≤ sb.entry d c → Chain c [c] true
  | corrupt {c : Nat} : sb.entry d c < sb.kind.eofMarker →
      sb.entry d c < 2 ∨ sb.numClust ≤ sb.entry d c → Chain c [c] false
  | next {c c' : Nat} {cs : List Nat} {marked : Bool} : sb.entry d c = c' →
      (c' : Int) < sb.kind.eofMarker → 2 ≤ c' → (c' : Int) < sb.numClust →
      Chain c' cs marked → Chain c (c :: cs) marked

def clusterBytes (c : Nat) : List UInt8 := bytesAt (d.byte (sb.sector c)) 0 sb.clustSize

def view (clusters : List Nat) : List UInt8 := clusters.flatMap (sb.clusterBytes d)

/-- A read has to start in the first sector of a cluster, or right behind it. -/
def Fine (pos : Nat) (_ : Nat) : Prop := pos < 2 ^ 31 ∧ pos % sb.clustSize ≤ sectorSize

end Superblock

section Devread

variable {d : Drive} {sector : Int} {byteOffset len n : Nat} {buf : List UInt8}

theorem byte_add (d : Drive) (sector : Int) (i k : Nat) :
    d.byte (sector + i) k = d.byte sector (sectorSize * i + k) := by
  have hpos : 0 < sectorSize := by decide
  have hsec (j : Int) : sector + i + 63 + j = sector + 63 + (i + j) := by omega
  rw [Drive.byte, Drive.byte, mul_add_div hpos, mul_add_mod, hsec]
  rfl

theorem bytesAt_succ (d : Drive) (sector : Int) (len : Nat) :
    bytesAt (d.byte (sector + 1)) 0 len = bytesAt (d.byte sector) sectorSize len := by
  apply map_congr_left
  intro j _
  rw [zero_add]
  exact byte_add d sector 1 j

theorem bytesAt_sector {s : Nat → UInt8} (hs : d (sector + 63) = some s)
    (hle : byteOffset + len ≤ sectorSize) :
    bytesAt s byteOffset len = bytesAt (d.byte sector) byteOffset len := by
  apply bytesAt_congr
  intro j hj
  have hlt : byteOffset + j < sectorSize := by omega
  rw [Drive.byte, div_eq_of_lt hlt, mod_eq_of_lt hlt, Int.natCast_zero, Int.add_zero, hs]
  rfl

def Drive.Reads (d : Drive) (sector : Int) (stop : Nat) : Prop :=
  ∀ k : Nat, sectorSize * k < stop → d (sector + 63 + k) ≠ none

theorem Drive.Reads.first (hd : d.Reads sector (byteOffset + len)) (hlen : len ≠ 0) :
    ∃ s, d (sector + 63) = some s := by
  have := hd 0 (by omega)
  rw [Int.natCast_zero, Int.add_zero] at this
  exact Option.ne_none_iff_exists'.mp this

theorem Drive.Reads.next {rest : Nat} (hd : d.Reads sector (byteOffset + len))
    (hrest : rest ≠ 0 → sectorSize + rest ≤ byteOffset + len) : d.Reads (sector + 1) (0 + rest) := by
  intro k hk
  have := hd (k + 1) (by rw [mul_succ]; omega)
  rwa [show sector + 1 + 63 + (k : Int) = sector + 63 + (k + 1 : Nat) by omega]

theorem bytesAt_rest (d : Drive) (sector : Int) (hoff : byteOffset ≤ sectorSize) :
    bytesAt (d.byte sector) byteOffset (min len (sectorSize - byteOffset)) ++
        bytesAt (d.byte (sector + 1)) 0 (len - min len (sectorSize - byteOffset)) =
      bytesAt (d.byte sector) byteOffset len := by
  rw [bytesAt_succ]
  obtain hle | hlt := Nat.le_or_le len (sectorSize - byteOffset)
  · rw [Nat.min_eq_left hle, Nat.sub_self]
    simp [bytesAt]
  · rw [Nat.min_eq_right hlt]
    have hsplit := bytesAt_add (d.byte sector) byteOffset (sectorSize - byteOffset)
      (len - (sectorSize - byteOffset))
    rw [Nat.add_sub_cancel' hlt, Nat.add_sub_cancel' hoff] at hsplit
    rw [hsplit]

theorem devreadFrom_inside (hd : d.Reads sector (byteOffset + len)) (hoff : byteOffset < sectorSize)
    (hn : len < n) :
    devreadFrom d n (sector + 63) byteOffset len buf =
      .ok (true, buf ++ bytesAt (d.byte sector) byteOffset len) := by
  induction n generalizing sector byteOffset len buf with
  | zero => omega
  | succ n ih =>
    rw [devreadFrom]
    by_cases hlen : len = 0
    · subst hlen
      rw [if_pos rfl]
      simp [bytesAt]
    obtain ⟨s, hs⟩ := hd.first hlen
    have hnext : d.Reads (sector + 1) (0 + (len - min len (sectorSize - byteOffset))) :=
      hd.next (by omega)
    rw [if_neg hlen, hs]
    dsimp only
    rw [if_pos hoff.le, bytesAt_sector hs (by omega), Int.add_right_comm,
      ih hnext (by decide) (by omega), append_assoc, bytesAt_rest d sector hoff.le]

theorem devreadVfat_reads (hd : d.Reads sector (byteOffset + len)) :
    devreadVfat d sector byteOffset len =
      if len = 0 ∨ byteOffset ≤ sectorSize then
        .ok (true, bytesAt (d.byte sector) byteOffset len)
      else .error .outOfBounds := by
  rw [devreadVfat]
  obtain hlt | hge := lt_or_ge byteOffset sectorSize
  · rw [if_pos (.inr hlt.le), devreadFrom_inside hd hlt (by omega), nil_append]
  rw [devreadFrom]
  by_cases hlen : len = 0
  · subst hlen
    rw [if_pos rfl, if_pos (.inl rfl)]
    rfl
  obtain ⟨s, hs⟩ := hd.first hlen
  rw [if_neg hlen, hs]
  dsimp only
  by_cases heq : byteOffset = sectorSize
  · have hnext : d.Reads (sector + 1) (0 + len) := hd.next (by omega)
    rw [heq, if_pos (Nat.le_refl _), if_pos (.inr (Nat.le_refl _)), Nat.sub_self, Nat.min_zero,
      Nat.sub_zero, Int.add_right_comm, devreadFrom_inside hnext (by decide) (by omega),
      bytesAt_succ]
    rfl
  · rw [if_neg (by omega), if_neg (by omega)]

theorem devreadVfat_eq (hd : ∀ i, d i ≠ none) : devreadVfat d sector byteOffset len =
    if len = 0 ∨ byteOffset ≤ sectorSize then
      .ok (true, bytesAt (d.byte sector) byteOffset len)
    else .error .outOfBounds :=
  devreadVfat_reads fun _ _ => hd _

/-- `devread_vfat` fills the buffer with the bytes of the partition, if it starts in the first
sector or right behind it. -/
theorem devread_vfat_exact_iff (d : Drive) (sector : Int) (byteOffset byteLen : Nat)
    (hd : d.Reads sector (byteOffset + byteLen)) :
    devreadVfat d sector byteOffset byteLen =
        .ok (true, bytesAt (d.byte sector) byteOffset byteLen) ↔
      byteLen = 0 ∨ byteOffset ≤ sectorSize := by
  rw [devreadVfat_reads hd]
  split
  · rename_i hinside
    exact iff_of_true rfl hinside
  · rename_i houtside
    exact iff_of_false (fun h => by cases h) houtside

theorem devread_vfat_exact_iff_zeroes :
    devreadVfat (fun _ => some fun _ => 0) 0 500 100 =
      .ok (true, bytesAt (Drive.byte (fun _ => some fun _ => 0) 0) 500 100) :=
  (devread_vfat_exact_iff (fun _ => some fun _ => 0) 0 500 100 fun _ _ => by simp).mpr
    (.inr (by decide))

/-- The second sector of a cluster: the copy starts behind the sector buffer. -/
theorem devread_vfat_leaves_sector :
    devreadVfat (fun _ => some fun _ => 0) 0 600 1 = .error .outOfBounds := rfl

end Devread

theorem word_mod (mem : Nat → UInt8) (a : Nat) :
    word mem a % 0x10000 = (mem a).toNat + 2 ^ 8 * (mem (a + 1)).toNat := by
  have := (mem a).toNat_lt
  have := (mem (a + 1)).toNat_lt
  rw [word]
  omega

theorem twelve_bits (pos : Nat) {w w' : Nat} (hlow : w' % 0x10000 = w % 0x10000) :
    (if pos % 2 = 1 then w' >>> 4 else w') % 0x1000 =
      (if pos % 2 = 1 then w >>> 4 else w) % 0x1000 := by
  rw [shiftRight_eq_div_pow, shiftRight_eq_div_pow]
  split <;> omega

theorem FatKind.next_congr (kind : FatKind) {mem mem' : Nat → UInt8} {base pos count : Nat}
    (hmem : ∀ j < count, mem' j = mem (base + j)) (hpos : pos + kind.size ≤ 2 * count) :
    kind.next mem' pos = kind.next mem (2 * base + pos) := by
  have hdiv : (2 * base + pos) / 2 = base + pos / 2 := by omega
  have hmod : (2 * base + pos) % 2 = pos % 2 := by omega
  have hbyte : ∀ j, pos / 2 + j < count → mem' (pos / 2 + j) = mem (base + pos / 2 + j) := by
    intro j hj
    rw [hmem _ hj, add_assoc]
  have hlow : pos / 2 + 1 < count →
      word mem' (pos / 2) % 0x10000 = word mem (base + pos / 2) % 0x10000 := by
    intro hlt
    have hfirst := hbyte 0 (by omega)
    rw [add_zero, add_zero] at hfirst
    rw [word_mod, word_mod, hbyte 1 hlt, hfirst]
  cases kind with
  | fat12 =>
    have hlow := hlow (by rw [FatKind.size] at hpos; omega)
    rw [next, next, hdiv, hmod, twelve_bits pos hlow]
  | fat16 =>
    have hlow := hlow (by rw [FatKind.size] at hpos; omega)
    simp only [next, hdiv, hlow]
  | fat32 =>
    rw [FatKind.size] at hpos
    have hword : word mem' (pos / 2) = word mem (base + pos / 2) := by
      have hfirst := hbyte 0 (by omega)
      rw [add_zero, add_zero] at hfirst
      rw [word, word, hfirst, hbyte 1 (by omega), hbyte 2 (by omega), hbyte 3 (by omega)]
    simp only [next, hdiv, hword]

namespace State

variable {d : Drive} {sb : Superblock} {s : State}

structure Same (s s' : State) : Prop where
  fileCluster : s'.fileCluster = s.fileCluster
  currentClusterNum : s'.currentClusterNum = s.currentClusterNum
  currentCluster : s'.currentCluster = s.currentCluster
  filepos : s'.filepos = s.filepos

def Cached (d : Drive) (sb : Superblock) (s : State) : Prop :=
  s.cachedFat = -(2 * fatCacheSize : Nat) ∨
    ∃ base : Nat, s.cachedFat = (2 * base : Nat) ∧
      ∀ j < fatCacheSize, s.fatBuf j = d.byte sb.fatOffset (base + j)

theorem loadFat_spec (hd : ∀ i, d i ≠ none) (hcache : s.Cached d sb) {c : Nat}
    (hc : s.currentCluster = c) :
    ∃ s', s.loadFat d sb = .ok (true, s') ∧ s'.Cached d sb ∧ Same s s' ∧
      sb.kind.next s'.fatBuf (c * sb.kind.size - s'.cachedFat).toNat = sb.entry d c := by
  have hentry : (c : Int) * sb.kind.size = (c * sb.kind.size : Nat) := by simp
  have hsize : 1 ≤ sb.kind.size ∧ sb.kind.size ≤ 8 := by
    cases sb.kind <;> decide
  rw [loadFat, hc, hentry]
  dsimp only
  generalize hpos : c * sb.kind.size = pos at *
  split
  · have hbase : (pos : Int) - pos % (2 * sectorSize) = (2 * (sectorSize * (pos / 1024)) : Nat) := by
      rw [sectorSize]
      omega
    have hsec : ((2 * (sectorSize * (pos / 1024)) : Nat) : Int) / (2 * sectorSize) =
        (pos / 1024 : Nat) := by
      rw [sectorSize]
      omega
    rw [hbase, hsec, devreadVfat_eq hd, if_pos (.inr (Nat.zero_le _)), ok_bind]
    have hbytes : ∀ j < fatCacheSize,
        blit s.fatBuf 0 (fun j => (bytesAt (d.byte (sb.fatOffset + (pos / 1024 : Nat))) 0
          fatCacheSize).getD j 0) fatCacheSize j =
          d.byte sb.fatOffset (sectorSize * (pos / 1024) + j) := by
      intro j hj
      rw [blit_inside (Nat.zero_le _) (by omega), Nat.sub_zero, getD_bytesAt hj, Nat.zero_add,
        byte_add]
    dsimp only
    rw [length_bytesAt]
    refine ⟨_, rfl, .inr ⟨_, rfl, hbytes⟩, ⟨rfl, rfl, hc.symm, rfl⟩, ?_⟩
    have hrest : ((pos : Int) - (2 * (sectorSize * (pos / 1024)) : Nat)).toNat = pos % 1024 := by
      rw [sectorSize]
      omega
    have hwhole : 2 * (sectorSize * (pos / 1024)) + pos % 1024 = pos := by
      rw [sectorSize]
      omega
    rw [hrest, sb.kind.next_congr hbytes (by rw [fatCacheSize]; omega), hwhole, Superblock.entry, hpos]
  · rename_i hhit
    obtain hnone | ⟨base, hbase, hbytes⟩ := hcache
    · omega
    · refine ⟨s, rfl, .inr ⟨base, hbase, hbytes⟩, ⟨rfl, rfl, rfl, rfl⟩, ?_⟩
      rw [sb.kind.next_congr hbytes (by omega), Superblock.entry, hpos]
      congr 1
      omega

structure On (clusters : List Nat) (s : State) (i : Nat) : Prop where
  currentClusterNum : s.currentClusterNum = i
  currentCluster : ∃ c, clusters[i]? = some c ∧ s.currentCluster = c

variable {first i k n : Nat} {clusters : List Nat} {marked : Bool}

theorem On.same {s' : State} (hon : s.On clusters i) (hsame : Same s s') : s'.On clusters i := by
  obtain ⟨c, hc, hcur⟩ := hon.currentCluster
  exact ⟨hsame.currentClusterNum.trans hon.currentClusterNum, c, hc,
    hsame.currentCluster.trans hcur⟩

theorem chain_entry (h : sb.Chain d first clusters marked) {c : Nat}
    (hc : clusters[i]? = some c) :
    (∃ c', clusters[i + 1]? = some c' ∧ sb.entry d c = c' ∧ (c' : Int) < sb.kind.eofMarker ∧
      2 ≤ c' ∧ (c' : Int) < sb.numClust) ∨
    (i + 1 = clusters.length ∧ marked = true ∧ sb.kind.eofMarker ≤ sb.entry d c) ∨
    (i + 1 = clusters.length ∧ marked = false ∧ sb.entry d c < sb.kind.eofMarker ∧
      (sb.entry d c < 2 ∨ sb.numClust ≤ sb.entry d c)) := by
  induction h generalizing i with
  | eof hend =>
    cases i with
    | zero =>
      cases hc
      exact .inr (.inl ⟨rfl, rfl, hend⟩)
    | succ i => cases hc
  | corrupt hlt hbad =>
    cases i with
    | zero =>
      cases hc
      exact .inr (.inr ⟨rfl, rfl, hlt, hbad⟩)
    | succ i => cases hc
  | next hentry hlt hge hnum hrest ih =>
    cases i with
    | zero =>
      cases hc
      refine .inl ⟨_, ?_, hentry, hlt, hge, hnum⟩
      cases hrest <;> rfl
    | succ i =>
      rw [getElem?_cons_succ] at hc
      rw [getElem?_cons_succ, length_cons, add_left_inj]
      exact ih hc

theorem seek_spec (hd : ∀ i, d i ≠ none) (hchain : sb.Chain d first clusters marked)
    (hcache : s.Cached d sb) (hon : s.On clusters i) (hn : k < n) :
    ∃ s', s'.Cached d sb ∧ s'.fileCluster = s.fileCluster ∧ s'.filepos = s.filepos ∧
      (i + k < clusters.length → seek d sb n s (i + k) = .ok (.ready, s') ∧ s'.On clusters (i + k)) ∧
      (clusters.length ≤ i + k →
        seek d sb n s (i + k) = .ok (if marked then .eof else .corrupt, s') ∧
        ∃ j, s'.On clusters j) := by
  induction k generalizing s i n with
  | zero =>
    obtain ⟨n, rfl⟩ := Nat.exists_eq_add_of_le' hn
    obtain ⟨c, hc, -⟩ := hon.currentCluster
    have hlt := (List.getElem?_eq_some_iff.mp hc).1
    refine ⟨s, hcache, rfl, rfl, fun _ => ⟨?_, hon⟩, fun hle => by omega⟩
    rw [seek, hon.currentClusterNum, if_neg (by omega)]
  | succ k ih =>
    obtain ⟨n, rfl⟩ := Nat.exists_eq_add_of_le' (Nat.one_le_of_lt hn)
    obtain ⟨c, hc, hcur⟩ := hon.currentCluster
    obtain ⟨s', hload, hcache', hsame, hnext⟩ := loadFat_spec hd hcache hcur
    rw [seek, hon.currentClusterNum, if_pos (by omega), hload, ok_bind]
    dsimp only
    rw [if_pos rfl, hsame.currentCluster, hcur, hnext]
    obtain ⟨c', hc', hentry, hlt, hge, hnum⟩ | ⟨hlast, hmarked, hend⟩ | ⟨hlast, hmarked, hlt, hbad⟩ :=
      chain_entry hchain hc
    · rw [hentry, if_neg (by omega), if_neg (by omega)]
      have hon' : On clusters { s' with
          currentCluster := c', currentClusterNum := s'.currentClusterNum + 1 } (i + 1) := by
        refine ⟨?_, c', hc', rfl⟩
        dsimp only
        rw [hsame.currentClusterNum, hon.currentClusterNum]
        rfl
      obtain ⟨s'', hcache'', hfile, hpos, hready, hstop⟩ := ih (s := { s' with
        currentCluster := c', currentClusterNum := s'.currentClusterNum + 1 }) hcache' hon'
        (show k < n by omega)
      rw [show i + (k + 1) = i + 1 + k by omega]
      exact ⟨s'', hcache'', hfile.trans hsame.fileCluster, hpos.trans hsame.filepos, hready, hstop⟩
    · rw [if_pos hend, hmarked]
      exact ⟨s', hcache', hsame.fileCluster, hsame.filepos, fun hlt => by omega,
        fun _ => ⟨rfl, i, hon.same hsame⟩⟩
    · rw [if_neg (by omega), if_pos hbad, hmarked]
      exact ⟨s', hcache', hsame.fileCluster, hsame.filepos, fun hlt => by omega,
        fun _ => ⟨rfl, i, hon.same hsame⟩⟩

structure At (d : Drive) (sb : Superblock) (clusters : List Nat) (s : State) (pos : Nat) : Prop where
  cached : s.Cached d sb
  fileCluster : ∃ c : Nat, clusters[0]? = some c ∧ s.fileCluster = c
  filepos : s.filepos = pos
  on : s.currentClusterNum = maxInt ∨ ∃ i, s.On clusters i

theorem at_dirFound (hcache : s.Cached d sb) (fileLength : Nat)
    (hchain : sb.Chain d first clusters marked) :
    At d sb clusters (s.dirFound first fileLength).2 0 := by
  refine ⟨hcache, ⟨first, ?_, rfl⟩, rfl, .inl rfl⟩
  cases hchain <;> rfl

theorem length_clusterBytes (d : Drive) (sb : Superblock) (c : Nat) :
    (sb.clusterBytes d c).length = sb.clustSize := length_bytesAt

theorem length_view (d : Drive) (sb : Superblock) (clusters : List Nat) :
    (sb.view d clusters).length = sb.clustSize * clusters.length := by
  rw [Superblock.view, length_blocks (length_clusterBytes d sb)]

variable {pos offset logicalClust len : Nat} {stale : Nat → UInt8} {buf : List UInt8}

theorem readFrom_cluster (hd : ∀ i, d i ≠ none) (hchain : sb.Chain d first clusters marked)
    (hat : s.At d sb clusters pos) (hon : s.On clusters i) (hi : i ≤ logicalClust)
    (hlt : logicalClust < clusters.length) (hlen : 0 < len) (hoff : offset < sb.clustSize)
    (hpos : pos = sb.clustSize * logicalClust + offset) :
    ∃ s', s'.At d sb clusters (pos + min len (sb.clustSize - offset)) ∧
      s'.On clusters logicalClust ∧ readFrom d sb stale (n + 1) s logicalClust offset len buf =
        if offset ≤ sectorSize then
          readFrom d sb stale n s' (logicalClust + 1) 0 (len - min len (sb.clustSize - offset))
            (buf ++ ((sb.view d clusters).drop pos).take (min len (sb.clustSize - offset)))
        else .error .outOfBounds := by
  obtain ⟨k, rfl⟩ := Nat.exists_eq_add_of_le hi
  obtain ⟨s', hcache, hfile, hfilepos, hready, -⟩ :=
    seek_spec hd hchain hat.cached hon (Nat.lt_succ_self k)
  obtain ⟨hseek, hon'⟩ := hready hlt
  obtain ⟨c, hc, hcur⟩ := hon'.currentCluster
  have hfuel : ((i + k : Nat) - s.currentClusterNum).toNat + 1 = k + 1 := by
    rw [hon.currentClusterNum]
    omega
  have hbytes := take_drop_blocks (length_clusterBytes d sb) hc
    (show offset + min len (sb.clustSize - offset) ≤ sb.clustSize by omega)
  rw [← hpos, ← Superblock.view, Superblock.clusterBytes, drop_bytesAt hoff.le,
    take_bytesAt (by omega), Nat.zero_add] at hbytes
  refine ⟨{ s' with filepos := pos + min len (sb.clustSize - offset) },
    ⟨hcache, hfile ▸ hat.fileCluster, rfl, .inr ⟨_, hon'.1, hon'.2⟩⟩, ⟨hon'.1, hon'.2⟩, ?_⟩
  rw [readFrom, if_neg (by omega), hfuel, hseek, ok_bind]
  dsimp only
  rw [← Superblock.clustSize, hcur, devreadVfat_eq hd]
  by_cases hin : offset ≤ sectorSize
  · rw [if_pos hin, if_pos (.inr hin), ok_bind]
    rw [length_bytesAt, Nat.sub_self, bytesAt_zero, append_nil, hfilepos, hat.filepos, hbytes]
  · rw [if_neg hin, if_neg (by omega)]
    rfl

theorem readFrom_end (hd : ∀ i, d i ≠ none) (hchain : sb.Chain d first clusters marked)
    (hat : s.At d sb clusters pos) (hon : s.On clusters i) (hi : i ≤ logicalClust)
    (hge : clusters.length ≤ logicalClust) (hlen : 0 < len) :
    ∃ s', s'.At d sb clusters pos ∧ readFrom d sb stale (n + 1) s logicalClust offset len buf =
      .ok (if marked then buf else [], s') := by
  obtain ⟨k, rfl⟩ := Nat.exists_eq_add_of_le hi
  obtain ⟨s', hcache, hfile, hpos, -, hstop⟩ :=
    seek_spec hd hchain hat.cached hon (Nat.lt_succ_self k)
  obtain ⟨hseek, hon'⟩ := hstop hge
  have hfuel : ((i + k : Nat) - s.currentClusterNum).toNat + 1 = k + 1 := by
    rw [hon.currentClusterNum]
    omega
  refine ⟨s', ⟨hcache, hfile ▸ hat.fileCluster, hpos.trans hat.filepos, .inr hon'⟩, ?_⟩
  rw [readFrom, if_neg (by omega), hfuel, hseek, ok_bind]
  cases marked <;> rfl

theorem readFrom_spec (hd : ∀ i, d i ≠ none) (hchain : sb.Chain d first clusters marked)
    (hat : s.At d sb clusters pos) (hon : s.On clusters i) (hi : i ≤ logicalClust)
    (hle : pos ≤ (sb.view d clusters).length) (hoff : offset < sb.clustSize)
    (hpos : 0 < len → pos = sb.clustSize * logicalClust + offset) (hn : len < n)
    (hin : offset ≤ sectorSize) :
    ∃ s', s'.At d sb clusters (min (pos + len) (sb.view d clusters).length) ∧
      readFrom d sb stale n s logicalClust offset len buf =
        .ok (if marked = true ∨ pos + len ≤ (sb.view d clusters).length then
          buf ++ ((sb.view d clusters).drop pos).take len else [], s') := by
  induction n generalizing s pos i logicalClust offset len buf with
  | zero => omega
  | succ n ih =>
    obtain rfl | hlen := Nat.eq_zero_or_pos len
    · rw [readFrom, if_pos rfl, Nat.add_zero, if_pos (.inr hle), Nat.min_eq_left hle, take_zero,
        append_nil]
      exact ⟨s, hat, rfl⟩
    have hpos := hpos hlen
    have hsize := length_view d sb clusters
    by_cases hlt : logicalClust < clusters.length
    · obtain ⟨s', hat', hon', hround⟩ :=
        readFrom_cluster hd hchain hat hon hi hlt hlen hoff hpos
      have hnext : pos + min len (sb.clustSize - offset) ≤ (sb.view d clusters).length := by
        have := mul_le_mul_left sb.clustSize hlt
        rw [mul_succ] at this
        omega
      rw [hround, if_pos hin]
      have hwhole : 0 < len - min len (sb.clustSize - offset) →
          pos + min len (sb.clustSize - offset) = sb.clustSize * (logicalClust + 1) + 0 := by
        intro hrest
        rw [mul_succ]
        omega
      generalize hsized : min len (sb.clustSize - offset) = size at *
      obtain ⟨rest, rfl⟩ := Nat.exists_eq_add_of_le (show size ≤ len by omega)
      rw [Nat.add_sub_cancel_left] at hwhole ⊢
      obtain ⟨s'', hat'', hret⟩ := ih hat' hon' (Nat.le_succ _) hnext (Nat.zero_lt_of_lt hoff)
        hwhole (by omega) (Nat.zero_le _)
      rw [Nat.add_assoc] at hret hat''
      refine ⟨s'', hat'', hret.trans ?_⟩
      rw [append_assoc, take_add, drop_drop]
    · have hmul := mul_le_mul_left sb.clustSize (not_lt.mp hlt)
      have hend : pos = (sb.view d clusters).length := by omega
      obtain ⟨s', hat', hret⟩ : ∃ s', s'.At d sb clusters pos ∧
          readFrom d sb stale (n + 1) s logicalClust offset len buf =
            .ok (if marked then buf else [], s') :=
        readFrom_end hd hchain hat hon hi (not_lt.mp hlt) hlen
      rw [Nat.min_eq_right (by omega), ← hend, hret, drop_of_length_le (by omega),
        take_nil, append_nil]
      refine ⟨s', hat', ?_⟩
      simp only [or_iff_left (show ¬pos + len ≤ pos by omega)]

theorem At.rewind (hat : s.At d sb clusters pos) (hpos : pos < 2 ^ 31) :
    (s.rewind (pos / sb.clustSize)).At d sb clusters pos ∧
      ∃ i ≤ pos / sb.clustSize, (s.rewind (pos / sb.clustSize)).On clusters i := by
  obtain ⟨c, hc, hfile⟩ := hat.fileCluster
  rw [State.rewind]
  split
  · have hon : On clusters { s with currentClusterNum := 0, currentCluster := s.fileCluster } 0 :=
      ⟨rfl, c, hc, hfile⟩
    exact ⟨⟨hat.cached, ⟨c, hc, hfile⟩, hat.filepos, .inr ⟨0, hon⟩⟩, 0, Nat.zero_le _, hon⟩
  · rename_i hge
    obtain hfresh | ⟨i, hon⟩ := hat.on
    · have hlt : pos / sb.clustSize < 2 ^ 30 := by
        have htwo : 2 ≤ sb.clustSize :=
          Nat.pow_le_pow_right (show 0 < 2 by decide) (show 1 ≤ _ from by have := sb.clustsizeBits_ge; omega)
        apply Nat.div_lt_of_lt_mul
        omega
      rw [hfresh, maxInt] at hge
      omega
    · rw [hon.currentClusterNum, Int.ofNat_lt] at hge
      exact ⟨hat, i, not_lt.mp hge, hon⟩

theorem clustSize_pos (sb : Superblock) : 0 < sb.clustSize := Nat.two_pow_pos _

theorem read_fine (hd : ∀ i, d i ≠ none) (hchain : sb.Chain d first clusters marked)
    (hat : s.At d sb clusters pos) (hle : pos ≤ (sb.view d clusters).length)
    (hfine : sb.Fine pos len) :
    ∃ s', read d sb stale s len = .ok (got (sb.view d clusters) marked pos len, s') ∧
      s'.At d sb clusters (min (pos + len) (sb.view d clusters).length) := by
  obtain ⟨hat', i, hi, hon⟩ := hat.rewind hfine.1
  obtain ⟨c, -, hfile⟩ := hat.fileCluster
  rw [read, hat.filepos, if_neg (by have := hfine.1; omega), if_neg (by omega)]
  obtain ⟨s'', hat'', hret⟩ := readFrom_spec hd hchain hat' hon hi hle
    (mod_lt pos (clustSize_pos sb)) (fun _ => (div_add_mod pos sb.clustSize).symm)
    (Nat.lt_succ_self len) hfine.2
  exact ⟨s'', hret, hat''⟩

theorem read_faults (hd : ∀ i, d i ≠ none) (hchain : sb.Chain d first clusters marked)
    (hat : s.At d sb clusters pos) (hle : pos ≤ (sb.view d clusters).length) (hlen : 0 < len)
    (hfine : ¬sb.Fine pos len) : ∃ fault, read d sb stale s len = .error fault := by
  rw [read, hat.filepos]
  by_cases hpos : pos < 2 ^ 31
  · obtain ⟨hat', i, hi, hon⟩ := hat.rewind hpos
    obtain ⟨c, -, hfile⟩ := hat.fileCluster
    have hoff : ¬pos % sb.clustSize ≤ sectorSize := fun hin => hfine ⟨hpos, hin⟩
    rw [if_neg (by omega), if_neg (by omega)]
    have hlt : pos / sb.clustSize < clusters.length := by
      apply Nat.div_lt_of_lt_mul
      apply Nat.lt_of_le_of_ne (length_view d sb clusters ▸ hle)
      intro hend
      rw [hend, Nat.mul_mod_right] at hoff
      exact hoff (Nat.zero_le _)
    obtain ⟨s'', -, -, hround⟩ := readFrom_cluster hd hchain hat' hon hi hlt hlen
      (mod_lt pos (clustSize_pos sb)) (div_add_mod pos sb.clustSize).symm
    rw [if_neg hoff] at hround
    exact ⟨_, hround⟩
  · rw [if_pos (by omega)]
    exact ⟨_, rfl⟩

end State

end Quest.Fs.Vfat
