import Quest.Fs.Vfat
import Quest.Lib.Reach

/-! Reads of a FAT file from a drive that may fail at any time, and what `vfat_read` keeps from one
call to the next. -/
namespace Quest.Fs.Vfat

open Quest.Lib Memory Cursor Reach

/-- What the drive has for each read of a sector in a call of `vfat_read`, the first one being
number 0. -/
abbrev Device := Nat → Drive

namespace Device

variable (dev : Device) (sb : Superblock)

/-- The loop of `devread_vfat`, when `t` sectors were read before; it also returns how many were
read then. -/
def devreadFrom :
    Nat → Nat → Int → Nat → Nat → List UInt8 → Except Fault (Bool × List UInt8 × Nat)
  | 0, _, _, _, _, _ => .error .diverges
  | n + 1, t, sector, byteOffset, len, buf =>
      if len = 0 then .ok (true, buf, t)
      else
        match dev t sector with
        | none => .ok (false, buf, t + 1)
        | some s =>
            if byteOffset ≤ sectorSize then
              let seclen := min len (sectorSize - byteOffset)
              devreadFrom n (t + 1) (sector + 1) 0 (len - seclen)
                (buf ++ bytesAt s byteOffset seclen)
            else .error .outOfBounds

def devreadVfat (t : Nat) (sector : Int) (byteOffset byteLen : Nat) :
    Except Fault (Bool × List UInt8 × Nat) :=
  dev.devreadFrom (byteLen + 2) t (sector + 63) byteOffset byteLen []

/-- The part of `vfat_read` that brings an entry into `FAT_BUF`: `cached_fat` is set before the
read. -/
def loadFat (t : Nat) (s : State) : Except Fault (Bool × State × Nat) :=
  let fatEntry := s.currentCluster * sb.kind.size
  let cachedPos := fatEntry - s.cachedFat
  if cachedPos < 0 ∨ 2 * (fatCacheSize : Int) < cachedPos + sb.kind.size then do
    let cachedFat := fatEntry - fatEntry % (2 * sectorSize)
    let (success, bytes, t) ←
      dev.devreadVfat t (sb.fatOffset + cachedFat / (2 * sectorSize)) 0 fatCacheSize
    .ok (success, { s with
      cachedFat, fatBuf := blit s.fatBuf 0 (fun j => bytes.getD j 0) bytes.length }, t)
  else .ok (true, s, t)

def seek : Nat → Nat → State → Nat → Except Fault (State.Seek × State × Nat)
  | 0, _, _, _ => .error .diverges
  | n + 1, t, s, logicalClust =>
      if s.currentClusterNum < logicalClust then do
        let (success, s, t) ← dev.loadFat sb t s
        if success then
          let next := sb.kind.next s.fatBuf (s.currentCluster * sb.kind.size - s.cachedFat).toNat
          if sb.kind.eofMarker ≤ next then .ok (.eof, s, t)
          else if next < 2 ∨ sb.numClust ≤ next then .ok (.corrupt, s, t)
          else
            seek n t { s with
              currentCluster := next, currentClusterNum := s.currentClusterNum + 1 } logicalClust
        else .ok (.failed, s, t)
      else .ok (.ready, s, t)

def readFrom (stale : Nat → UInt8) :
    Nat → Nat → State → Nat → Nat → Nat → List UInt8 → Except Fault (List UInt8 × State × Nat)
  | 0, _, _, _, _, _, _ => .error .diverges
  | n + 1, t, s, logicalClust, offset, len, buf =>
      if len = 0 then .ok (buf, s, t)
      else do
        match ← dev.seek sb ((logicalClust - s.currentClusterNum).toNat + 1) t s logicalClust with
        | (.failed, s, t) => .ok ([], s, t)
        | (.eof, s, t) => .ok (buf, s, t)
        | (.corrupt, s, t) => .ok ([], s, t)
        | (.ready, s, t) =>
            let size := min len (2 ^ sb.clustsizeBits - offset)
            let (_, bytes, t) ← dev.devreadVfat t (sb.sector s.currentCluster) offset size
            let rest := bytesAt stale (buf.length + bytes.length) (size - bytes.length)
            readFrom stale n t { s with filepos := s.filepos + size } (logicalClust + 1) 0
              (len - size) (buf ++ bytes ++ rest)

def read (stale : Nat → UInt8) (s : State) (len : Nat) : Except Fault (List UInt8 × State × Nat) :=
  if 2 ^ 31 ≤ s.filepos then .error .outOfBounds
  else if s.fileCluster < 0 then do
    let size := min len (sb.rootMax - s.filepos)
    let (success, bytes, t) ← dev.devreadVfat 0 sb.rootOffset s.filepos size
    if success = true ∧ size ≠ 0 then .ok (bytes, { s with filepos := s.filepos + size }, t)
    else .ok ([], s, t)
  else
    let logicalClust := s.filepos / 2 ^ sb.clustsizeBits
    let offset := s.filepos % 2 ^ sb.clustsizeBits
    dev.readFrom sb stale (len + 1) 0 (s.rewind logicalClust) logicalClust offset len []

end Device

/-- The result without the count of the reads. -/
def untimed {α β : Type} : Except Fault (α × β × Nat) → Except Fault (α × β) :=
  Except.map fun r => (r.1, r.2.1)

abbrev Image := Int → Nat → UInt8

def Image.drive (image : Image) : Drive := fun i => some (image i)

def Device.Shows (dev : Device) (image : Image) : Prop :=
  ∀ t i s, dev t i = some s → s = image i

def FatKind.link (kind : FatKind) (mem : Nat → UInt8) (pos : Nat) : Int :=
  match kind with
  | .fat32 => ((word mem (pos / 2) % 2 ^ 28 : Nat) : Int)
  | kind => kind.next mem pos

def Superblock.link (sb : Superblock) (image : Image) (c : Nat) : Int :=
  sb.kind.link (image.drive.byte sb.fatOffset) (c * sb.kind.size)

inductive Superblock.Linked (sb : Superblock) (image : Image) : Nat → List Nat → Prop where
  | last {c : Nat} : sb.kind.eofMarker ≤ sb.link image c → sb.Linked image c [c]
  | next {c c' : Nat} {cs : List Nat} : sb.link image c = c' → 2 ≤ c' → (c' : Int) < sb.numClust →
      (c' : Int) < sb.kind.eofMarker → sb.Linked image c' cs → sb.Linked image c (c :: cs)

theorem FatKind.link_eq_next {kind : FatKind} {mem : Nat → UInt8} {pos : Nat}
    (hge : 2 ≤ kind.next mem pos) (hlt : kind.next mem pos < kind.eofMarker) :
    kind.link mem pos = kind.next mem pos := by
  cases kind with
  | fat12 => rfl
  | fat16 => rfl
  | fat32 =>
    simp only [FatKind.next, FatKind.eofMarker, FatKind.link, toInt] at *
    omega

theorem Superblock.Linked.entry {sb : Superblock} {image : Image} {first i c : Nat}
    {clusters : List Nat} (h : sb.Linked image first clusters) (hc : clusters[i]? = some c)
    (hge : 2 ≤ sb.entry image.drive c) (hlt : sb.entry image.drive c < sb.kind.eofMarker) :
    ∃ c', sb.entry image.drive c = (c' : Nat) ∧ clusters[i + 1]? = some c' := by
  have hlink : sb.link image c = sb.entry image.drive c := FatKind.link_eq_next hge hlt
  induction h generalizing i with
  | last hend =>
    cases i with
    | zero =>
      cases hc
      omega
    | succ i => cases hc
  | next hnext _ _ _ hrest ih =>
    cases i with
    | zero =>
      cases hc
      refine ⟨_, hlink.symm.trans hnext, ?_⟩
      cases hrest <;> rfl
    | succ i => exact ih hc

namespace Device

/-- No read of the clusters from number `i` of the file on fails, up to the byte `stop`. -/
def DataReads (dev : Device) (sb : Superblock) (clusters : List Nat) (i stop : Nat) : Prop :=
  ∀ (t j c : Nat), clusters[j]? = some c → i ≤ j →
    (dev t).Reads (sb.sector c) (min sb.clustSize (stop - sb.clustSize * j))

variable {dev : Device} {sb : Superblock} {image : Image} {s : State} {first : Nat}
  {clusters : List Nat} {byteOffset len n i logicalClust : Nat}

theorem devreadFrom_shows (h : dev.Shows image) (hoff : byteOffset ≤ sectorSize)
    (hn : len + (if byteOffset = sectorSize then 1 else 0) < n) (t : Nat) (sector : Int)
    (buf : List UInt8) :
    ∃ success bytes t', dev.devreadFrom n t (sector + 63) byteOffset len buf =
        .ok (success, bytes, t') ∧
      (success = true → bytes = buf ++ bytesAt (image.drive.byte sector) byteOffset len) ∧
      ((∀ t, (dev t).Reads sector (byteOffset + len)) → success = true) := by
  induction n generalizing t sector byteOffset len buf with
  | zero => omega
  | succ n ih =>
    rw [devreadFrom]
    by_cases hlen : len = 0
    · rw [if_pos hlen, hlen]
      exact ⟨true, buf, t, rfl, fun _ => by simp [bytesAt], fun _ => rfl⟩
    rw [if_neg hlen]
    cases hsec : dev t (sector + 63) with
    | none =>
      refine ⟨false, buf, t + 1, rfl, by simp, fun hreads => ?_⟩
      obtain ⟨s, hs⟩ := (hreads t).first hlen
      rw [hsec] at hs
      cases hs
    | some s =>
      have hs : image.drive (sector + 63) = some s := by
        rw [h t _ s hsec]
        rfl
      have hfuel : len - min len (sectorSize - byteOffset) +
          (if 0 = sectorSize then 1 else 0) < n := by
        rw [if_neg (by decide)]
        split at hn <;> omega
      obtain ⟨success, bytes, t', hread, hbytes, hok⟩ := ih (Nat.zero_le _) hfuel (t + 1)
        (sector + 1) (buf ++ bytesAt s byteOffset (min len (sectorSize - byteOffset)))
      dsimp only
      rw [if_pos hoff, Int.add_right_comm, hread]
      refine ⟨success, bytes, t', rfl, fun hsucc => ?_, fun hreads => ?_⟩
      · rw [hbytes hsucc, bytesAt_sector hs (by omega), List.append_assoc,
          bytesAt_rest _ _ hoff]
      · exact hok fun t => (hreads t).next (by omega)

theorem devreadVfat_shows (h : dev.Shows image) (hoff : byteOffset ≤ sectorSize) (t : Nat)
    (sector : Int) (len : Nat) :
    ∃ success bytes t', dev.devreadVfat t sector byteOffset len = .ok (success, bytes, t') ∧
      (success = true → bytes = bytesAt (image.drive.byte sector) byteOffset len) ∧
      ((∀ t, (dev t).Reads sector (byteOffset + len)) → success = true) := by
  exact devreadFrom_shows h hoff (by split <;> omega) t sector []

theorem drive_ne_none (image : Image) (i : Int) : image.drive i ≠ none := nofun

theorem loadFat_shows (h : dev.Shows image) (hcache : s.Cached image.drive sb) {c : Nat}
    (hc : s.currentCluster = c) (t : Nat) :
    ∃ success s' t', dev.loadFat sb t s = .ok (success, s', t') ∧ State.Same s s' ∧
      (success = true → s'.Cached image.drive sb ∧
        sb.kind.next s'.fatBuf (c * sb.kind.size - s'.cachedFat).toNat =
          sb.entry image.drive c) := by
  obtain ⟨s', hload, hcache', hsame, hnext⟩ :=
    State.loadFat_spec (drive_ne_none image) hcache hc
  rw [State.loadFat] at hload
  rw [loadFat]
  dsimp only at hload ⊢
  split
  · rename_i hmiss
    rw [if_pos hmiss, devreadVfat_eq (drive_ne_none image), if_pos (.inr (Nat.zero_le _)), ok_bind,
      Except.ok.injEq, Prod.mk.injEq] at hload
    obtain ⟨success, bytes, t', hread, hbytes, -⟩ := devreadVfat_shows h (Nat.zero_le sectorSize) t
      (sb.fatOffset + (s.currentCluster * sb.kind.size -
        s.currentCluster * sb.kind.size % (2 * sectorSize)) / (2 * sectorSize)) fatCacheSize
    rw [hread, ok_bind]
    refine ⟨_, _, _, rfl, ⟨rfl, rfl, rfl, rfl⟩, fun hsucc => ?_⟩
    rw [hbytes hsucc, hload.2]
    exact ⟨hcache', hnext⟩
  · rename_i hhit
    rw [if_neg hhit] at hload
    cases hload
    exact ⟨true, s, t, rfl, hsame, fun _ => ⟨hcache', hnext⟩⟩

structure Sought (sb : Superblock) (image : Image) (clusters : List Nat)
    (logicalClust : Nat) (s : State) (found : State.Seek) (s' : State) : Prop where
  fileCluster : s'.fileCluster = s.fileCluster
  filepos : s'.filepos = s.filepos
  on : ∃ i, s'.On clusters i
  ready : found = .ready → s'.Cached image.drive sb ∧ s'.On clusters logicalClust

theorem seek_shows (h : dev.Shows image) (hchain : sb.Linked image first clusters)
    (hcache : s.Cached image.drive sb) (hon : s.On clusters i) (hi : i ≤ logicalClust)
    (hn : logicalClust < i + n) (t : Nat) :
    ∃ found s' t', dev.seek sb n t s logicalClust = .ok (found, s', t') ∧
      Sought sb image clusters logicalClust s found s' := by
  induction n generalizing s i t with
  | zero => omega
  | succ n ih =>
    rw [seek, hon.currentClusterNum]
    obtain rfl | hlt := hi.eq_or_lt
    · rw [if_neg (Int.lt_irrefl _)]
      exact ⟨_, s, t, rfl, rfl, rfl, ⟨i, hon⟩, fun _ => ⟨hcache, hon⟩⟩
    obtain ⟨c, hc, hcur⟩ := hon.currentCluster
    obtain ⟨success, s1, t1, hload, hsame, hloaded⟩ := loadFat_shows h hcache hcur t
    have hon1 := hon.same hsame
    rw [if_pos (Int.ofNat_lt.mpr hlt), hload, ok_bind]
    dsimp only
    cases success with
    | false =>
      exact ⟨.failed, s1, t1, rfl, hsame.fileCluster, hsame.filepos, ⟨i, hon1⟩, nofun⟩
    | true =>
      obtain ⟨hcache1, hnext⟩ := hloaded rfl
      rw [if_pos rfl, hsame.currentCluster, hcur, hnext]
      by_cases hend : sb.kind.eofMarker ≤ sb.entry image.drive c
      · rw [if_pos hend]
        exact ⟨.eof, s1, t1, rfl, hsame.fileCluster, hsame.filepos, ⟨i, hon1⟩, nofun⟩
      rw [if_neg hend]
      by_cases hbad : sb.entry image.drive c < 2 ∨ sb.numClust ≤ sb.entry image.drive c
      · rw [if_pos hbad]
        exact ⟨.corrupt, s1, t1, rfl, hsame.fileCluster, hsame.filepos, ⟨i, hon1⟩, nofun⟩
      rw [if_neg hbad]
      -- the entry is the number of the next cluster
      obtain ⟨c', hentry, hc'⟩ := hchain.entry hc (by omega) (by omega)
      rw [hentry]
      have hon2 : State.On clusters { s1 with
          currentCluster := c', currentClusterNum := s1.currentClusterNum + 1 } (i + 1) := by
        refine ⟨?_, c', hc', rfl⟩
        dsimp only
        rw [hon1.currentClusterNum]
        rfl
      obtain ⟨found, s', t', hseek, hsought⟩ := ih (s := { s1 with
        currentCluster := c', currentClusterNum := s1.currentClusterNum + 1 }) hcache1 hon2 hlt
        (by omega) t1
      exact ⟨found, s', t', hseek, hsought.fileCluster.trans hsame.fileCluster,
        hsought.filepos.trans hsame.filepos, hsought.on, hsought.ready⟩

structure Placed (clusters : List Nat) (s : State) : Prop where
  fileCluster : ∃ c : Nat, clusters[0]? = some c ∧ s.fileCluster = c
  on : s.currentClusterNum = maxInt ∨ ∃ i, s.On clusters i

theorem readFrom_shows (stale : Nat → UInt8) {offset pos stop : Nat} (h : dev.Shows image)
    (hchain : sb.Linked image first clusters) (hcache : s.Cached image.drive sb)
    (hon : s.On clusters i) (hi : i ≤ logicalClust) (hoff : offset < sb.clustSize)
    (hin : offset ≤ sectorSize) (hpos : 0 < len → pos = sb.clustSize * logicalClust + offset)
    (hstop : pos + len = stop) (hdata : dev.DataReads sb clusters logicalClust stop)
    (hn : len < n) (t : Nat) (buf : List UInt8) :
    ∃ out s' t', dev.readFrom sb stale n t s logicalClust offset len buf = .ok (out, s', t') ∧
      out <+: buf ++ ((sb.view image.drive clusters).drop pos).take len ∧
      s'.fileCluster = s.fileCluster ∧ ∃ i, s'.On clusters i := by
  induction n generalizing s pos i logicalClust offset len buf t with
  | zero => omega
  | succ n ih =>
    rw [readFrom]
    obtain rfl | hlen := Nat.eq_zero_or_pos len
    · rw [if_pos rfl]
      exact ⟨buf, s, t, rfl, List.prefix_append _ _, rfl, ⟨i, hon⟩⟩
    have hpos := hpos hlen
    have hfuel : logicalClust < i + ((logicalClust - s.currentClusterNum).toNat + 1) := by
      rw [hon.currentClusterNum]
      omega
    obtain ⟨found, s1, t1, hseek, hsought⟩ := seek_shows h hchain hcache hon hi hfuel t
    rw [if_neg (by omega), hseek, ok_bind]
    cases found with
    | failed | corrupt =>
      exact ⟨[], s1, t1, rfl, List.nil_prefix, hsought.fileCluster, hsought.on⟩
    | eof => exact ⟨buf, s1, t1, rfl, List.prefix_append _ _, hsought.fileCluster, hsought.on⟩
    | ready =>
      obtain ⟨hcache1, hon1⟩ := hsought.ready rfl
      obtain ⟨c, hc, hcur⟩ := hon1.currentCluster
      dsimp only
      rw [← Superblock.clustSize]
      generalize hsized : min len (sb.clustSize - offset) = size
      obtain ⟨success, bytes, t2, hread, hbytes, hok⟩ :=
        devreadVfat_shows h hin t1 (sb.sector s1.currentCluster) size
      rw [hcur] at hbytes hok
      have hsucc : success = true := by
        apply hok
        intro t
        have hreads := hdata t logicalClust c hc le_rfl
        rwa [show min sb.clustSize (stop - sb.clustSize * logicalClust) = offset + size by omega]
          at hreads
      have hview := take_drop_blocks (State.length_clusterBytes image.drive sb) hc
        (show offset + size ≤ sb.clustSize by omega)
      rw [← hpos, ← Superblock.view, Superblock.clusterBytes, drop_bytesAt hoff.le,
        take_bytesAt (by omega), Nat.zero_add] at hview
      rw [hread, ok_bind]
      rw [hbytes hsucc, length_bytesAt, Nat.sub_self, bytesAt_zero, List.append_nil, ← hview]
      have hnext : 0 < len - size → pos + size = sb.clustSize * (logicalClust + 1) + 0 := by
        rw [Nat.mul_succ]
        omega
      have hon2 : State.On clusters { s1 with filepos := s1.filepos + size } logicalClust :=
        ⟨hon1.1, hon1.2⟩
      obtain ⟨out, s', t', hrest, hout, hfile, hon'⟩ := ih
        (s := { s1 with filepos := s1.filepos + size }) hcache1 hon2 (Nat.le_succ _)
        (State.clustSize_pos sb) (Nat.zero_le _) hnext (by omega)
        (fun t j c hc hj => hdata t j c hc (by omega)) (by omega) t2
        (buf ++ ((sb.view image.drive clusters).drop pos).take size)
      refine ⟨out, s', t', hrest, ?_, hfile.trans hsought.fileCluster, hon'⟩
      rw [List.append_assoc, ← List.drop_drop, ← List.take_add, Nat.add_sub_cancel' (by omega)] at hout
      exact hout

end Device

structure Call where
  dev : Device
  pos : Nat
  len : Nat
  stale : Nat → UInt8

namespace Call

open Device

variable (sb : Superblock)

def read (call : Call) (s : State) : Except Fault (List UInt8 × State) :=
  untimed (call.dev.read sb call.stale { s with filepos := call.pos } call.len)

def step (s : State) (call : Call) : Except Fault State := Prod.snd <$> call.read sb s

variable (image : Image) (clusters : List Nat)

/-- `FAT_BUF` has what `cached_fat` says, `devread_vfat` can start from the position, and no
sector of the file fails. -/
structure Undisturbed (s : State) (call : Call) : Prop where
  cached : s.Cached image.drive sb
  fine : sb.Fine call.pos call.len
  data : call.dev.DataReads sb clusters (call.pos / sb.clustSize) (call.pos + call.len)

variable {sb image clusters} {s s' : State} {call : Call} {first : Nat}

theorem read_shows (h : call.dev.Shows image) (hchain : sb.Linked image first clusters)
    (hplaced : Placed clusters s) (hcall : Undisturbed sb image clusters s call) :
    ∃ out s', call.read sb s = .ok (out, s') ∧
      out <+: ((sb.view image.drive clusters).drop call.pos).take call.len ∧
      Placed clusters s' := by
  have hstart : ({ s with filepos := call.pos } : State).At image.drive sb clusters call.pos :=
    ⟨hcall.cached, hplaced.fileCluster, rfl,
      hplaced.on.imp_right fun ⟨i, hon⟩ => ⟨i, hon.1, hon.2⟩⟩
  obtain ⟨hat, i, hi, hon⟩ := hstart.rewind hcall.fine.1
  obtain ⟨out, s', t', hread, hout, hfile, hon'⟩ := readFrom_shows call.stale h hchain
    hat.cached hon hi (Nat.mod_lt call.pos (State.clustSize_pos sb)) hcall.fine.2
    (fun _ => (Nat.div_add_mod call.pos sb.clustSize).symm) rfl hcall.data
    (Nat.lt_succ_self call.len) 0 []
  obtain ⟨c, hc, hcluster⟩ := hplaced.fileCluster
  refine ⟨out, s', ?_, hout, ⟨hfile ▸ hat.fileCluster, .inr hon'⟩⟩
  rw [read, Device.read, if_neg (not_le.mpr hcall.fine.1), if_neg (by dsimp only; omega)]
  exact congrArg untimed hread

theorem step_placed (h : call.dev.Shows image) (hchain : sb.Linked image first clusters)
    (hplaced : Placed clusters s) (hcall : Undisturbed sb image clusters s call)
    (hstep : step sb s call = .ok s') : Placed clusters s' := by
  obtain ⟨out, s1, hread, -, hplaced1⟩ := read_shows h hchain hplaced hcall
  rw [step, hread] at hstep
  cases hstep
  exact hplaced1

theorem placed_dirFound (s : State) (fileLength : Nat) (hchain : sb.Linked image first clusters) :
    Placed clusters (s.dirFound first fileLength).2 := by
  refine ⟨⟨first, ?_, rfl⟩, .inl rfl⟩
  cases hchain <;> rfl

/-- After any calls that were not disturbed, a call that is not disturbed returns bytes of the file
at its position, or 0. -/
theorem vfat_read_undisturbed {fileLength : Nat} {s0 : State}
    (hchain : sb.Linked image first clusters)
    (hreach : Reaches (step sb)
      (fun s call => call.dev.Shows image ∧ Undisturbed sb image clusters s call)
      (s0.dirFound first fileLength).2 s)
    (h : call.dev.Shows image) (hcall : Undisturbed sb image clusters s call) :
    ∃ out s', call.read sb s = .ok (out, s') ∧
      out <+: ((sb.view image.drive clusters).drop call.pos).take call.len := by
  have hplaced : Placed clusters s := hreach.invariant (Placed clusters)
    (placed_dirFound s0 fileLength hchain)
    fun s s' call hplaced hguard hstep => step_placed hguard.1 hchain hplaced hguard.2 hstep
  obtain ⟨out, s', hread, hout, -⟩ := read_shows h hchain hplaced hcall
  exact ⟨out, s', hread, hout⟩

def oneSector : Superblock := ⟨.fat16, 1, 5, 512, 6, 100, 9, le_rfl⟩

def filled : Image := fun _ _ => 0xFF

def mounted : State := ⟨-1, maxInt, 0, -(2 * fatCacheSize : Nat), fun _ => 0, 0⟩

theorem filled_linked : oneSector.Linked filled 2 [2] := .last (by decide)

theorem vfat_read_undisturbed_one_sector :
    ∃ out s', Call.read oneSector ⟨fun _ => filled.drive, 0, 1, fun _ => 7⟩
        (mounted.dirFound 2 512).2 = .ok (out, s') ∧
      out <+: ((oneSector.view filled.drive [2]).drop 0).take 1 :=
  vfat_read_undisturbed filled_linked .refl (fun _ _ _ hs => (Option.some.inj hs).symm)
    ⟨.inl rfl, ⟨by decide, by decide⟩, fun _ _ _ _ _ _ _ => drive_ne_none filled _⟩

/-- The read of the only sector of the file fails, and the call returns a byte that was in the
buffer before. -/
theorem failed_read_returns_stale :
    oneSector.Linked filled 2 [2] ∧ Shows (fun _ _ => none) filled ∧
      ∃ s', Call.read oneSector ⟨fun _ _ => none, 0, 1, fun _ => 7⟩ (mounted.dirFound 2 512).2 =
          .ok ([7], s') ∧
        (oneSector.view filled.drive [2]).take 1 = [0xFF] := by
  refine ⟨filled_linked, nofun, _, rfl, ?_⟩
  rw [Superblock.view, List.flatMap_singleton, Superblock.clusterBytes, take_bytesAt (by decide)]
  rfl

end Call

end Quest.Fs.Vfat
