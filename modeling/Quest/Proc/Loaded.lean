import Quest.Proc.Executed

/-! Which files `_exec` loads as their program headers say. -/
namespace Quest.Proc

open Quest.Lib Memory Quest.Mem Machine List Function

def Phdr.Occupies (p : Phdr) (v : Nat) : Prop := p.vaddr / 4096 ≤ v ∧ v * 4096 < p.vaddr + p.memsz

structure File.Inside (file : File) : Prop where
  small : file.size ≤ 2 ^ 22
  header : 46 ≤ file.size
  headers : ∀ i < file.phnum, file.phoff + i * file.phentsize + 24 ≤ file.size
  aligned : ∀ p ∈ file.segments, p.offset % 4096 = p.vaddr % 4096
  inside : ∀ p ∈ file.segments, p.offset + p.filesz ≤ file.size

/-- An ELF file whose segments can lie beside each other in the first 4 MiB. -/
structure File.Valid (file : File) : Prop extends File.Inside file where
  bss : ∀ p ∈ file.segments, p.filesz ≤ p.memsz
  below : ∀ p ∈ file.segments, ∀ v, p.Occupies v → v < 1008 ∧ ¬Video v
  disjoint : file.segments.Pairwise fun p q => ∀ v, p.Occupies v → ¬q.Occupies v

/-- The segments are in memory, with zeros behind their data. -/
def ImageLoaded (m : Machine) (file : File) : Prop :=
  ∀ p ∈ file.segments,
    (∀ i < p.filesz, m.load8 (p.vaddr + i) = .ok (file.bytes (p.offset + i))) ∧
    ∀ i, p.filesz ≤ i → i < p.memsz → m.load8 (p.vaddr + i) = .ok 0

def Phdr.Counts (p : Phdr) : Prop := ¬(p.offset = 0 ∧ p.filesz = 0)

def Phdr.FillsPage (p : Phdr) : Prop := 0 < p.filesz ∧ (p.offset + p.filesz) % 4096 = 0

def Phdr.LastZero (file : File) (p : Phdr) : Prop :=
  p.FillsPage → ∀ i < p.filesz, p.filesz ≤ i + 4096 → file.bytes (p.offset + i) = 0

instance (p : Phdr) : Decidable p.FillsPage := inferInstanceAs (Decidable (_ ∧ _))

variable {m m' : Machine} {file : File} {p : Phdr} {placed : List (Nat × Source)} {src : Source}
  {args arg stale : Nat → UInt8} {f i j n o v pph size table : Nat}

theorem pageCount_eq {offset : Nat} (hpos : 0 < offset + size) (hlt : offset + size < 2 ^ 32) :
    (pageCount offset size).toNat = (offset % 4096 + size + 4095) / 4096 := by
  rw [pageCount]
  omega

theorem File.Inside.dir_nonneg (h : file.Inside) : 0 ≤ file.dir := by
  have hheader := h.header
  rw [File.size] at hheader
  omega

theorem File.Inside.fileCount_eq (h : file.Inside) (hp : p ∈ file.segments) (hcounts : p.Counts) :
    p.fileCount = (p.offset % 4096 + p.filesz + 4095) / 4096 := by
  have hsmall := h.small
  have hin := h.inside p hp
  rw [Phdr.Counts] at hcounts
  exact pageCount_eq (by omega) (by omega)

def Phdr.source (p : Phdr) (j : Nat) : Source := if j < p.fileCount then p.fileSource j else .zero

structure Phdr.Regular (file : File) (p : Phdr) : Prop where
  valid : file.Valid
  mem : p ∈ file.segments
  counts : p.Counts

namespace Phdr.Regular

variable (h : p.Regular file)
include h

theorem pos : 0 < p.offset + p.filesz := by
  have hcounts := h.counts
  rw [Counts] at hcounts
  omega

theorem below (hv : p.Occupies v) : v < 1008 ∧ ¬Video v := h.valid.below p h.mem v hv

theorem end_le (hsize : 0 < p.memsz) : p.vaddr + p.memsz ≤ 2 ^ 22 := by
  have hlast : p.Occupies ((p.vaddr + p.memsz - 1) / 4096) := by
    rw [Occupies]
    omega
  have := (h.below hlast).1
  omega

theorem fileCount_eq : p.fileCount = (p.offset % 4096 + p.filesz + 4095) / 4096 :=
  h.valid.fileCount_eq h.mem h.counts

theorem memCount_eq : p.memCount = (p.offset % 4096 + p.memsz + 4095) / 4096 := by
  have hsmall := h.valid.small
  have hin := h.valid.inside p h.mem
  have hbss := h.valid.bss p h.mem
  have hpos := h.pos
  have hend := h.end_le
  exact pageCount_eq (by omega) (by omega)

theorem fileCount_le : p.fileCount ≤ p.memCount := by
  have hbss := h.valid.bss p h.mem
  rw [h.fileCount_eq, h.memCount_eq]
  omega

theorem occupies_iff : p.Occupies v ↔ ∃ j < p.memCount, v = p.vaddr / 4096 + j := by
  have halign := h.valid.aligned p h.mem
  rw [Occupies, h.memCount_eq]
  constructor
  · rintro ⟨hle, hlt⟩
    exact ⟨v - p.vaddr / 4096, by omega, by omega⟩
  · omega

theorem placements_eq :
    p.placements = (range p.memCount).map fun j => (p.vaddr / 4096 + j, p.source j) := by
  obtain ⟨zeros, hzeros⟩ := Nat.exists_eq_add_of_le h.fileCount_le
  rw [Phdr.placements, hzeros, Nat.add_sub_cancel_left, range_add, map_append,
    map_map, range'_eq_map_range, map_map]
  congr 1
  · apply map_congr_left
    intro j hj
    rw [source, if_pos (mem_range.mp hj)]
  · apply map_congr_left
    intro j _
    dsimp only [comp_apply]
    rw [source, if_neg (by omega)]

theorem keys_eq : p.placements.map Prod.fst = (range p.memCount).map (p.vaddr / 4096 + ·) := by
  rw [h.placements_eq, map_map]
  rfl

theorem nodup_keys : (p.placements.map Prod.fst).Nodup := by
  rw [h.keys_eq]
  exact nodup_range.map fun _ _ heq => Nat.add_left_cancel heq

theorem mem_keys : v ∈ p.placements.map Prod.fst ↔ p.Occupies v := by
  rw [h.keys_eq, h.occupies_iff]
  simp [eq_comm]

theorem fits : p.Fits file.size := by
  have hsmall := h.valid.small
  have hin := h.valid.inside p h.mem
  have hfile := h.fileCount_eq
  have hle := h.fileCount_le
  have hlast : 0 < p.memCount → p.vaddr / 4096 + (p.memCount - 1) < 1008 := fun hmem =>
    (h.below (h.occupies_iff.mpr ⟨p.memCount - 1, by omega, rfl⟩)).1
  refine ⟨fun hne => ⟨by omega, fun htwo => by omega, ?_⟩, fun hlt => by omega⟩
  rw [Phdr.rest]
  omega

theorem source_byte (i : Nat) :
    (p.source ((p.vaddr + i) / 4096 - p.vaddr / 4096)).byte file ((p.vaddr + i) % 4096) =
      if i < p.filesz ∧ ¬(p.FillsPage ∧ p.filesz ≤ i + 4096) then file.bytes (p.offset + i) else 0 := by
  have halign := h.valid.aligned p h.mem
  have hpage : (p.vaddr + i) / 4096 - p.vaddr / 4096 = (p.offset + i) / 4096 - p.offset / 4096 := by
    omega
  have hoff : (p.vaddr + i) % 4096 = (p.offset + i) % 4096 := by omega
  have hfile := h.fileCount_eq
  rw [hpage, hoff, source]
  generalize hj : (p.offset + i) / 4096 - p.offset / 4096 = j at *
  have hbyte : (p.offset / 4096 + j) * 4096 + (p.offset + i) % 4096 = p.offset + i := by omega
  have hfills : p.FillsPage ↔ 0 < p.filesz ∧ (p.offset + p.filesz) % 4096 = 0 := Iff.rfl
  split
  · rw [fileSource]
    split
    · rw [Source.byte, Phdr.rest, hbyte]
      exact if_congr (by rw [hfills]; omega) rfl rfl
    · rw [Source.byte, add_comm j, hbyte, if_pos (by rw [hfills]; omega)]
  · rw [Source.byte, if_neg (by omega)]

end Phdr.Regular

theorem File.Valid.nodup_keys (h : file.Valid) (hcounts : ∀ p ∈ file.segments, p.Counts) :
    (file.image.map Prod.fst).Nodup := by
  rw [File.image, map_flatMap, nodup_flatMap]
  refine ⟨fun p hp => (Phdr.Regular.mk h hp (hcounts p hp)).nodup_keys, ?_⟩
  apply h.disjoint.imp_of_mem
  intro p q hp hq hapart v hv hv'
  rw [(Phdr.Regular.mk h hp (hcounts p hp)).mem_keys] at hv
  rw [(Phdr.Regular.mk h hq (hcounts q hq)).mem_keys] at hv'
  exact hapart v hv hv'

theorem File.Valid.layout_eq (h : file.Valid) (hcounts : ∀ p ∈ file.segments, p.Counts)
    (hp : p ∈ file.segments) (hv : p.Occupies v) :
    layout file.image v = some (p.source (v - p.vaddr / 4096)) := by
  have hregular : p.Regular file := ⟨h, hp, hcounts p hp⟩
  apply layout_of_mem (h.nodup_keys hcounts)
  rw [File.image, mem_flatMap]
  refine ⟨p, hp, ?_⟩
  rw [hregular.placements_eq, mem_map]
  obtain ⟨j, hj, rfl⟩ := hregular.occupies_iff.mp hv
  exact ⟨j, mem_range.mpr hj, by rw [Nat.add_sub_cancel_left]⟩

theorem not_fits_of_not_counts (h : ¬p.Counts) : ¬p.Fits size := by
  rw [Phdr.Counts, not_not] at h
  have hcount : p.fileCount = 2 ^ 20 := by
    rw [Phdr.fileCount, h.1, h.2]
    decide
  intro hfits
  have := (hfits.1 (by omega)).1
  omega

theorem File.Inside.loads (h : file.Inside) (hfits : ∀ p ∈ file.segments, p.Fits file.size) :
    file.Loads := by
  refine { h with segments := fun p hp => ⟨h.aligned p hp, hfits p hp, fun i hi => ?_⟩ }
  have hcounts : p.Counts := by
    by_contra hnot
    exact not_fits_of_not_counts hnot (hfits p hp)
  have hfile := h.fileCount_eq hp hcounts
  have hin := h.inside p hp
  omega

theorem File.Valid.loads (h : file.Valid) (hcounts : ∀ p ∈ file.segments, p.Counts) : file.Loads :=
  h.toInside.loads fun p hp => (Phdr.Regular.mk h hp (hcounts p hp)).fits

section

variable (h : Executed m m' file args table)
include h

theorem Executed.load8 {va : Nat} {bytes : Nat → UInt8}
    (hva : va < 2 ^ 22) (hholds : Holds m' table (va / 4096) bytes) :
    m'.load8 va = .ok (bytes (va % 4096)) := by
  obtain ⟨f, hentry, hbytes⟩ := hholds
  have hdir : entry m'.mem m'.pdFrame 0 = table * 4096 + 7 := by
    rw [h.pdFrame, h.dir 0 (by omega), if_pos rfl]
  rw [Machine.load8, translate_user hdir hva hentry, ← hbytes _ (Nat.mod_lt _ (by omega))]
  rfl

theorem Executed.segment (hvalid : file.Valid)
    (hcounts : ∀ p ∈ file.segments, p.Counts) (hp : p ∈ file.segments) (hi : i < p.memsz) :
    m'.load8 (p.vaddr + i) = .ok
      (if i < p.filesz ∧ ¬(p.FillsPage ∧ p.filesz ≤ i + 4096) then file.bytes (p.offset + i)
      else 0) := by
  have hregular : p.Regular file := ⟨hvalid, hp, hcounts p hp⟩
  have hocc : p.Occupies ((p.vaddr + i) / 4096) := by
    rw [Phdr.Occupies]
    omega
  obtain ⟨hbelow, hvideo⟩ := hregular.below hocc
  have hpage := h.pages _ hbelow hvideo
  rw [hvalid.layout_eq hcounts hp hocc] at hpage
  rw [h.load8 (by omega) hpage, hregular.source_byte i]

theorem Executed.imageLoaded_iff (hvalid : file.Valid)
    (hcounts : ∀ p ∈ file.segments, p.Counts) :
    ImageLoaded m' file ↔ ∀ p ∈ file.segments, p.LastZero file := by
  constructor
  · intro hloaded p hp hfills i hi hlast
    have hbss := hvalid.bss p hp
    have hbyte := (hloaded p hp).1 i hi
    rw [h.segment hvalid hcounts hp (by omega), if_neg fun hnot => hnot.2 ⟨hfills, hlast⟩] at hbyte
    exact (Except.ok.inj hbyte).symm
  · intro hzero p hp
    have hbss := hvalid.bss p hp
    refine ⟨fun i hi => ?_, fun i hle hi => ?_⟩
    · rw [h.segment hvalid hcounts hp (by omega)]
      by_cases hlast : p.FillsPage ∧ p.filesz ≤ i + 4096
      · rw [if_neg fun hnot => hnot.2 hlast, hzero p hp hlast.1 i hi hlast.2]
      · rw [if_pos ⟨hi, hlast⟩]
    · rw [h.segment hvalid hcounts hp hi, if_neg (by omega)]

end

/-! The condition of the loader, header by header. -/

theorem headersFit_segment (h : file.Inside) (hcount : i + n = file.phnum)
    (hpph : pph = (pe + file.phoff + i * file.phentsize) % 2 ^ 32)
    (hfits : file.HeadersFit n pph) (hle : i ≤ j) (hj : j < file.phnum)
    (htype : (file.header j).type = ptLoad) : (file.header j).Fits file.size := by
  induction n generalizing i pph with
  | zero => omega
  | succ n ih =>
    rw [header_address h.small (h.headers i (by omega))] at hpph
    have hheader : file.phdr (pph - pe) = file.header i := by rw [hpph, phdr_header]
    have hnot : ¬Misaligned file pph := by
      rw [Misaligned, hheader]
      rintro ⟨htype', hne⟩
      exact hne (h.aligned _ (file.mem_segments (by omega) htype'))
    rw [headersFit_aligned hnot, hheader] at hfits
    obtain rfl | hne := eq_or_ne i j
    · exact (hfits.1.2 htype).2.2
    · have hnext : (pph + file.phentsize) % 2 ^ 32 =
          (pe + file.phoff + (i + 1) * file.phentsize) % 2 ^ 32 := by rw [hpph, next_header]
      exact ih (by omega) hnext hfits.2 (by omega)

theorem File.Inside.segments_fit (h : file.Inside) (hread : file.read = file.dir)
    (hfits : file.Fits) : ∀ p ∈ file.segments, p.Fits file.size := by
  intro p hp
  simp only [File.segments, File.phdrs, mem_filter, mem_map, mem_range,
    decide_eq_true_eq] at hp
  obtain ⟨⟨j, hj, rfl⟩, htype⟩ := hp
  refine headersFit_segment h (Nat.zero_add _) ?_ (hfits.2 hread).2 (Nat.zero_le j) hj htype
  rw [Nat.zero_mul, Nat.add_zero]

theorem File.Inside.segments_fit_of_exec {out : Outcome} (h : file.Inside) (hready : Ready m)
    (hroomy : Roomy m file) (hread : file.read = file.dir)
    (hret : exec m file (some arg) stale = .ok out) : ∀ p ∈ file.segments, p.Fits file.size := by
  apply h.segments_fit hread
  have hdir := h.dir_nonneg
  have havail := hroomy.2
  have hin : exec m file (some arg) stale ≠ .error .outOfBounds := by
    rw [hret]
    exact nofun
  exact (exec_some_inside_iff hready hroomy.1 (by omega) hread.le (by omega)).mp hin

/-- `_exec` loads a valid file as its headers say if and only if every page count is right and no
page of data that ends with the page is needed. -/
theorem exec_loads_image_iff (m : Machine) (file : File) (arg stale : Nat → UInt8)
    (hready : Ready m) (hroomy : Roomy m file) (hvalid : file.Valid)
    (hread : file.read = file.dir) :
    (∃ out, exec m file (some arg) stale = .ok out ∧ out.ret = 0 ∧ ImageLoaded out.machine file) ↔
      ∀ p ∈ file.segments, p.Counts ∧ p.LastZero file := by
  have hdir := hvalid.dir_nonneg
  constructor
  · rintro ⟨out, hret, hzero, hloaded⟩
    have hcounts : ∀ p ∈ file.segments, p.Counts := by
      intro p hp
      by_contra hnot
      exact not_fits_of_not_counts hnot
        (hvalid.segments_fit_of_exec hready hroomy hread hret p hp)
    obtain ⟨m', table, hret', h⟩ := exec_executed arg stale hready hroomy (hvalid.loads hcounts)
      hdir hread
    cases hret.symm.trans hret'
    exact fun p hp => ⟨hcounts p hp, (h.imageLoaded_iff hvalid hcounts).mp hloaded p hp⟩
  · intro hcond
    have hcounts : ∀ p ∈ file.segments, p.Counts := fun p hp => (hcond p hp).1
    obtain ⟨m', table, hret, h⟩ := exec_executed arg stale hready hroomy (hvalid.loads hcounts)
      hdir hread
    exact ⟨_, hret, rfl, (h.imageLoaded_iff hvalid hcounts).mpr fun p hp => (hcond p hp).2⟩

def wholeFile (size : Nat) : File :=
  ⟨size, size, ofWords fun n =>
    if n = 7 then 52 else if n = 10 then 0x200000 else if n = 11 then 1 else if n = 13 then 1
    else if n = 17 then size else if n = 18 then size else 0⟩

theorem wholeFile_valid (hle : 84 ≤ size) (hsize : size ≤ 4096)
    (hphnum : (wholeFile size).phnum = 1) (hphoff : (wholeFile size).phoff = 52)
    (hsegs : (wholeFile size).segments = [⟨1, 0, 0, size, size⟩]) : (wholeFile size).Valid := by
  have hsize' : (wholeFile size).size = size := rfl
  refine ⟨⟨by omega, by omega, fun i hi => ?_, ?_, ?_⟩, ?_, ?_, ?_⟩
  · rw [hphnum, Nat.lt_one_iff] at hi
    rw [hi, hphoff]
    omega
  · simp [hsegs]
  · simp [hsegs, hsize']
  · simp [hsegs]
  · rw [hsegs]
    intro p hp v hv
    obtain rfl := mem_singleton.mp hp
    rw [Phdr.Occupies] at hv
    dsimp only at hv
    rw [Video]
    omega
  · rw [hsegs]
    exact pairwise_singleton _ _

theorem roomy_bare (h : file.pages + freshCount file.image + 18 ≤ 29) : Roomy bare file :=
  ⟨by decide +kernel, by rwa [available_dropSpace_bare]⟩

theorem wholeFile_84_valid : (wholeFile 84).Valid :=
  wholeFile_valid (by omega) (by omega) (by decide +kernel) (by decide +kernel) (by decide +kernel)

theorem exec_loads_image_iff_small :
    (∃ out, exec bare (wholeFile 84) (some fun _ => 0) (fun _ => 0) = .ok out ∧ out.ret = 0 ∧
      ImageLoaded out.machine (wholeFile 84)) ↔
      ∀ p ∈ (wholeFile 84).segments, p.Counts ∧ p.LastZero (wholeFile 84) :=
  exec_loads_image_iff bare (wholeFile 84) (fun _ => 0) (fun _ => 0) bare_ready
    (roomy_bare (by decide +kernel)) wholeFile_84_valid rfl

theorem exec_zeroes_full_page :
    ∃ out, exec bare (wholeFile 4096) (some fun _ => 0) (fun _ => 0) = .ok out ∧ out.ret = 0 ∧
      (wholeFile 4096).segments = [⟨1, 0, 0, 4096, 4096⟩] ∧ (wholeFile 4096).bytes 28 = 52 ∧
      out.machine.load8 28 = .ok 0 := by
  have hsegments : (wholeFile 4096).segments = [⟨1, 0, 0, 4096, 4096⟩] := by decide +kernel
  have hvalid : (wholeFile 4096).Valid :=
    wholeFile_valid (by omega) (by omega) (by decide +kernel) (by decide +kernel) hsegments
  have hcounts : ∀ p ∈ (wholeFile 4096).segments, p.Counts := by
    rw [hsegments]
    simp [Phdr.Counts]
  obtain ⟨m', table, hret, h⟩ := exec_executed (fun _ => 0) (fun _ => 0) bare_ready
    (roomy_bare (by decide +kernel)) (hvalid.loads hcounts) (by decide) rfl
  refine ⟨_, hret, rfl, hsegments, by decide +kernel, ?_⟩
  have hbyte := h.segment hvalid hcounts (hsegments ▸ List.mem_singleton_self _)
    (show 28 < 4096 by omega)
  exact hbyte

end Quest.Proc
