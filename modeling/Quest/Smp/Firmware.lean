import Quest.Basic
import Quest.Lib.Loop

/-! The firmware tables of the processors: the numbering of `smp/acpi.c` and `smp/intel.c`, and
the walks over the sub-tables of the MADT and the SRAT. -/
namespace Quest.Smp.Firmware

open List Function

def maxCpus : Nat := 8

/-- A processor entry of either table, with what `smp_boot_cpu` returns for it. -/
structure Processor where
  apicId : BitVec 8
  flags : BitVec 32
  boots : Bool
  deriving DecidableEq, Repr

structure Cpus where
  cpuToApic : Nat → BitVec 8
  apicToCpu : Nat → BitVec 8
  num : Nat

def Cpus.place (s : Cpus) (id : BitVec 8) : Cpus :=
  ⟨update s.cpuToApic s.num id, update s.apicToCpu id.toNat (.ofNat 8 s.num),
    s.num + 1⟩

def Cpus.record (s : Cpus) (id : BitVec 8) : Except Fault Cpus :=
  if s.num < maxCpus ∧ id.toNat < maxCpus then .ok (s.place id) else .error .outOfBounds

/-- What the two functions share: they differ in how they know the bootstrap processor. -/
def addProcessorUnless (bootstrap : Processor → Bool) (s : Cpus) (p : Processor) :
    Except Fault Cpus :=
  if !p.flags.getLsbD 0 then .ok s
  else if bootstrap p then .ok s
  else if p.boots then s.record p.apicId
  else .ok s

def acpiAddProcessor (thisApicId : BitVec 8) : Cpus → Processor → Except Fault Cpus :=
  addProcessorUnless fun p => p.apicId == thisApicId

def addProcessor : Cpus → Processor → Except Fault Cpus :=
  addProcessorUnless fun p => p.flags.getLsbD 1

def Cpus.boot : Cpus := ⟨fun _ => 0, fun _ => 0, 1⟩

def booted (bootstrap : Processor → Bool) (ps : List Processor) : List (BitVec 8) :=
  (ps.filter fun p => p.flags.getLsbD 0 && !bootstrap p && p.boots).map Processor.apicId

/-- The tables are inverse to each other on the bootstrap processor and those that booted. -/
structure Cpus.Numbers (s : Cpus) (bsp : BitVec 8) (ids : List (BitVec 8)) : Prop where
  count : s.num = ids.length + 1
  forth : ∀ n < s.num, s.cpuToApic n ∈ bsp :: ids ∧ (s.apicToCpu (s.cpuToApic n).toNat).toNat = n
  back : ∀ id ∈ bsp :: ids, (s.apicToCpu id.toNat).toNat < s.num ∧
    s.cpuToApic (s.apicToCpu id.toNat).toNat = id

variable {s s' : Cpus} {bsp id : BitVec 8} {ids : List (BitVec 8)}

theorem foldlM_addProcessorUnless (bootstrap : Processor → Bool) (ps : List Processor) (s : Cpus) :
    ps.foldlM (addProcessorUnless bootstrap) s = (booted bootstrap ps).foldlM Cpus.record s := by
  induction ps generalizing s with
  | nil => rfl
  | cons p ps ih =>
    rw [foldlM_cons, addProcessorUnless, booted, filter_cons]
    cases hflags : p.flags.getLsbD 0 <;> cases hboot : bootstrap p <;> cases hboots : p.boots
    all_goals simp [ok_bind, ih, booted, foldlM_cons]

theorem foldlM_record_append_singleton :
    (ids ++ [id]).foldlM Cpus.record s = ids.foldlM Cpus.record s >>= (·.record id) := by
  simp [foldlM_append]

/-- The entries are stored one after the other. -/
theorem records (h : ids.foldlM Cpus.record .boot = .ok s) :
    s.num = ids.length + 1 ∧ (range s.num).map s.cpuToApic = 0 :: ids ∧
      ∀ id ∈ ids, id.toNat < maxCpus := by
  induction ids using reverseRecOn generalizing s with
  | nil =>
    cases h
    exact ⟨rfl, rfl, nofun⟩
  | append_singleton ids id ih =>
    rw [foldlM_record_append_singleton] at h
    obtain ⟨mid, hmid, h⟩ := bind_eq_ok.mp h
    obtain ⟨hnum, htable, hbound⟩ := ih hmid
    rw [Cpus.record] at h
    split at h
    · rename_i hfits
      cases h
      refine ⟨by simp [Cpus.place, hnum], ?_, ?_⟩
      · dsimp only [Cpus.place]
        rw [range_succ, map_append, map_singleton, update_self,
          ← cons_append, ← htable, append_left_inj]
        refine map_congr_left fun n hn => ?_
        exact update_of_ne (mem_range.mp hn).ne _ _
      · simp only [mem_append, mem_singleton]
        rintro x (hx | rfl)
        · exact hbound x hx
        · exact hfits.2
    · cases h

theorem Cpus.Numbers.place (h : s.Numbers bsp ids) (hnew : id ∉ bsp :: ids) (hnum : s.num < 256) :
    (s.place id).Numbers bsp (ids ++ [id]) := by
  obtain ⟨hcount, hforth, hback⟩ := h
  have hlast : (BitVec.ofNat 8 s.num).toNat = s.num := by simpa using hnum
  have hother {x : BitVec 8} (hx : x ∈ bsp :: ids) : x.toNat ≠ id.toNat := fun heq =>
    hnew (BitVec.eq_of_toNat_eq heq ▸ hx)
  refine ⟨by simp [Cpus.place, hcount], fun n hn => ?_, fun x hx => ?_⟩
  · rcases Nat.lt_succ_iff_lt_or_eq.mp hn with hlt | rfl
    · obtain ⟨hmem, hinv⟩ := hforth n hlt
      dsimp only [Cpus.place]
      rw [update_of_ne hlt.ne, update_of_ne (hother hmem)]
      exact ⟨mem_append_left [id] hmem, hinv⟩
    · dsimp only [Cpus.place]
      rw [update_self, update_self]
      exact ⟨by simp, hlast⟩
  · rw [← cons_append, mem_append, mem_singleton] at hx
    rcases hx with hx | rfl
    · obtain ⟨hlt, hinv⟩ := hback x hx
      dsimp only [Cpus.place]
      rw [update_of_ne (hother hx), update_of_ne hlt.ne]
      exact ⟨Nat.lt_succ_of_lt hlt, hinv⟩
    · dsimp only [Cpus.place]
      rw [update_self, hlast, update_self]
      exact ⟨Nat.lt_succ_self _, rfl⟩

theorem numbers_boot : Cpus.boot.Numbers 0 [] := by
  refine ⟨rfl, fun n hn => ?_, fun id hid => ?_⟩
  · rw [Nat.lt_one_iff.mp hn]
    exact ⟨mem_singleton_self 0, rfl⟩
  · rw [mem_singleton.mp hid]
    exact ⟨Nat.one_pos, rfl⟩

theorem length_lt_maxCpus (hnodup : (0 :: ids).Nodup) (hbound : ∀ id ∈ ids, id.toNat < maxCpus) :
    ids.length < maxCpus := by
  have hinj : ((0 :: ids).map BitVec.toNat).Nodup :=
    hnodup.map fun _ _ => BitVec.eq_of_toNat_eq
  have hsub : ((0 :: ids).map BitVec.toNat).toFinset ⊆ Finset.range maxCpus := by
    intro n hn
    obtain ⟨id, hid, rfl⟩ := mem_map.mp (mem_toFinset.mp hn)
    rcases mem_cons.mp hid with rfl | hid
    · decide
    · exact Finset.mem_range.mpr (hbound id hid)
  have hcard := Finset.card_le_card hsub
  rwa [toFinset_card_of_nodup hinj, length_map, Finset.card_range] at hcard

theorem records_numbers (hnodup : (0 :: ids).Nodup) (hbound : ∀ id ∈ ids, id.toNat < maxCpus) :
    ∃ s, ids.foldlM Cpus.record .boot = .ok s ∧ s.Numbers 0 ids := by
  induction ids using reverseRecOn with
  | nil => exact ⟨_, rfl, numbers_boot⟩
  | append_singleton ids id ih =>
    rw [← cons_append] at hnodup
    obtain ⟨hold, -, hnew⟩ := nodup_append'.mp hnodup
    obtain ⟨s, hs, hnumbers⟩ := ih hold fun x hx => hbound x (mem_append_left _ hx)
    have hnum : s.num < maxCpus := by
      have := length_lt_maxCpus (by rwa [← cons_append]) hbound
      rw [length_append, length_singleton] at this
      rwa [hnumbers.count]
    refine ⟨s.place id, ?_, hnumbers.place ?_ (hnum.trans (by decide))⟩
    · rw [foldlM_record_append_singleton, hs, ok_bind, Cpus.record,
        if_pos ⟨hnum, hbound id (by simp)⟩]
    · exact fun hid => hnew hid (mem_singleton_self id)

theorem numbers_iff :
    (∃ s, ids.foldlM Cpus.record .boot = .ok s ∧ s.Numbers bsp ids) ↔
      bsp = 0 ∧ (0 :: ids).Nodup ∧ ∀ id ∈ ids, id.toNat < maxCpus := by
  constructor
  · rintro ⟨s, hs, hnumbers⟩
    obtain ⟨hnum, htable, hbound⟩ := records hs
    have hnodup : (0 :: ids).Nodup := by
      rw [← htable]
      refine List.Nodup.map_on (fun m hm n hn heq => ?_) nodup_range
      rw [← (hnumbers.forth m (mem_range.mp hm)).2, heq,
        (hnumbers.forth n (mem_range.mp hn)).2]
    refine ⟨?_, hnodup, hbound⟩
    have hzero : s.cpuToApic 0 = 0 := by
      rw [hnum, range_succ_eq_map] at htable
      exact (cons.inj htable).1
    have hmem := (hnumbers.forth 0 (by omega)).1
    rw [hzero] at hmem
    exact ((mem_cons.mp hmem).resolve_right (nodup_cons.mp hnodup).1).symm
  · rintro ⟨rfl, hnodup, hbound⟩
    exact records_numbers hnodup hbound

/-- The tables stay in bounds and number the processors if and only if the bootstrap processor
has the APIC id 0 and the others that boot have ids of their own below 8. -/
theorem processors_numbered_iff (ps : List Processor) (bsp : BitVec 8) :
    ((∃ s, ps.foldlM (acpiAddProcessor bsp) .boot = .ok s ∧
        s.Numbers bsp (booted (fun p => p.apicId == bsp) ps)) ↔
      bsp = 0 ∧ (0 :: booted (fun p => p.apicId == bsp) ps).Nodup ∧
        ∀ id ∈ booted (fun p => p.apicId == bsp) ps, id.toNat < maxCpus) ∧
    ((∃ s, ps.foldlM addProcessor .boot = .ok s ∧
        s.Numbers bsp (booted (fun p => p.flags.getLsbD 1) ps)) ↔
      bsp = 0 ∧ (0 :: booted (fun p => p.flags.getLsbD 1) ps).Nodup ∧
        ∀ id ∈ booted (fun p => p.flags.getLsbD 1) ps, id.toNat < maxCpus) := by
  rw [acpiAddProcessor, addProcessor, foldlM_addProcessorUnless, foldlM_addProcessorUnless]
  exact ⟨numbers_iff, numbers_iff⟩

/-- A second processor with the APIC id 8: `APIC_to_CPU` has 8 elements. -/
theorem apic_id_beyond_table :
    [⟨0, 1, true⟩, ⟨8, 1, true⟩].foldlM (acpiAddProcessor 0) .boot = .error .outOfBounds := rfl

/-! The walks.  A table is its bytes and `Header.Length`; places in it are offsets. -/

open Quest.Lib Loop

/-- How far the accesses go to a sub-table of the MADT, by its type. -/
def madtExtent (type : UInt8) : Nat :=
  if type = 0 then 8 else if type = 1 then 12 else if type = 2 then 10 else 2

structure MadtPlace where
  ptr : Nat
  ioapics : Nat
  overrides : Nat
  deriving DecidableEq, Repr

/-- A round of the loop over the MADT in `acpi_early_init`. -/
def madtRound (table : Nat → UInt8) (length : Nat) (p : MadtPlace) :
    Except Fault (Option MadtPlace) :=
  let type := table p.ptr
  if length ≤ p.ptr then .ok none
  else if length < p.ptr + madtExtent type then .error .outOfBounds
  else if type = 1 ∧ p.ioapics = 8 then .error (.panic "Too many IO-APICs.")
  else if type = 2 ∧ p.overrides = 128 then .error (.panic "Too many interrupt overrides.")
  else .ok (some ⟨p.ptr + (table (p.ptr + 1)).toNat, p.ioapics + if type = 1 then 1 else 0,
    p.overrides + if type = 2 then 1 else 0⟩)

def sratExtent (type : UInt8) : Nat :=
  if type = 0 then 12 else if type = 1 then 32 else if type = 2 then 20 else 2

structure SratPlace where
  sub : Nat
  len : Int
  deriving DecidableEq, Repr

/-- A round of the loop in `acpi_parse_srat`. -/
def sratRound (table : Nat → UInt8) (length : Nat) (p : SratPlace) :
    Except Fault (Option SratPlace) :=
  if p.len ≤ 0 then .ok none
  else if length < p.sub + sratExtent (table p.sub) then .error .outOfBounds
  else
    let subLength := (table (p.sub + 1)).toNat
    .ok (some ⟨p.sub + subLength, p.len - subLength⟩)

def madtStart : MadtPlace := ⟨44, 0, 0⟩

def sratStart (length : Nat) : SratPlace := ⟨48, wrap ((length : Int) - 48)⟩

/-- The sub-table at `ptr` is inside of the table, and its length leads on. -/
def MadtPlace.Sound (table : Nat → UInt8) (length : Nat) (p : MadtPlace) : Prop :=
  p.ptr < length → p.ptr + madtExtent (table p.ptr) ≤ length ∧
    (table (p.ptr + 1) ≠ 0 ∨ table p.ptr = 1 ∨ table p.ptr = 2)

def SratPlace.Sound (table : Nat → UInt8) (length : Nat) (p : SratPlace) : Prop :=
  0 < p.len → p.sub + sratExtent (table p.sub) ≤ length ∧ table (p.sub + 1) ≠ 0

variable {table : Nat → UInt8} {length : Nat}

theorem madtRound_sound_iff (p : MadtPlace) :
    (madtRound table length p ≠ .ok (some p) ∧
      ∀ e, madtRound table length p = .error e → ¬e = .outOfBounds) ↔ p.Sound table length := by
  obtain ⟨ptr, ioapics, overrides⟩ := p
  have hzero : (table (ptr + 1)).toNat = 0 ↔ table (ptr + 1) = 0 := UInt8.toNat_inj (b := 0)
  rw [madtRound, MadtPlace.Sound]
  grind

theorem sratRound_sound_iff (p : SratPlace) :
    (sratRound table length p ≠ .ok (some p) ∧
      ∀ e, sratRound table length p = .error e → ¬e = .outOfBounds) ↔ p.Sound table length := by
  obtain ⟨sub, len⟩ := p
  have hzero : (table (sub + 1)).toNat = 0 ↔ table (sub + 1) = 0 := UInt8.toNat_inj (b := 0)
  rw [sratRound, SratPlace.Sound]
  grind

/-- The walks end, and stay inside of the tables, if and only if every sub-table that they get to
is inside and has a length. -/
theorem walks_safe_iff (madt srat : Nat → UInt8) (length : Nat) :
    (Safe (· = .outOfBounds) (madtRound madt length) madtStart ↔
      ∀ p, Visits (madtRound madt length) madtStart p → p.Sound madt length) ∧
    (Safe (· = .outOfBounds) (sratRound srat length) (sratStart length) ↔
      ∀ p, Visits (sratRound srat length) (sratStart length) p → p.Sound srat length) := by
  constructor
  · rw [safe_iff (fun p => p.ioapics ≤ 8 ∧ p.overrides ≤ 128)
      (measure fun p => (length - p.ptr) + (8 - p.ioapics) + (128 - p.overrides)).wf]
    · simp only [madtRound_sound_iff]
    · intro p p' hinv hround
      obtain ⟨ptr, ioapics, overrides⟩ := p
      change _ ∧ (_ ∨ length - p'.ptr + (8 - p'.ioapics) + (128 - p'.overrides) <
        length - ptr + (8 - ioapics) + (128 - overrides))
      rw [madtRound] at hround
      grind
    · decide
  · rw [safe_iff (fun _ => True) (measure fun p => p.len.toNat).wf]
    · simp only [sratRound_sound_iff]
    · intro p p' _ hround
      obtain ⟨sub, len⟩ := p
      change _ ∧ (_ ∨ p'.len.toNat < len.toNat)
      rw [sratRound] at hround
      grind
    · trivial

/-- A sub-table of an unknown type without a length. -/
theorem zero_length_walks_forever :
    ¬Safe (· = .outOfBounds) (madtRound (fun i => if i = 44 then 9 else 0) 46) madtStart := by
  rintro ⟨n, r, hend, -⟩
  rw [loop_stuck rfl] at hend
  cases hend

end Quest.Smp.Firmware
