import Quest.Proc.Loaded

/-! The address space of a boot module: `load_module` of `boot/init.c`, up to the call of
`alloc_TSS`.  Kernel pages are resolved to the frames that they show. -/
namespace Quest.Boot.LoadModule

open Quest.Lib Memory Quest.Mem Machine Quest.Proc List Function

/-- The frames of `pg_dir`, `pg_table`, `ul_stack`, `kls_pg_table` and `kl_stack` for the module. -/
structure Tables where
  dir : Nat
  table : Nat
  stack : Nat
  klsTable : Nat
  klStack : Nat

def imageBytes (m : Machine) (image o : Nat) : UInt8 := m.mem (image * 4096 + o)

/-! Accesses to the module through a window of so many pages. -/

def imageWord (m : Machine) (image pages off : Nat) : Except Fault Nat :=
  if off % 2 ^ 32 + 4 ≤ pages * 4096 then .ok (word (imageBytes m image) (off % 2 ^ 32))
  else .error .outOfBounds

def imageHalf (m : Machine) (image pages off : Nat) : Except Fault Nat :=
  if off + 2 ≤ pages * 4096 then
    .ok ((imageBytes m image off).toNat + 2 ^ 8 * (imageBytes m image (off + 1)).toNat)
  else .error .outOfBounds

def clearImage (m : Machine) (image pages off count : Nat) : Except Fault Machine :=
  if count = 0 ∨ off % 2 ^ 32 + count ≤ pages * 4096 then
    .ok (m.write (image * 4096 + off % 2 ^ 32) (fun _ => 0) count)
  else .error .outOfBounds

def countHeader (m : Machine) (image pph count : Nat) : Except Fault Nat := do
  let type ← imageWord m image 1 pph
  if type = ptLoad then do
    let memsz ← imageWord m image 1 (pph + 20)
    .ok ((count + memsz / 4096) % 2 ^ 32)
  else .ok count

def countPages (m : Machine) (image : Nat) : Nat → Nat → Nat → Except Fault Nat
  | 0, _, count => .ok count
  | rounds + 1, pph, count => do
    let count ← countHeader m image pph count
    let phentsize ← imageHalf m image 1 42
    countPages m image rounds ((pph + phentsize) % 2 ^ 32) count

def mapModulePages (t : Tables) (image offset vaddr : Nat) :
    Nat → Nat → Machine → Except Fault Machine
  | 0, _, m => .ok m
  | rounds + 1, j, m => do
    let m ← setEntry m t.table (vaddr / 4096 + j)
      ((image * 4096 + offset / 4096 * 4096 + j <<< 12 + 7) % 2 ^ 32)
    mapModulePages t image offset vaddr rounds (j + 1) m

/-- The zeroed pages, with the number of rounds left; each round reads `p_vaddr` again. -/
def mapBssPages (t : Tables) (image pages pph : Nat) : Nat → Nat → Machine → Except Fault Machine
  | 0, _, m => .ok m
  | rounds + 1, j, m => do
    let (frame, m) ← m.allocPhysFrame
    let m := m.writePage ((frame ||| 3) / 4096) fun _ => 0
    let vaddr ← imageWord m image pages (pph + 8)
    let m ← setEntry m t.table (vaddr / 4096 + j) ((frame + 7) % 2 ^ 32)
    mapBssPages t image pages pph rounds (j + 1) m

def pagesOf (size : Nat) : Nat := (size + 0xFFF) % 2 ^ 32 / 4096

/-- The program header at `pph`, of type `PT_LOAD`.  The header is read again behind `memset`. -/
def loadSegment (t : Tables) (image pages pph : Nat) (m : Machine) : Except Fault Machine := do
  let filesz ← imageWord m image pages (pph + 16)
  let vaddr ← imageWord m image pages (pph + 8)
  let offset ← imageWord m image pages (pph + 4)
  let c := pagesOf filesz
  let m ← mapModulePages t image offset vaddr c 0 m
  let memsz ← imageWord m image pages (pph + 20)
  let m ← clearImage m image pages (offset + filesz) ((memsz + 2 ^ 32 - filesz) % 2 ^ 32 % 4096)
  let memsz ← imageWord m image pages (pph + 20)
  mapBssPages t image pages pph (pagesOf memsz + 1 - c) c m

def loadHeader (t : Tables) (image pages pph : Nat) (m : Machine) : Except Fault Machine := do
  let type ← imageWord m image pages pph
  if type = ptLoad then loadSegment t image pages pph m else .ok m

/-- The loop over the program headers.  `e_phnum` is read in every round; it has 16 bits. -/
def walk (t : Tables) (image pages : Nat) : Nat → Nat → Nat → Machine → Except Fault Machine
  | 0, _, _, m => .ok m
  | rounds + 1, i, pph, m => do
    let phnum ← imageHalf m image pages 44
    if i < phnum then do
      let m ← loadHeader t image pages pph m
      let phentsize ← imageHalf m image pages 42
      walk t image pages rounds (i + 1) ((pph + phentsize) % 2 ^ 32) m
    else .ok m

def fillDirectory (t : Tables) (m : Machine) : Machine :=
  let m := m.writeWord (t.dir * 4096 + 4 * 1023) (entry m.mem m.pdFrame 1023)
  let m := m.writeWord (t.dir * 4096 + 4 * 1019) (entry m.mem m.pdFrame 1019)
  let m := m.writeWord (t.dir * 4096 + 4 * 0) (t.table <<< 12 ||| 7)
  let m := m.writeWord (t.dir * 4096 + 4 * 1022) (t.klsTable <<< 12 ||| 3)
  m.writeWord (t.klsTable * 4096 + 4 * 0) (t.klStack <<< 12 ||| 3)

def pushCommandLine (t : Tables) (string : Nat → UInt8) (m : Machine) : Machine :=
  let m := m.write (t.stack * 4096 + (0x1000 - 80)) string 80
  let m := m.writeWord (t.stack * 4096 + 4 * (0x400 - 21)) 0
  let m := m.writeWord (t.stack * 4096 + 4 * (0x400 - 22)) (0x400000 - 80)
  let m := m.writeWord (t.stack * 4096 + 4 * (0x400 - 23)) (0x400000 - 88)
  let m := m.writeWord (t.stack * 4096 + 4 * (0x400 - 24)) 1
  m.writeWord (t.stack * 4096 + 4 * (0x400 - 25)) 0

def mapStack (t : Tables) (string : Nat → UInt8) (m : Machine) : Machine :=
  pushCommandLine t string (m.writeWord (t.table * 4096 + 4 * 1023) (t.stack <<< 12 ||| 7))

def loadModule (m : Machine) (t : Tables) (image : Nat) (string : Nat → UInt8) :
    Except Fault (Nat × Machine) := do
  let phoff ← imageWord m image 1 28
  let entryPoint ← imageWord m image 1 24
  let phnum ← imageHalf m image 1 44
  let pages ← countPages m image phnum phoff 1
  let phoff ← imageWord m image pages 28
  let m ← walk t image pages 0x10000 0 phoff (fillDirectory t m)
  .ok (entryPoint, mapStack t string m)

def moduleFile (m : Machine) (image size : Nat) : File := ⟨size, size, imageBytes m image⟩

def fill (p : Phdr) : Nat := (p.memsz + 2 ^ 32 - p.filesz) % 2 ^ 32 % 4096

def Fills (p : Phdr) (o : Nat) : Prop :=
  p.offset + p.filesz ≤ o ∧ o < p.offset + p.filesz + fill p

instance (p : Phdr) (o : Nat) : Decidable (Fills p o) := inferInstanceAs (Decidable (_ ∧ _))

/-- The zeroed pages of a segment: the second loop goes on to `c` itself. -/
def ZeroPage (p : Phdr) (v : Nat) : Prop :=
  p.vaddr / 4096 + pagesOf p.filesz ≤ v ∧ v ≤ p.vaddr / 4096 + pagesOf p.memsz

instance (p : Phdr) (v : Nat) : Decidable (ZeroPage p v) := inferInstanceAs (Decidable (_ ∧ _))

def zeroCount (p : Phdr) : Nat := pagesOf p.memsz + 1 - pagesOf p.filesz

def modulePages (p : Phdr) (j n : Nat) : List (Nat × Source) :=
  (List.range' j n).map fun j => (p.vaddr / 4096 + j, .file (p.offset / 4096 + j))

def placements (p : Phdr) : List (Nat × Source) :=
  modulePages p 0 (pagesOf p.filesz) ++ zeroPages p.vaddr (pagesOf p.filesz) (zeroCount p)

def cleared (filled : List Phdr) (bytes : Nat → UInt8) (o : Nat) : UInt8 :=
  if ∃ q ∈ filled, Fills q o then 0 else bytes o

theorem cleared_concat (filled : List Phdr) (p : Phdr) (bytes : Nat → UInt8) (o : Nat) :
    cleared (filled ++ [p]) bytes o = if Fills p o then 0 else cleared filled bytes o := by
  simp only [cleared, mem_append, mem_singleton, or_and_right, exists_or, exists_eq_left]
  by_cases hp : Fills p o
  · simp [hp]
  · simp [hp]

/-- The module, the tables and the free frames lie apart. -/
structure Apart (m : Machine) (t : Tables) (image size : Nat) : Prop where
  kept : ∀ k, k * 4096 < size → ¬m.frames.Free (image + k)
  used : ∀ f ∈ [t.dir, t.table, t.stack, t.klsTable], ¬m.frames.Free f
  beside : ∀ f ∈ [t.dir, t.table, t.stack, t.klsTable],
    f < image ∨ image * 4096 + size + 4096 ≤ f * 4096
  small : ∀ f ∈ [t.dir, t.table, t.stack, t.klsTable], f < 2 ^ 20
  nodup : [t.dir, t.table, t.stack, t.klsTable].Nodup
  inside : image * 4096 + size < 2 ^ 32

def Backs (m0 m : Machine) (image e : Nat) : Source → Prop
  | .file k => e = (image + k) * 4096 + 7
  | .tail _ _ => False
  | .zero => ∃ f, e = f * 4096 + 7 ∧ m0.frames.Free f ∧ ¬m.frames.Free f ∧
      ∀ o < 4096, m.mem (f * 4096 + o) = 0

/-- The pages `placed` are mapped and the segments `filled` cleared; the frames `taken` were
allocated. -/
structure Progress (m0 : Machine) (t : Tables) (image : Nat) (file : File)
    (placed : List (Nat × Source)) (filled : List Phdr) (taken : List Nat) (m : Machine) :
    Prop where
  took : m0.frames.Took m.frames taken
  bytes : ∀ o, o / 4096 * 4096 < file.size → imageBytes m image o = cleared filled file.bytes o
  shows : ∀ v < 1024, ∀ src, layout placed v = some src →
    Backs m0 m image (entry m.mem t.table v) src
  dir : entry m.mem t.dir 0 = t.table * 4096 + 7

variable {m0 m m' : Machine} {t : Tables} {image size pages : Nat} {file : File} {p : Phdr}
  {placed : List (Nat × Source)} {filled : List Phdr} {taken : List Nat} {src : Source}
  {i j k n v o pph value rounds : Nat}

theorem Backs.congr {e : Nat} (h : Backs m0 m image e src)
    (hused : ∀ f, ¬m.frames.Free f → ¬m'.frames.Free f)
    (hmem : ∀ f, m0.frames.Free f → ¬m.frames.Free f → ∀ o < 4096, m.mem (f * 4096 + o) = 0 →
      m'.mem (f * 4096 + o) = 0) : Backs m0 m' image e src := by
  cases src with
  | file k => exact h
  | tail k rest => exact h
  | zero =>
    obtain ⟨f, he, hfree, hnot, hzero⟩ := h
    exact ⟨f, he, hfree, hused f hnot, fun o ho => hmem f hfree hnot o ho (hzero o ho)⟩

namespace Progress

variable (h : Progress m0 t image file placed filled taken m) (ha : Apart m0 t image file.size)
include h ha

theorem apart_of_free (hfree : m.frames.Free k) :
    k ≠ t.dir ∧ k ≠ t.table ∧ ∀ o, o / 4096 * 4096 < file.size → k ≠ image + o / 4096 := by
  have hbefore := ((h.took.free_iff k).mp hfree).1
  refine ⟨?_, ?_, ?_⟩
  · rintro rfl
    exact ha.used t.dir (by simp) hbefore
  · rintro rfl
    exact ha.used t.table (by simp) hbefore
  · rintro o ho rfl
    exact ha.kept _ ho hbefore

theorem alloc (hfree : m.frames.Free k) (hlt : k < m.frames.mmLimit) :
    Progress m0 t image file placed filled (taken ++ [k])
      ((m.setFrames (m.frames.clr k 1)).writePage k fun _ => 0) := by
  obtain ⟨hdir, htable, himage⟩ := h.apart_of_free ha hfree
  refine ⟨?_, fun o ho => ?_, fun v hv src hsrc => ?_, ?_⟩
  · exact h.took.append (Frames.took_clr hfree hlt)
  · rw [← h.bytes o ho, imageBytes, mem_writePage, if_neg, setFrames_mem, imageBytes]
    have := himage o ho
    omega
  · rw [entry_writePage_off htable.symm hv, setFrames_mem]
    apply (h.shows v hv src hsrc).congr
    · intro f hf hfree'
      exact hf (Frames.free_clr.mp hfree').1
    · intro f _ hf o ho hzero
      rw [mem_writePage]
      split
      · rfl
      · exact hzero
  · rw [entry_writePage_off hdir.symm (by decide), setFrames_mem]
    exact h.dir

theorem place (hv : v < 1024) (hvalue : value < 2 ^ 32) (hbacks : Backs m0 m image value src) :
    Progress m0 t image file (placed ++ [(v, src)]) filled taken
      (m.writeWord (t.table * 4096 + 4 * v) value) := by
  have hbeside := ha.beside t.table (by simp)
  have hmem : ∀ f, m0.frames.Free f → ¬m.frames.Free f → ∀ o < 4096, m.mem (f * 4096 + o) = 0 →
      (m.writeWord (t.table * 4096 + 4 * v) value).mem (f * 4096 + o) = 0 := by
    intro f hf _ o ho hzero
    rw [mem_writeWord_off hv, hzero]
    intro heq
    rw [show (f * 4096 + o) / 4096 = f by omega] at heq
    exact ha.used t.table (by simp) (heq ▸ hf)
  refine ⟨h.took, fun o ho => ?_, fun i hi src' hsrc' => ?_, ?_⟩
  · rw [← h.bytes o ho, imageBytes, mem_writeWord_off hv, imageBytes]
    omega
  · rw [layout_append] at hsrc'
    rw [entry_writeWord hvalue hv hi]
    by_cases heq : i = v
    · rw [heq, update_self, Option.some_inj] at hsrc'
      rw [if_pos ⟨rfl, heq⟩, ← hsrc']
      exact hbacks.congr (fun _ hf => hf) hmem
    · rw [update_of_ne heq] at hsrc'
      rw [if_neg fun hand => heq hand.2]
      exact (h.shows i hi src' hsrc').congr (fun _ hf => hf) hmem
  · have hne : t.dir ≠ t.table := by
      have hnodup := ha.nodup
      simp only [nodup_cons, mem_cons, not_or] at hnodup
      exact hnodup.1.1
    rw [entry_writeWord hvalue hv (by decide), if_neg fun hand => hne hand.1]
    exact h.dir

theorem clear (hin : p.offset + p.filesz ≤ file.size) :
    Progress m0 t image file placed (filled ++ [p]) taken
      (m.write (image * 4096 + (p.offset + p.filesz)) (fun _ => 0) (fill p)) := by
  have hfill : fill p < 4096 := Nat.mod_lt _ (by decide)
  generalize hwrite : m.write (image * 4096 + (p.offset + p.filesz)) (fun _ => 0) (fill p) = m'
  have hframes : m'.frames = m.frames := by rw [← hwrite, write_frames]
  have hmem (a : Nat) : m'.mem a = if image * 4096 + (p.offset + p.filesz) ≤ a ∧
      a < image * 4096 + (p.offset + p.filesz) + fill p then 0 else m.mem a := by
    rw [← hwrite]
    rfl
  have hentry (f : Nat) (hf : f ∈ [t.dir, t.table, t.stack, t.klsTable]) (i : Nat)
      (hi : i < 1024) : entry m'.mem f i = entry m.mem f i := by
    apply entry_congr _ hi
    intro a haf
    have hbeside := ha.beside f hf
    rw [hmem, if_neg (by omega)]
  refine ⟨hframes ▸ h.took, fun o ho => ?_, fun v hv src hsrc => ?_, ?_⟩
  · rw [cleared_concat, ← h.bytes o ho, imageBytes, hmem]
    apply if_congr _ rfl rfl
    rw [Fills]
    omega
  · rw [hentry t.table (by simp) v hv]
    apply (h.shows v hv src hsrc).congr (hframes ▸ fun _ hf => hf)
    intro f _ _ o ho hzero
    rw [hmem, hzero, ite_self]
  · rw [hentry t.dir (by simp) 0 (by decide)]
    exact h.dir

end Progress

theorem modulePages_succ : modulePages p j (n + 1) =
    [(p.vaddr / 4096 + j, .file (p.offset / 4096 + j))] ++ modulePages p (j + 1) n := by
  simp [modulePages, range'_succ]

theorem zeroPages_succ (vaddr : Nat) : zeroPages vaddr j (n + 1) =
    [(vaddr / 4096 + j, .zero)] ++ zeroPages vaddr (j + 1) n := by
  simp [zeroPages, range'_succ]

section

variable (h : Progress m0 t image file placed filled taken m)
include h

variable (ha : Apart m0 t image file.size)
include ha

theorem mapModulePages_progress
    (hfits : ∀ i, j ≤ i → i < j + n → p.vaddr / 4096 + i < 1024 ∧
      image + (p.offset / 4096 + i) < 2 ^ 20) :
    ∃ m', mapModulePages t image p.offset p.vaddr n j m = .ok m' ∧
      Progress m0 t image file (placed ++ modulePages p j n) filled taken m' := by
  induction n generalizing j m placed with
  | zero =>
    refine ⟨m, rfl, ?_⟩
    simpa [modulePages] using h
  | succ n ih =>
    obtain ⟨hv, hsmall⟩ := hfits j le_rfl (by omega)
    have hlt : (image + (p.offset / 4096 + j)) * 4096 + 7 < 2 ^ 32 := by omega
    have hvalue : (image * 4096 + p.offset / 4096 * 4096 + j <<< 12 + 7) % 2 ^ 32 =
        (image + (p.offset / 4096 + j)) * 4096 + 7 := by
      rw [Nat.shiftLeft_eq]
      omega
    have hbacks : Backs m0 m image ((image + (p.offset / 4096 + j)) * 4096 + 7)
        (.file (p.offset / 4096 + j)) := rfl
    obtain ⟨m', hrest, hprog⟩ := ih (j := j + 1) (h.place ha hv hlt hbacks)
      fun i hle hlt => hfits i (by omega) (by omega)
    refine ⟨m', ?_, ?_⟩
    · rw [mapModulePages, setEntry, if_pos hv, ok_bind, hvalue, hrest]
    · rwa [modulePages_succ, ← append_assoc]

theorem placeZero
    (hfree : m.frames.Free k) (hlt : k < m.frames.mmLimit)
    (hv : v < 1024) :
    Progress m0 t image file (placed ++ [(v, .zero)]) filled (taken ++ [k])
      (((m.setFrames (m.frames.clr k 1)).writePage k fun _ => 0).writeWord
        (t.table * 4096 + 4 * v) (k * 4096 + 7)) := by
  have hk : k < 2 ^ 20 := lt_of_lt_of_le hlt m.frames.mmLimit_le
  apply (h.alloc ha hfree hlt).place ha hv (by omega)
  refine ⟨k, rfl, ((h.took.free_iff k).mp hfree).1, ?_, fun o ho => ?_⟩
  · rw [writePage_frames, setFrames_frames, Frames.free_clr]
    omega
  · rw [mem_writePage, if_pos (by omega)]

theorem mapBssPages_checked
    (hvaddr : ∀ {placed taken m}, Progress m0 t image file placed filled taken m →
      imageWord m image pages (pph + 8) = .ok p.vaddr)
    (hroom : taken.length + n ≤ m0.frames.available) :
    Checked False (mapBssPages t image pages pph n j m)
      (∀ i, j ≤ i → i < j + n → p.vaddr / 4096 + i < 1024)
      fun m' => ∃ taken', taken'.length = taken.length + n ∧
        Progress m0 t image file (placed ++ zeroPages p.vaddr j n) filled taken' m' := by
  induction n generalizing j m placed taken with
  | zero =>
    rw [mapBssPages]
    refine .ok (fun i hle hlt => by omega) ⟨taken, rfl, ?_⟩
    simpa [zeroPages] using h
  | succ n ih =>
    have havail := h.took.available
    obtain ⟨k, hfree, hlt, halloc⟩ := allocPhysFrame_available
      (show 0 < m.frames.available by omega)
    have hk : k < 2 ^ 20 := lt_of_lt_of_le hlt m.frames.mmLimit_le
    have hframe : (k <<< 12 ||| 3) / 4096 = k := frameOf_shiftLeft k
    have hvalue : (k <<< 12 + 7) % 2 ^ 32 = k * 4096 + 7 := by
      omega
    rw [mapBssPages, halloc, ok_bind]
    dsimp only
    rw [hframe, hvaddr (h.alloc ha hfree hlt), ok_bind, hvalue]
    have hround : Checked False (setEntry ((m.setFrames (m.frames.clr k 1)).writePage k fun _ => 0)
        t.table (p.vaddr / 4096 + j) (k * 4096 + 7)) (p.vaddr / 4096 + j < 1024)
        fun m' => Progress m0 t image file (placed ++ [(p.vaddr / 4096 + j, .zero)]) filled
          (taken ++ [k]) m' :=
      .of_eq_ite rfl fun hv => placeZero h ha hfree hlt hv
    have hlen : (taken ++ [k]).length = taken.length + 1 := by simp
    have hrest := hround.bind fun m' _ hprog => ih (j := j + 1) hprog
      (show (taken ++ [k]).length + n ≤ m0.frames.available by omega)
    refine (hrest.congr ?_).imp fun m' hout => ?_
    · rw [show j + 1 + n = j + (n + 1) by omega]
      exact forall_from_succ (P := fun i => p.vaddr / 4096 + i < 1024) (by omega)
    · obtain ⟨taken', hcount, hprog⟩ := hout
      refine ⟨taken', by omega, ?_⟩
      rwa [zeroPages_succ, ← append_assoc]

end

def HeaderByte (file : File) (o : Nat) : Prop :=
  (42 ≤ o ∧ o < 46) ∨ ∃ i < file.phnum,
    file.phoff + i * file.phentsize ≤ o ∧ o < file.phoff + i * file.phentsize + 24

/-- No segment clears a byte of the headers that is not zero. -/
def HeadersKept (file : File) : Prop :=
  ∀ p ∈ file.segments, ∀ o, Fills p o → HeaderByte file o → file.bytes o = 0

def HeaderFits (file : File) (i : Nat) : Prop :=
  file.phoff + i * file.phentsize + 4 ≤ 4096 ∧
    ((file.header i).type = ptLoad → file.phoff + i * file.phentsize + 24 ≤ 4096)

instance (file : File) (i : Nat) : Decidable (HeaderFits file i) :=
  inferInstanceAs (Decidable (_ ∧ (_ → _)))

/-- A module whose segments can lie beside each other below the page of the stack. -/
structure ValidModule (file : File) : Prop where
  size : 0 < file.size
  inside : ∀ p ∈ file.segments, p.offset + p.filesz ≤ file.size
  aligned : ∀ p ∈ file.segments, p.offset % 4096 = p.vaddr % 4096
  bss : ∀ p ∈ file.segments, p.filesz ≤ p.memsz
  below : ∀ p ∈ file.segments, ∀ v, p.Occupies v → v < 1023
  disjoint : file.segments.Pairwise fun p q => ∀ v, p.Occupies v → ¬q.Occupies v

theorem half_lt (file : File) (a : Nat) : file.half a < 2 ^ 16 := by
  have h0 := (file.bytes a).toNat_lt
  have h1 := (file.bytes (a + 1)).toNat_lt
  rw [File.half]
  omega

theorem pagesOf_eq (h : n ≤ 2 ^ 22) : pagesOf n = (n + 4095) / 4096 := by
  rw [pagesOf]
  omega

namespace ValidModule

variable (hvalid : ValidModule file) (hp : p ∈ file.segments)
include hvalid hp

theorem end_le : p.memsz = 0 ∨ p.vaddr + p.memsz ≤ 1023 * 4096 := by
  by_contra hnot
  have hlast := hvalid.below p hp ((p.vaddr + p.memsz - 1) / 4096) (by rw [Phdr.Occupies]; omega)
  omega

theorem filesz_le : p.filesz ≤ p.memsz ∧ p.memsz ≤ 2 ^ 22 := by
  have hbss := hvalid.bss p hp
  have hend := hvalid.end_le hp
  omega

theorem filePages_eq : pagesOf p.filesz = (p.filesz + 4095) / 4096 := by
  have := hvalid.filesz_le hp
  exact pagesOf_eq (by omega)

theorem memPages_eq : pagesOf p.memsz = (p.memsz + 4095) / 4096 :=
  pagesOf_eq (hvalid.filesz_le hp).2

theorem zeroCount_eq : pagesOf p.filesz + zeroCount p = pagesOf p.memsz + 1 := by
  have := hvalid.filesz_le hp
  rw [zeroCount, hvalid.filePages_eq hp, hvalid.memPages_eq hp]
  omega

theorem occupies_filePage (hj : j < pagesOf p.filesz) : p.Occupies (p.vaddr / 4096 + j) := by
  have := hvalid.filesz_le hp
  rw [hvalid.filePages_eq hp] at hj
  rw [Phdr.Occupies]
  omega

theorem filePage_lt (ha : Apart m0 t image file.size) (hj : j < pagesOf p.filesz) :
    p.vaddr / 4096 + j < 1024 ∧ image + (p.offset / 4096 + j) < 2 ^ 20 := by
  have hbelow := hvalid.below p hp _ (hvalid.occupies_filePage hp hj)
  have hin := hvalid.inside p hp
  have hend := ha.inside
  rw [hvalid.filePages_eq hp] at hj
  omega

end ValidModule

namespace Progress

variable (h : Progress m0 t image file placed filled taken m) (hvalid : ValidModule file)
  (hkept : HeadersKept file) (hfilled : ∀ q ∈ filled, q ∈ file.segments)
include h hvalid hkept hfilled

theorem header_byte (ho : o < 4096) (hheader : HeaderByte file o) :
    imageBytes m image o = file.bytes o := by
  rw [h.bytes o (by have := hvalid.size; omega), cleared]
  split
  · rename_i hfills
    obtain ⟨q, hq, hfills⟩ := hfills
    exact (hkept q (hfilled q hq) o hfills hheader).symm
  · rfl

theorem header_word {off : Nat} (hpages : 1 ≤ pages) (hoff : off + 4 ≤ 4096)
    (hheader : ∀ d < 4, HeaderByte file (off + d)) :
    imageWord m image pages off = .ok (word file.bytes off) := by
  rw [imageWord, Nat.mod_eq_of_lt (by omega), if_pos (by omega)]
  congr 1
  apply word_congr
  intro d hd
  exact h.header_byte hvalid hkept hfilled (by omega) (hheader d hd)

theorem header_half {off : Nat} (hpages : 1 ≤ pages) (hoff : 42 ≤ off ∧ off + 2 ≤ 46) :
    imageHalf m image pages off = .ok (file.half off) := by
  rw [imageHalf, if_pos (by omega), File.half,
    h.header_byte hvalid hkept hfilled (by omega) (.inl (by omega)),
    h.header_byte hvalid hkept hfilled (by omega) (.inl (by omega))]

theorem header_field {d : Nat} (hpages : 1 ≤ pages) (hi : i < file.phnum)
    (hpage : file.phoff + i * file.phentsize + d + 4 ≤ 4096) (hd : d + 4 ≤ 24) :
    imageWord m image pages (file.phoff + i * file.phentsize + d) =
      .ok (word file.bytes (file.phoff + i * file.phentsize + d)) := by
  apply h.header_word hvalid hkept hfilled hpages hpage
  intro d' hd'
  exact .inr ⟨i, hi, by omega, by omega⟩

end Progress

def Fits (pages : Nat) (p : Phdr) : Prop :=
  (fill p = 0 ∨ p.offset + p.filesz + fill p ≤ pages * 4096) ∧ ∀ v, ZeroPage p v → v < 1024

theorem loadSegment_checked (h : Progress m0 t image file placed filled taken m)
    (ha : Apart m0 t image file.size) (hvalid : ValidModule file) (hkept : HeadersKept file)
    (hfilled : ∀ q ∈ filled, q ∈ file.segments) (hpages : 1 ≤ pages) (hi : i < file.phnum)
    (hp : file.header i ∈ file.segments)
    (hpage : file.phoff + i * file.phentsize + 24 ≤ 4096)
    (hroom : taken.length + zeroCount (file.header i) ≤ m0.frames.available) :
    Checked False (loadSegment t image pages (file.phoff + i * file.phentsize) m)
      (Fits pages (file.header i))
      fun m' => ∃ taken', taken'.length = taken.length + zeroCount (file.header i) ∧
        Progress m0 t image file (placed ++ placements (file.header i))
          (filled ++ [file.header i]) taken' m' := by
  have hfilled' : ∀ q ∈ filled ++ [file.header i], q ∈ file.segments := by
    intro q hq
    obtain hq | hq := mem_append.mp hq
    · exact hfilled q hq
    · exact mem_singleton.mp hq ▸ hp
  have hfield {d : Nat} (hd : d + 4 ≤ 24) {placed filled taken m}
      (h : Progress m0 t image file placed filled taken m)
      (hfilled : ∀ q ∈ filled, q ∈ file.segments) :=
    h.header_field hvalid hkept hfilled hpages hi (d := d) (by omega) hd
  have hin := hvalid.inside _ hp
  have hend := ha.inside
  obtain ⟨m1, hmap, h1⟩ := mapModulePages_progress (p := file.header i) (j := 0)
    (n := pagesOf (file.header i).filesz) h ha
    fun j _ hj => hvalid.filePage_lt hp ha (by omega)
  rw [loadSegment, hfield (d := 16) (by omega) h hfilled, ok_bind,
    hfield (d := 8) (by omega) h hfilled, ok_bind, hfield (d := 4) (by omega) h hfilled, ok_bind]
  change Checked False (mapModulePages t image (file.header i).offset (file.header i).vaddr
    (pagesOf (file.header i).filesz) 0 m >>= _) _ _
  rw [hmap, ok_bind, hfield (d := 20) (by omega) h1 hfilled, ok_bind]
  have hclear : Checked False (clearImage m1 image pages
      ((file.header i).offset + (file.header i).filesz) (fill (file.header i)))
      (fill (file.header i) = 0 ∨ (file.header i).offset + (file.header i).filesz +
        fill (file.header i) ≤ pages * 4096)
      fun m' => Progress m0 t image file
        (placed ++ modulePages (file.header i) 0 (pagesOf (file.header i).filesz))
        (filled ++ [file.header i]) taken m' := by
    rw [clearImage, Nat.mod_eq_of_lt (by omega)]
    exact .of_eq_ite rfl fun _ => h1.clear ha hin
  refine (hclear.bind (Q := ∀ j, pagesOf (file.header i).filesz ≤ j →
    j < pagesOf (file.header i).filesz + zeroCount (file.header i) →
      (file.header i).vaddr / 4096 + j < 1024) fun m2 _ h2 => ?_).congr ?_
  · rw [hfield (d := 20) (by omega) h2 hfilled', ok_bind, placements, ← append_assoc]
    exact mapBssPages_checked h2 ha (fun h => hfield (d := 8) (by omega) h hfilled') hroom
  · rw [Fits, hvalid.zeroCount_eq hp]
    refine and_congr_right fun _ => ⟨fun hall v hv => ?_, fun hall j hle hlt => ?_⟩
    · rw [ZeroPage] at hv
      have := hall (v - (file.header i).vaddr / 4096) (by omega) (by omega)
      omega
    · exact hall _ ⟨by omega, by omega⟩

def segmentsFrom (file : File) (i n : Nat) : List Phdr :=
  ((List.range' i n).map file.header).filter fun p => p.type = ptLoad

theorem segmentsFrom_one (file : File) (i : Nat) : segmentsFrom file i 1 =
    if (file.header i).type = ptLoad then [file.header i] else [] := by
  simp [segmentsFrom, filter_cons]

theorem segmentsFrom_succ (file : File) (i n : Nat) :
    segmentsFrom file i (n + 1) = segmentsFrom file i 1 ++ segmentsFrom file (i + 1) n := by
  rw [segmentsFrom, range'_succ, map_cons, ← singleton_append, filter_append]
  rfl

theorem segments_eq (file : File) : file.segments = segmentsFrom file 0 file.phnum := by
  rw [File.segments, File.phdrs, segmentsFrom, range_eq_range']
  rfl

def windowPages (file : File) : Nat := 1 + (file.segments.map fun p => p.memsz / 4096).sum

theorem next_header_lt (hfits : HeaderFits file i) :
    (file.phoff + i * file.phentsize + file.phentsize) % 2 ^ 32 =
      file.phoff + (i + 1) * file.phentsize := by
  have hsize : file.phentsize < 2 ^ 16 := half_lt file 42
  have hpage := hfits.1
  rw [Nat.succ_mul]
  omega

theorem imageWord_checked (m : Machine) (image pages : Nat) {off : Nat} (hoff : off < 2 ^ 32) :
    Checked False (imageWord m image pages off) (off + 4 ≤ pages * 4096)
      (· = word (imageBytes m image) off) := by
  rw [imageWord, Nat.mod_eq_of_lt hoff]
  exact .of_eq_ite rfl fun _ => rfl

theorem countHeader_checked (hfile : file.bytes = imageBytes m image) {count : Nat}
    (hcount : count < 2 ^ 32) (hpph : file.phoff + i * file.phentsize < 2 ^ 32) :
    Checked False (countHeader m image (file.phoff + i * file.phentsize) count)
      (HeaderFits file i)
      (· = (count + ((segmentsFrom file i 1).map fun p => p.memsz / 4096).sum) % 2 ^ 32) := by
  rw [countHeader]
  refine (imageWord_checked m image 1 hpph).bind fun type hpage htype => ?_
  rw [htype, ← hfile, show word file.bytes (file.phoff + i * file.phentsize) =
    (file.header i).type from rfl, segmentsFrom_one]
  split
  · rename_i hload
    have hread := imageWord_checked m image 1
      (show file.phoff + i * file.phentsize + 20 < 2 ^ 32 by omega)
    refine (hread.bind (Q := True) fun memsz _ hmemsz => .ok trivial ?_).congr ?_
    · rw [hmemsz, ← hfile]
      rfl
    · simp only [hload, and_true, true_imp_iff]
  · rename_i hload
    exact .ok (fun hload' => absurd hload' hload) (Nat.mod_eq_of_lt hcount).symm

theorem countPages_checked (hfile : file.bytes = imageBytes m image) {count : Nat}
    (hcount : count < 2 ^ 32) (hpph : file.phoff + i * file.phentsize < 2 ^ 32) :
    Checked False (countPages m image n (file.phoff + i * file.phentsize) count)
      (∀ k, i ≤ k → k < i + n → HeaderFits file k)
      (· = (count + ((segmentsFrom file i n).map fun p => p.memsz / 4096).sum) % 2 ^ 32) := by
  induction n generalizing i count with
  | zero =>
    rw [countPages]
    exact .ok (fun k hle hlt => by omega) (Nat.mod_eq_of_lt hcount).symm
  | succ n ih =>
    have hphentsize : imageHalf m image 1 42 = .ok file.phentsize := by
      rw [imageHalf, if_pos (by decide), ← hfile]
      rfl
    refine ((countHeader_checked hfile hcount hpph).bind fun r hfits hr => ?_).congr
      (forall_from_succ (show i < i + (n + 1) by omega))
    rw [hphentsize, ok_bind, next_header_lt hfits, show i + (n + 1) = i + 1 + n by omega]
    have hnext : file.phoff + (i + 1) * file.phentsize < 2 ^ 32 := by
      rw [← next_header_lt hfits]
      exact Nat.mod_lt _ (by decide)
    refine (ih (hr ▸ Nat.mod_lt _ (by decide)) hnext).imp fun r' hr' => ?_
    rw [hr', hr, Nat.mod_add_mod, segmentsFrom_succ file i n, map_append, sum_append,
      add_assoc]

theorem loadHeader_checked (h : Progress m0 t image file placed filled taken m)
    (ha : Apart m0 t image file.size) (hvalid : ValidModule file) (hkept : HeadersKept file)
    (hfilled : ∀ q ∈ filled, q ∈ file.segments) (hpages : 1 ≤ pages) (hi : i < file.phnum)
    (hfits : HeaderFits file i)
    (hroom : taken.length + ((segmentsFrom file i 1).map zeroCount).sum ≤ m0.frames.available) :
    Checked False (loadHeader t image pages (file.phoff + i * file.phentsize) m)
      (∀ p ∈ segmentsFrom file i 1, Fits pages p)
      fun m' => ∃ taken',
        taken'.length = taken.length + ((segmentsFrom file i 1).map zeroCount).sum ∧
        Progress m0 t image file (placed ++ (segmentsFrom file i 1).flatMap placements)
          (filled ++ segmentsFrom file i 1) taken' m' := by
  have htype : imageWord m image pages (file.phoff + i * file.phentsize) =
      .ok (file.header i).type :=
    h.header_field hvalid hkept hfilled hpages hi (d := 0) hfits.1 (by omega)
  rw [loadHeader, htype, ok_bind]
  rw [segmentsFrom_one] at hroom ⊢
  split
  · rename_i hload
    rw [if_pos hload] at hroom
    have hp := file.mem_segments hi hload
    have hsegment := loadSegment_checked h ha hvalid hkept hfilled hpages hi hp (hfits.2 hload)
      (by simpa using hroom)
    simpa using hsegment
  · refine .ok (by simp) ⟨taken, rfl, ?_⟩
    simpa using h

theorem walk_checked (ha : Apart m0 t image file.size) (hvalid : ValidModule file)
    (hkept : HeadersKept file) (hpages : 1 ≤ pages) (hheaders : ∀ i < file.phnum, HeaderFits file i)
    {done : List Phdr} (hdone : done ++ segmentsFrom file i n = file.segments)
    (h : Progress m0 t image file (done.flatMap placements) done taken m)
    (hn : i + n = file.phnum) (hrounds : n < rounds)
    (hroom : taken.length + ((segmentsFrom file i n).map zeroCount).sum ≤ m0.frames.available) :
    Checked False (walk t image pages rounds i (file.phoff + i * file.phentsize) m)
      (∀ p ∈ segmentsFrom file i n, Fits pages p)
      fun m' => ∃ taken', Progress m0 t image file (file.segments.flatMap placements)
        file.segments taken' m' := by
  induction n generalizing i rounds m done taken with
  | zero =>
    obtain ⟨rounds, rfl⟩ := Nat.exists_eq_add_of_le' (Nat.one_le_of_lt hrounds)
    have hall : done = file.segments := by simpa [segmentsFrom] using hdone
    have hphnum : imageHalf m image pages 44 = .ok file.phnum :=
      h.header_half hvalid hkept (fun q hq => hall ▸ hq) hpages (by omega)
    rw [walk, hphnum, ok_bind, if_neg (by omega)]
    exact .ok (by simp [segmentsFrom]) ⟨taken, hall ▸ h⟩
  | succ n ih =>
    obtain ⟨rounds, rfl⟩ := Nat.exists_eq_add_of_le' (Nat.one_le_of_lt hrounds)
    rw [segmentsFrom_succ] at hdone hroom ⊢
    rw [map_append, sum_append] at hroom
    rw [← append_assoc] at hdone
    have hfilled : ∀ q ∈ done ++ segmentsFrom file i 1, q ∈ file.segments := fun q hq =>
      hdone ▸ mem_append_left _ hq
    have hbefore : ∀ q ∈ done, q ∈ file.segments := fun q hq =>
      hfilled q (mem_append_left _ hq)
    have hphnum : imageHalf m image pages 44 = .ok file.phnum :=
      h.header_half hvalid hkept hbefore hpages (by omega)
    have hi : i < file.phnum := by omega
    rw [walk, hphnum, ok_bind, if_pos hi]
    refine ((loadHeader_checked h ha hvalid hkept hbefore hpages hi (hheaders i hi)
      (by omega)).bind fun m1 _ ⟨taken1, hcount, h1⟩ => ?_).congr forall_mem_append.symm
    have hphentsize : imageHalf m1 image pages 42 = .ok file.phentsize :=
      h1.header_half hvalid hkept hfilled hpages (by omega)
    rw [hphentsize, ok_bind, next_header_lt (hheaders i hi)]
    rw [← flatMap_append] at h1
    exact ih hdone h1 (by omega) (by omega) (by omega)

end Quest.Boot.LoadModule
