import Quest.Boot.LoadModule

/-! What a boot module finds in its address space, byte by byte. -/
namespace Quest.Boot.LoadModule

open Quest.Lib Memory Quest.Mem Machine Quest.Proc List Function

variable {m0 m m' : Machine} {t : Tables} {image size : Nat} {file : File} {p : Phdr}
  {taken : List Nat} {string : Nat → UInt8} {v x : Nat}

theorem fillDirectory_off {a : Nat} (hdir : a / 4096 ≠ t.dir) (hkls : a / 4096 ≠ t.klsTable) :
    (fillDirectory t m).mem a = m.mem a := by
  rw [fillDirectory, mem_writeWord_off (by decide) hkls, mem_writeWord_off (by decide) hdir,
    mem_writeWord_off (by decide) hdir, mem_writeWord_off (by decide) hdir,
    mem_writeWord_off (by decide) hdir]

theorem progress_start (ha : Apart m t image size) :
    Progress m t image (moduleFile m image size) [] [] [] (fillDirectory t m) := by
  have hdir := ha.beside t.dir (by simp)
  have hkls := ha.beside t.klsTable (by simp)
  have hne : t.dir ≠ t.klsTable := by
    have hnodup := ha.nodup
    simp only [nodup_cons, mem_cons, not_or] at hnodup
    exact hnodup.1.2.2.1
  refine ⟨.nil _, fun o ho => ?_, fun v _ src hsrc => ?_, ?_⟩
  · have hsize : o / 4096 * 4096 < size := ho
    rw [imageBytes, fillDirectory_off (by omega) (by omega)]
    rfl
  · cases hsrc
  · have htable := ha.small t.table (by simp)
    have hsmall := ha.small t.klsTable (by simp)
    rw [fillDirectory, or_seven, or_three t.klsTable]
    have hentry {m : Machine} {value : Nat} :
        entry (m.writeWord (t.klsTable * 4096 + 4 * 0) value).mem t.dir 0 = entry m.mem t.dir 0 :=
      entry_congr (fun a haf => mem_writeWord_off (by decide) (haf ▸ hne)) (by decide)
    rw [hentry, entry_writeWord (by omega) (by decide) (by decide), if_neg (by simp),
      entry_writeWord (by omega) (by decide) (by decide), if_pos ⟨rfl, rfl⟩]

theorem pushCommandLine_off {a : Nat} (ha : a / 4096 ≠ t.stack) :
    (pushCommandLine t string m).mem a = m.mem a := by
  rw [pushCommandLine, mem_writeWord_off (by decide) ha, mem_writeWord_off (by decide) ha,
    mem_writeWord_off (by decide) ha, mem_writeWord_off (by decide) ha,
    mem_writeWord_off (by decide) ha, mem_write_off (by decide) ha]

theorem mapStack_off {a : Nat} (htable : a / 4096 ≠ t.table) (hstack : a / 4096 ≠ t.stack) :
    (mapStack t string m).mem a = m.mem a := by
  rw [mapStack, pushCommandLine_off hstack, mem_writeWord_off (by decide) htable]

theorem entry_mapStack (ha : Apart m0 t image size) (hv : v < 1023) :
    entry (mapStack t string m).mem t.table v = entry m.mem t.table v := by
  have hne : t.table ≠ t.stack := by
    have hnodup := ha.nodup
    simp only [nodup_cons, mem_cons, not_or] at hnodup
    exact hnodup.2.1.1
  have hstack := ha.small t.stack (by simp)
  have hpush {m : Machine} :
      entry (pushCommandLine t string m).mem t.table v = entry m.mem t.table v :=
    entry_congr (fun a haf => pushCommandLine_off (haf ▸ hne)) (by omega)
  rw [mapStack, hpush, or_seven, entry_writeWord (by omega) (by decide) (by omega), if_neg (by omega)]

theorem entry_mapStack_dir (ha : Apart m0 t image size) :
    entry (mapStack t string m).mem t.dir 0 = entry m.mem t.dir 0 := by
  have hnodup := ha.nodup
  simp only [nodup_cons, mem_cons, not_or] at hnodup
  apply entry_congr _ (by decide)
  intro a haf
  exact mapStack_off (haf ▸ hnodup.1.1) (haf ▸ hnodup.1.2.1)

theorem windowPages_lt (hvalid : ValidModule file) : windowPages file < 2 ^ 32 := by
  have hcount : file.segments.length ≤ file.phnum := by
    rw [File.segments, File.phdrs]
    exact (length_filter_le _ _).trans (by simp)
  have hphnum : file.phnum < 2 ^ 16 := half_lt file 44
  have hsum : (file.segments.map fun p => p.memsz / 4096).sum ≤ file.segments.length * 1024 := by
    have hle := sum_le_card_nsmul (file.segments.map fun p => p.memsz / 4096) 1024
    rw [length_map, smul_eq_mul] at hle
    apply hle
    intro x hx
    obtain ⟨p, hp, rfl⟩ := mem_map.mp hx
    have := (hvalid.filesz_le hp).2
    omega
  rw [windowPages]
  omega

theorem loadModule_checked (string : Nat → UInt8) (ha : Apart m t image size)
    (hvalid : ValidModule (moduleFile m image size))
    (hkept : HeadersKept (moduleFile m image size))
    (hroom : ((moduleFile m image size).segments.map zeroCount).sum ≤ m.frames.available) :
    Checked False (loadModule m t image string)
      ((∀ i < (moduleFile m image size).phnum, HeaderFits (moduleFile m image size) i) ∧
        ∀ p ∈ (moduleFile m image size).segments,
          Fits (windowPages (moduleFile m image size)) p)
      fun r => ∃ m' taken, r.2 = mapStack t string m' ∧
        Progress m t image (moduleFile m image size)
          ((moduleFile m image size).segments.flatMap placements)
          (moduleFile m image size).segments taken m' := by
  generalize hfile : moduleFile m image size = file at hvalid hkept hroom ⊢
  have hbytes : file.bytes = imageBytes m image := by rw [← hfile]; rfl
  have hsize : file.size = size := by rw [← hfile]; rfl
  have hread {pages off : Nat} (hpages : 1 ≤ pages) (hoff : off + 4 ≤ 4096) :
      imageWord m image pages off = .ok (word file.bytes off) := by
    rw [imageWord, Nat.mod_eq_of_lt (by omega), if_pos (by omega), hbytes]
  have hphnum : imageHalf m image 1 44 = .ok file.phnum := by
    rw [imageHalf, if_pos (by decide), ← hbytes]
    rfl
  have hpages : 1 ≤ windowPages file := Nat.le_add_right _ _
  rw [loadModule, hread le_rfl (by omega), ok_bind, hread le_rfl (by omega), ok_bind, hphnum,
    ok_bind]
  have hcount := countPages_checked (i := 0) (n := file.phnum) hbytes (show 1 < 2 ^ 32 by decide)
    (by rw [zero_mul]; exact word_lt _ _)
  rw [zero_mul, add_zero] at hcount
  refine (hcount.bind fun pages hheaders hr => ?_).congr (and_congr_left' (by simp))
  rw [← segments_eq, ← windowPages, Nat.mod_eq_of_lt (windowPages_lt hvalid)] at hr
  subst hr
  rw [hread hpages (by omega), ok_bind]
  have hstart := progress_start ha
  rw [hfile] at hstart
  have hall : [] ++ segmentsFrom file 0 file.phnum = file.segments := (segments_eq file).symm
  have hrounds : file.phnum < 0x10000 := half_lt file 44
  have hwalk := walk_checked (hsize ▸ ha) hvalid hkept hpages
    (fun i hi => hheaders i (by omega) (by omega)) hall hstart (zero_add _) hrounds
    (by rw [← segments_eq]; simpa using hroom)
  rw [zero_mul, add_zero, ← segments_eq] at hwalk
  refine hwalk.map fun m' hout => ?_
  obtain ⟨taken, hprog⟩ := hout
  exact ⟨_, rfl, m', taken, rfl, hprog⟩

theorem layout_append_or (placed placed' : List (Nat × Source)) (v : Nat) :
    layout (placed ++ placed') v = (layout placed' v).or (layout placed v) := by
  induction placed' using reverseRecOn with
  | nil => simp [layout]
  | append_singleton placed' q ih =>
    rw [← append_assoc, layout_append, layout_append]
    by_cases heq : v = q.1
    · simp [heq]
    · simp [heq, ih]

theorem layout_run (b : Nat) (src : Nat → Source) (j n v : Nat) :
    layout ((range' j n).map fun j => (b + j, src j)) v =
      if b + j ≤ v ∧ v < b + j + n then some (src (v - b)) else none := by
  induction n with
  | zero =>
    rw [if_neg (by omega)]
    rfl
  | succ n ih =>
    rw [range'_1_concat, map_append, map_singleton, layout_append]
    by_cases heq : v = b + (j + n)
    · rw [heq, update_self, if_pos (by omega), Nat.add_sub_cancel_left]
    · rw [update_of_ne heq, ih]
      exact if_congr (by omega) rfl rfl

theorem layout_placements (hvalid : ValidModule file) (hp : p ∈ file.segments) (v : Nat) :
    layout (placements p) v =
      if ZeroPage p v then some .zero
      else if p.vaddr / 4096 ≤ v ∧ v < p.vaddr / 4096 + pagesOf p.filesz then
        some (.file (p.offset / 4096 + (v - p.vaddr / 4096)))
      else none := by
  have hcount := hvalid.zeroCount_eq hp
  rw [placements, layout_append_or, zeroPages, modulePages, layout_run, layout_run]
  by_cases hzero : ZeroPage p v
  · rw [if_pos hzero, if_pos]
    · rfl
    · rw [ZeroPage] at hzero
      omega
  · rw [if_neg hzero, if_neg, Option.none_or]
    · rfl
    · rw [ZeroPage] at hzero
      omega

theorem layout_after (hvalid : ValidModule file) {after : List Phdr}
    (hafter : ∀ q ∈ after, q ∈ file.segments ∧ ¬q.Occupies v) :
    layout (after.flatMap placements) v =
      if ∃ q ∈ after, ZeroPage q v then some .zero else none := by
  induction after with
  | nil => rfl
  | cons q after ih =>
    obtain ⟨hq, hfree⟩ := hafter q mem_cons_self
    have hfile : ¬(q.vaddr / 4096 ≤ v ∧ v < q.vaddr / 4096 + pagesOf q.filesz) := by
      rintro ⟨hle, hlt⟩
      apply hfree
      have hocc := hvalid.occupies_filePage hq
        (show v - q.vaddr / 4096 < pagesOf q.filesz by omega)
      rwa [Nat.add_sub_cancel' hle] at hocc
    rw [flatMap_cons, layout_append_or, ih fun q' hq' => hafter q' (mem_cons_of_mem _ hq'),
      layout_placements hvalid hq, if_neg hfile]
    by_cases hrest : ∃ q' ∈ after, ZeroPage q' v
    · simp [hrest]
    · by_cases hzero : ZeroPage q v
      · simp [hrest, hzero]
      · simp [hrest, hzero]

/-- Byte `x` of a segment is shown as the module has it: it is loaded from the file, and no zeroed
page and no clearing of a segment takes it away. -/
def Shown (segments after : List Phdr) (p : Phdr) (x : Nat) : Prop :=
  (p.vaddr % 4096 + x) / 4096 < pagesOf p.filesz ∧
    (∀ q ∈ after, ¬ZeroPage q ((p.vaddr + x) / 4096)) ∧ ∀ q ∈ segments, ¬Fills q (p.offset + x)

instance (segments after : List Phdr) (p : Phdr) (x : Nat) : Decidable (Shown segments after p x) :=
  inferInstanceAs (Decidable (_ ∧ _ ∧ _))

theorem layout_segment (hvalid : ValidModule file) {before after : List Phdr}
    (hsplit : file.segments = before ++ p :: after) (hx : x < p.memsz) :
    layout (file.segments.flatMap placements) ((p.vaddr + x) / 4096) =
      some (if (p.vaddr % 4096 + x) / 4096 < pagesOf p.filesz ∧
          ∀ q ∈ after, ¬ZeroPage q ((p.vaddr + x) / 4096) then
        .file (p.offset / 4096 + (p.vaddr % 4096 + x) / 4096) else .zero) := by
  have hp : p ∈ file.segments := by simp [hsplit]
  have hocc : p.Occupies ((p.vaddr + x) / 4096) := by
    rw [Phdr.Occupies]
    omega
  have hdisj := hvalid.disjoint
  rw [hsplit, pairwise_append, pairwise_cons] at hdisj
  have hafter : ∀ q ∈ after, q ∈ file.segments ∧ ¬q.Occupies ((p.vaddr + x) / 4096) := by
    intro q hq
    exact ⟨by simp [hsplit, hq], hdisj.2.1.1 q hq _ hocc⟩
  have hpage : (p.vaddr + x) / 4096 - p.vaddr / 4096 = (p.vaddr % 4096 + x) / 4096 := by omega
  rw [hsplit, flatMap_append, flatMap_cons, layout_append_or, layout_append_or,
    layout_after hvalid hafter, layout_placements hvalid hp]
  by_cases hlater : ∃ q ∈ after, ZeroPage q ((p.vaddr + x) / 4096)
  · obtain ⟨q, hq, hzero⟩ := hlater
    rw [if_pos ⟨q, hq, hzero⟩, Option.some_or, Option.some_or,
      if_neg fun hand => hand.2 q hq hzero]
  rw [if_neg hlater, Option.none_or]
  by_cases hfile : (p.vaddr % 4096 + x) / 4096 < pagesOf p.filesz
  · rw [if_neg, if_pos (by omega), if_pos ⟨hfile, fun q hq hzero => hlater ⟨q, hq, hzero⟩⟩, hpage]
    · rfl
    · rw [ZeroPage]
      omega
  · rw [if_pos, if_neg fun hand => hfile hand.1]
    · rfl
    · rw [ZeroPage, hvalid.memPages_eq hp]
      omega

theorem Progress.load8 (h : Progress m0 t image file (file.segments.flatMap placements)
      file.segments taken m) (ha : Apart m0 t image file.size) (hvalid : ValidModule file)
    {before after : List Phdr} (hsplit : file.segments = before ++ p :: after) (hx : x < p.memsz)
    (string : Nat → UInt8) :
    ({ mapStack t string m with pdFrame := t.dir } : Machine).load8 (p.vaddr + x) =
      .ok (if Shown file.segments after p x then file.bytes (p.offset + x) else 0) := by
  have hp : p ∈ file.segments := by simp [hsplit]
  have hend := (hvalid.end_le hp).resolve_left (by omega)
  have hlayout := layout_segment hvalid hsplit hx
  have hva : p.vaddr + x < 1023 * 4096 := by omega
  have hpage : (p.vaddr + x) / 4096 < 1023 := by omega
  have hbacks := h.shows _ (by omega) _ hlayout
  have hdir : entry (mapStack t string m).mem t.dir 0 = t.table * 4096 + 7 := by
    rw [entry_mapStack_dir ha, h.dir]
  have hload {f : Nat} (hentry : entry m.mem t.table ((p.vaddr + x) / 4096) = f * 4096 + 7) :
      ({ mapStack t string m with pdFrame := t.dir } : Machine).load8 (p.vaddr + x) =
        .ok ((mapStack t string m).mem (f * 4096 + (p.vaddr + x) % 4096)) := by
    have hentry' : entry (mapStack t string m).mem t.table ((p.vaddr + x) / 4096) =
        f * 4096 + 7 := by
      rw [entry_mapStack ha hpage, hentry]
    have haddr : ({ mapStack t string m with pdFrame := t.dir } : Machine).translate
        (p.vaddr + x) = .ok (f * 4096 + (p.vaddr + x) % 4096) :=
      translate_user hdir (by omega) hentry'
    rw [Machine.load8, haddr]
    rfl
  split at hbacks
  · rename_i hfile
    have halign := hvalid.aligned p hp
    have hin := hvalid.inside p hp
    have hbyte : (image + (p.offset / 4096 + (p.vaddr % 4096 + x) / 4096)) * 4096 +
        (p.vaddr + x) % 4096 = image * 4096 + (p.offset + x) := by omega
    have hsize : (p.offset + x) / 4096 * 4096 < file.size := by
      have hpages := hfile.1
      rw [hvalid.filePages_eq hp] at hpages
      omega
    have htable := ha.beside t.table (by simp)
    have hstack := ha.beside t.stack (by simp)
    rw [hload hbacks, hbyte, mapStack_off (by omega) (by omega), ← imageBytes, h.bytes _ hsize,
      cleared]
    by_cases hfills : ∃ q ∈ file.segments, Fills q (p.offset + x)
    · obtain ⟨q, hq, hfills⟩ := hfills
      rw [if_pos ⟨q, hq, hfills⟩, if_neg fun hshown => hshown.2.2 q hq hfills]
    · rw [if_neg hfills, if_pos ⟨hfile.1, hfile.2, fun q hq hfill => hfills ⟨q, hq, hfill⟩⟩]
  · rename_i hfile
    obtain ⟨f, hentry, hfree, -, hzero⟩ := hbacks
    have hframe : (f * 4096 + (p.vaddr + x) % 4096) / 4096 = f := by omega
    rw [hload hentry, mapStack_off, hzero _ (Nat.mod_lt _ (by decide)),
      if_neg fun hshown => hfile ⟨hshown.1, hshown.2.1⟩]
    · rw [hframe]
      rintro rfl
      exact ha.used t.table (by simp) hfree
    · rw [hframe]
      rintro rfl
      exact ha.used t.stack (by simp) hfree

theorem imageLoaded_iff_bytes (hvalid : ValidModule file) :
    ImageLoaded m file ↔ ∀ p ∈ file.segments, ∀ x < p.memsz,
      m.load8 (p.vaddr + x) = .ok (if x < p.filesz then file.bytes (p.offset + x) else 0) := by
  apply forall₂_congr
  intro p hp
  have hle := (hvalid.filesz_le hp).1
  constructor
  · rintro ⟨hdata, hbss⟩ x hx
    split
    · rename_i hlt
      exact hdata x hlt
    · rename_i hge
      exact hbss x (by omega) hx
  · intro hall
    refine ⟨fun x hlt => ?_, fun x hge hlt => ?_⟩
    · rw [hall x (by omega), if_pos hlt]
    · rw [hall x hlt, if_neg (by omega)]

theorem ite_eq_ite_iff {P Q : Prop} [Decidable P] [Decidable Q] (byte : UInt8) :
    (if P then byte else 0) = (if Q then byte else 0) ↔ byte = 0 ∨ (P ↔ Q) := by
  by_cases hP : P
  · by_cases hQ : Q
    · simp [hP, hQ]
    · simp [hP, hQ]
  · by_cases hQ : Q
    · simp [hP, hQ, eq_comm]
    · simp [hP, hQ]

/-- Each byte of the segment that is not zero in the module is shown exactly when it is data. -/
def InPlace (file : File) : Prop :=
  ∀ before p after, file.segments = before ++ p :: after → ∀ x < p.memsz,
    file.bytes (p.offset + x) = 0 ∨ (Shown file.segments after p x ↔ x < p.filesz)

theorem Progress.imageLoaded_iff (h : Progress m0 t image file (file.segments.flatMap placements)
      file.segments taken m) (ha : Apart m0 t image file.size) (hvalid : ValidModule file)
    (string : Nat → UInt8) :
    ImageLoaded { mapStack t string m with pdFrame := t.dir } file ↔ InPlace file := by
  rw [imageLoaded_iff_bytes hvalid]
  constructor
  · intro hall before p after hsplit x hx
    have hbyte := hall p (by simp [hsplit]) x hx
    rw [h.load8 ha hvalid hsplit hx string] at hbyte
    exact (ite_eq_ite_iff _).mp (Except.ok.inj hbyte)
  · intro hplace p hp x hx
    obtain ⟨before, after, hsplit⟩ := append_of_mem hp
    rw [h.load8 ha hvalid hsplit hx string,
      (ite_eq_ite_iff _).mpr (hplace before p after hsplit x hx)]

def booted (offset filesz : Nat) : Machine where
  frames := ⟨fun word => if word = 0 then 0xFF000000 else 0, 32, small_limit_le⟩
  mem a := ofWords (fun n =>
    if n = 7 then 52 else if n = 10 then 0x200000 else if n = 11 then 1 else if n = 13 then 1
    else if n = 14 then offset else if n = 15 then offset else if n = 17 then filesz
    else if n = 18 then filesz else if n = 1024 then 1 else 0) (a - 8 * 4096)
  pdFrame := 1
  kernFrame := 7

def bootTables : Tables := ⟨2, 3, 4, 5, 6⟩

theorem not_free_booted {offset filesz k : Nat} (h : k < 24) :
    ¬(booted offset filesz).frames.Free k := by
  intro hfree
  have hall : ∀ k < 24, ¬(booted 0 0).frames.Free k := by decide +kernel
  exact hall k h hfree

theorem booted_apart (offset filesz : Nat) (hsize : size ≤ 8192) :
    Apart (booted offset filesz) bootTables 8 size where
  kept k hk := not_free_booted (by omega)
  used f hf := not_free_booted (by simp [bootTables] at hf; omega)
  beside f hf := .inl (by simp [bootTables] at hf; omega)
  small f hf := by simp [bootTables] at hf; omega
  nodup := by decide
  inside := by omega

section OneSegment

variable {offset filesz : Nat}
  (hsegments : (moduleFile (booted offset filesz) 8 (offset + filesz)).segments =
    [⟨1, offset, offset, filesz, filesz⟩])
include hsegments

theorem booted_valid (hpos : 0 < offset + filesz) (hend : offset + filesz ≤ 8192) :
    ValidModule (moduleFile (booted offset filesz) 8 (offset + filesz)) := by
  refine ⟨hpos, ?_, ?_, ?_, ?_, ?_⟩
  · rw [hsegments]
    intro p hp
    obtain rfl := mem_singleton.mp hp
    exact le_refl (offset + filesz)
  · simp [hsegments]
  · simp [hsegments]
  · rw [hsegments]
    intro p hp v hv
    obtain rfl := mem_singleton.mp hp
    rw [Phdr.Occupies] at hv
    dsimp only at hv
    omega
  · rw [hsegments]
    exact pairwise_singleton _ _

theorem booted_kept :
    HeadersKept (moduleFile (booted offset filesz) 8 (offset + filesz)) := by
  rw [HeadersKept, hsegments]
  intro p hp o hfills
  obtain rfl := mem_singleton.mp hp
  simp only [Fills, fill] at hfills
  omega

theorem booted_fits (hend : offset + filesz ≤ 8192) (pages : Nat) :
    ∀ p ∈ (moduleFile (booted offset filesz) 8 (offset + filesz)).segments, Fits pages p := by
  rw [hsegments]
  intro p hp
  obtain rfl := mem_singleton.mp hp
  refine ⟨.inl ?_, fun v hv => ?_⟩
  · rw [fill]
    dsimp only
    omega
  · rw [ZeroPage, pagesOf_eq (by dsimp only; omega)] at hv
    dsimp only at hv
    omega

end OneSegment

end Quest.Boot.LoadModule
