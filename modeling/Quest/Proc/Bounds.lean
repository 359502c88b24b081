import Quest.Proc.Reading

/-! Which files keep every access of `_exec` in its buffers. -/
namespace Quest.Proc

open Quest.Lib Memory Quest.Mem Machine

/-- Every access is in bounds when `fits`: then `inv` holds or, where it `mayPanic`, the code
panics.  Otherwise one access is not. -/
structure Checked {α : Type} (mayPanic : Prop) (x : Except Fault α) (fits : Prop)
    (inv : α → Prop) : Prop where
  inside : fits → (∃ a, x = .ok a ∧ inv a) ∨ (mayPanic ∧ ∃ msg, x = .error (.panic msg))
  outside : ¬fits → x = .error .outOfBounds

namespace Checked

variable {α β : Type} {x : Except Fault α} {f : α → Except Fault β} {mayPanic P Q : Prop}
  {inv : α → Prop} {inv' : β → Prop}

theorem ok {a : α} (hP : P) (ha : inv a) : Checked mayPanic (.ok a) P inv :=
  ⟨fun _ => .inl ⟨a, rfl, ha⟩, fun hnot => absurd hP hnot⟩

theorem returns (h : Checked False x P inv) (hP : P) : ∃ a, x = .ok a ∧ inv a := by
  obtain hret | ⟨hpanic, _⟩ := h.inside hP
  · exact hret
  · exact hpanic.elim

theorem bind (h : Checked False x P inv) (hf : ∀ a, P → inv a → Checked mayPanic (f a) Q inv') :
    Checked mayPanic (x >>= f) (P ∧ Q) inv' := by
  constructor
  · rintro ⟨hP, hQ⟩
    obtain ⟨a, rfl, ha⟩ := h.returns hP
    exact (hf a hP ha).inside hQ
  · intro hnot
    by_cases hP : P
    · obtain ⟨a, rfl, ha⟩ := h.returns hP
      exact (hf a hP ha).outside fun hQ => hnot ⟨hP, hQ⟩
    · rw [h.outside hP]
      rfl

theorem congr (h : Checked mayPanic x P inv) (hiff : P ↔ Q) : Checked mayPanic x Q inv :=
  ⟨fun hQ => h.inside (hiff.mpr hQ), fun hQ => h.outside fun hP => hQ (hiff.mp hP)⟩

theorem imp {weaker : α → Prop} (h : Checked mayPanic x P inv) (himp : ∀ a, inv a → weaker a) :
    Checked mayPanic x P weaker :=
  ⟨fun hP => (h.inside hP).imp_left fun ⟨a, hx, ha⟩ => ⟨a, hx, himp a ha⟩, h.outside⟩

theorem of_eq_ite {a : α} [Decidable P] (h : x = if P then .ok a else .error .outOfBounds)
    (ha : P → inv a) : Checked mayPanic x P inv := by
  constructor
  · intro hP
    exact .inl ⟨a, by rw [h, if_pos hP], ha hP⟩
  · intro hP
    rw [h, if_neg hP]

theorem map (h : Checked mayPanic x P inv) (hf : ∀ a, inv a → ∃ b, f a = .ok b ∧ inv' b) :
    Checked mayPanic (x >>= f) P inv' := by
  constructor
  · intro hP
    obtain ⟨a, rfl, ha⟩ | ⟨hpanic, msg, rfl⟩ := h.inside hP
    · exact .inl (hf a ha)
    · exact .inr ⟨hpanic, msg, rfl⟩
  · intro hP
    rw [h.outside hP]
    rfl

end Checked

structure Safe (file : File) (w : Windows) (F : Nat → Nat) (m : Machine) : Prop where
  size : w.size = file.size
  view : FileView m file w.framePtr F
  shown : ∀ f, Shown m.pdFrame file w.framePtr F f → ¬m.frames.Free f ∧ f ≠ 0xFFFFF
  table : ¬Shown m.pdFrame file w.framePtr F w.table

variable {m m' : Machine} {file : File} {w : Windows} {F : Nat → Nat} {l : Loader} {p : Phdr}
  {j n x off count frame pph : Nat} {bytes : Nat → UInt8}

theorem frameOf_shiftLeft (k : Nat) : frameOf (k <<< 12) = k := by
  rw [frameOf, or_three]
  omega

namespace Safe

variable (h : Safe file w F m)
include h

theorem write (hx : ¬Shown m.pdFrame file w.framePtr F x)
    (hoff : off + count ≤ 4096) : Safe file w F (m.write (x * 4096 + off) bytes count) :=
  { h with view := h.view.write hx hoff }

theorem writePage (hx : ¬Shown m.pdFrame file w.framePtr F x) :
    Safe file w F (m.writePage x bytes) := by
  have hsafe : Safe file w F (m.write (x * 4096 + 0) bytes 4096) := h.write hx (by omega)
  rwa [add_zero] at hsafe

theorem setTable (hj : j < 1024) (value : Nat) :
    Safe file w F (m.writeWord (w.table * 4096 + 4 * j) value) := h.write h.table (by omega)

theorem alloc : ∃ frame m', m.allocPhysFrame = .ok (frame, m') ∧
    Safe file w F m' ∧ ¬Shown m'.pdFrame file w.framePtr F (frameOf frame) := by
  obtain ⟨k, _, hfree, _, hret⟩ | ⟨_, hret⟩ := m.frames.allocPhysFrame_spec
  · refine ⟨k <<< 12, m.setFrames (m.frames.clr k 1), ?_, ⟨h.size, ?_, ?_, h.table⟩, ?_⟩
    · rw [allocPhysFrame, hret]
      rfl
    · exact { h.view with }
    · intro f hf
      exact ⟨fun hfree' => (h.shown f hf).1 (Frames.free_clr.mp hfree').1, (h.shown f hf).2⟩
    · rw [frameOf_shiftLeft]
      exact fun hshown => (h.shown k hshown).1 hfree
  · refine ⟨noFrame, m, ?_, h, fun hshown => (h.shown _ hshown).2 (by decide)⟩
    rw [allocPhysFrame, hret]
    rfl

theorem fileWord (va : Nat) :
    Checked False (fileWord m w.size va) (InFile file.size va 4) (· = word file.bytes (va - pe)) := by
  rw [h.size]
  exact .of_eq_ite h.view.fileWord fun _ => rfl

theorem fileHalf (va : Nat) :
    Checked False (fileHalf m w.size va) (InFile file.size va 2) (· = file.half (va - pe)) := by
  rw [h.size]
  exact .of_eq_ite h.view.fileHalf fun _ => rfl

end Safe

def PageFits (size : Nat) (p : Phdr) (j : Nat) : Prop :=
  (if j + 1 = p.fileCount then p.rest = 0 ∨ (p.offset / 4096 + j) * 4096 + p.rest ≤ size
    else j + p.offset / 4096 < 1024) ∧ p.vaddr / 4096 + j < 1024

theorem mapPage_checked (h : Safe file w F l.machine) (hoff : p.offset < 2 ^ 32)
    (hprev : 0 < j → j - 1 + p.offset / 4096 < 1024) :
    Checked False (mapPage w p.offset p.vaddr p.filesz p.fileCount j l) (PageFits file.size p j)
      fun l' => Safe file w F l'.machine := by
  rw [mapPage, PageFits]
  split
  · obtain ⟨frame, m, halloc, hsafe, hx⟩ := h.alloc
    have heq : mapLastPage w p.offset p.vaddr p.filesz j l = _ :=
      mapLastPage_eq h.size halloc hsafe.view hx (by omega)
    exact .of_eq_ite heq fun hfits => (hsafe.writePage hx).setTable hfits.2 _
  · exact .of_eq_ite mapFilePage_eq fun hfits => h.setTable hfits.2 _

theorem forall_from_succ {P : Nat → Prop} {c : Nat} (hj : j < c) :
    P j ∧ (∀ i, j + 1 ≤ i → i < c → P i) ↔ ∀ i, j ≤ i → i < c → P i := by
  constructor
  · rintro ⟨hfirst, hrest⟩ i hle hlt
    obtain rfl | hne := eq_or_ne j i
    · exact hfirst
    · exact hrest i (by omega) hlt
  · intro h
    exact ⟨h j le_rfl hj, fun i hle hlt => h i (by omega) hlt⟩

theorem mapPages_checked (h : Safe file w F l.machine) (hoff : p.offset < 2 ^ 32)
    (hcount : j + n = p.fileCount) (hprev : 0 < n → 0 < j → j - 1 + p.offset / 4096 < 1024) :
    Checked False (mapPages w p.offset p.vaddr p.filesz p.fileCount n j l)
      (∀ i, j ≤ i → i < p.fileCount → PageFits file.size p i)
      fun l' => Safe file w F l'.machine := by
  induction n generalizing j l with
  | zero =>
    rw [mapPages]
    refine .ok (fun i hle hlt => ?_) h
    omega
  | succ n ih =>
    rw [mapPages]
    refine ((mapPage_checked h hoff (hprev (by omega))).bind fun l' hfits hsafe =>
      ih hsafe (by omega) fun hn _ => ?_).congr (forall_from_succ (by omega))
    rw [PageFits, if_neg (by omega)] at hfits
    omega

theorem mapZeroPages_checked (h : Safe file w F l.machine) {vaddr : Nat} :
    Checked False (mapZeroPages w vaddr n j l) (∀ i, j ≤ i → i < j + n → vaddr / 4096 + i < 1024)
      fun l' => Safe file w F l'.machine := by
  induction n generalizing j l with
  | zero =>
    rw [mapZeroPages]
    refine .ok (fun i hle hlt => ?_) h
    omega
  | succ n ih =>
    have hround : Checked False (mapZeroPage w vaddr j l) (vaddr / 4096 + j < 1024)
        fun l' => Safe file w F l'.machine := by
      obtain ⟨frame, m, halloc, hsafe, hx⟩ := h.alloc
      exact .of_eq_ite (mapZeroPage_eq halloc) fun hfits => (hsafe.setTable hfits _).writePage hx
    rw [mapZeroPages]
    refine (hround.bind fun l' _ hsafe => ih hsafe).congr ?_
    rw [show j + 1 + n = j + (n + 1) by omega]
    exact forall_from_succ (P := fun i => vaddr / 4096 + i < 1024) (by omega)

theorem fits_iff {size : Nat} : p.Fits size ↔
    (∀ i, 0 ≤ i → i < p.fileCount → PageFits size p i) ∧
      ∀ i, p.fileCount ≤ i → i < p.fileCount + (p.memCount - p.fileCount) →
        p.vaddr / 4096 + i < 1024 := by
  rw [Phdr.Fits]
  constructor
  · rintro ⟨hfile, hzero⟩
    refine ⟨fun i _ hi => ?_, fun i hle hlt => ?_⟩
    · obtain ⟨htable, hwindow, hlast⟩ := hfile (by omega)
      rw [PageFits]
      split
      · rename_i heq
        rw [show i = p.fileCount - 1 by omega]
        exact ⟨hlast, by omega⟩
      · exact ⟨by omega, by omega⟩
    · have := hzero (by omega)
      omega
  · rintro ⟨hfile, hzero⟩
    refine ⟨fun hne => ?_, fun hlt => ?_⟩
    · have hlast := hfile (p.fileCount - 1) (by omega) (by omega)
      rw [PageFits, if_pos (by omega)] at hlast
      refine ⟨by omega, fun htwo => ?_, hlast.1⟩
      have hbefore := hfile (p.fileCount - 2) (by omega) (by omega)
      rw [PageFits, if_neg (by omega)] at hbefore
      omega
    · have := hzero (p.memCount - 1) (by omega) (by omega)
      omega

theorem phdr_offset_lt (a : Nat) : (file.phdr a).offset < 2 ^ 32 := word_lt _ _

theorem inFile_split {size va : Nat} : InFile size va 4 ∧ InFile size (va + 4) 4 ↔ InFile size va 8 := by
  simp only [InFile]
  omega

theorem loadSegment_checked (h : Safe file w F l.machine) (hpph : pe ≤ pph)
    (halign : (file.phdr (pph - pe)).offset % 4096 = (file.phdr (pph - pe)).vaddr % 4096) :
    Checked False (loadSegment w pph l) (InFile file.size (pph + 4) 8 ∧
      InFile file.size (pph + 16) 8 ∧ (file.phdr (pph - pe)).Fits file.size)
      fun l' => Safe file w F l'.machine := by
  obtain ⟨p, hp⟩ : ∃ p, p = file.phdr (pph - pe) := ⟨_, rfl⟩
  have hoff : word file.bytes (pph + 4 - pe) = p.offset := by
    rw [hp, Nat.sub_add_comm hpph]
    rfl
  have hvaddr : word file.bytes (pph + 8 - pe) = p.vaddr := by
    rw [hp, Nat.sub_add_comm hpph]
    rfl
  have hfilesz : word file.bytes (pph + 16 - pe) = p.filesz := by
    rw [hp, Nat.sub_add_comm hpph]
    rfl
  have hmemsz : word file.bytes (pph + 20 - pe) = p.memsz := by
    rw [hp, Nat.sub_add_comm hpph]
    rfl
  have hlt : p.offset < 2 ^ 32 := hp ▸ phdr_offset_lt _
  rw [← hp] at halign ⊢
  have hiff : InFile file.size (pph + 4) 4 ∧ InFile file.size (pph + 8) 4 ∧
      InFile file.size (pph + 16) 4 ∧ (∀ i, 0 ≤ i → i < p.fileCount → PageFits file.size p i) ∧
      InFile file.size (pph + 20) 4 ∧ (∀ i, p.fileCount ≤ i →
        i < p.fileCount + (p.memCount - p.fileCount) → p.vaddr / 4096 + i < 1024) ↔
      InFile file.size (pph + 4) 8 ∧ InFile file.size (pph + 16) 8 ∧ p.Fits file.size := by
    rw [fits_iff, ← inFile_split, ← inFile_split]
    tauto
  refine Checked.congr ?_ hiff
  refine (h.fileWord (pph + 4)).bind fun offset _ ho =>
    (h.fileWord (pph + 8)).bind fun vaddr _ hv => ?_
  rw [ho, hv, hoff, hvaddr, if_neg (not_not_intro halign)]
  refine (h.fileWord (pph + 16)).bind fun filesz _ hf => ?_
  rw [hf, hfilesz]
  refine (mapPages_checked h hlt (zero_add _) fun _ h0 => absurd h0 (lt_irrefl 0)).bind
    fun l' _ hsafe => (hsafe.fileWord (pph + 20)).bind fun memsz _ hm => ?_
  rw [hm, hmemsz]
  exact mapZeroPages_checked hsafe

def Misaligned (file : File) (pph : Nat) : Prop :=
  (file.phdr (pph - pe)).type = ptLoad ∧
    (file.phdr (pph - pe)).offset % 4096 ≠ (file.phdr (pph - pe)).vaddr % 4096

theorem loadHeader_checked (h : Safe file w F l.machine) (halign : ¬Misaligned file pph) :
    Checked False (loadHeader w pph l) (InFile file.size pph 4 ∧
      ((file.phdr (pph - pe)).type = ptLoad → InFile file.size (pph + 4) 8 ∧
        InFile file.size (pph + 16) 8 ∧ (file.phdr (pph - pe)).Fits file.size))
      fun l' => Safe file w F l'.machine := by
  rw [loadHeader]
  refine (h.fileWord pph).bind fun type hin ht => ?_
  rw [ht, show word file.bytes (pph - pe) = (file.phdr (pph - pe)).type from rfl]
  split
  · rename_i htype
    refine (loadSegment_checked h hin.1 ?_).congr (by rw [forall_prop_of_true htype])
    by_contra hne
    exact halign ⟨htype, hne⟩
  · rename_i htype
    exact .ok (fun htype' => absurd htype' htype) h

theorem loadHeader_misaligned (h : Safe file w F l.machine) (halign : Misaligned file pph) :
    Checked True (loadHeader w pph l) (InFile file.size pph 4 ∧ InFile file.size (pph + 4) 8)
      fun _ => False := by
  obtain ⟨htype, hne⟩ := halign
  rw [loadHeader]
  refine (h.fileWord pph).bind fun type hin ht => ?_
  rw [ht, show word file.bytes (pph - pe) = (file.phdr (pph - pe)).type from rfl, if_pos htype,
    loadSegment]
  refine Checked.congr ?_ inFile_split
  refine (h.fileWord (pph + 4)).bind fun offset _ ho => ?_
  refine Checked.congr (P := _ ∧ True) ?_ (iff_of_eq (and_true _))
  refine (h.fileWord (pph + 8)).bind fun vaddr _ hv => ?_
  rw [Nat.sub_add_comm hin.1] at ho hv
  rw [ho, hv]
  exact ⟨fun _ => .inr ⟨trivial, _, if_pos hne⟩, fun hnot => absurd trivial hnot⟩

theorem headersFit_misaligned (halign : Misaligned file pph) :
    file.HeadersFit (n + 1) pph ↔ InFile file.size pph 4 ∧ InFile file.size (pph + 4) 8 := by
  rw [File.HeadersFit]
  obtain ⟨htype, hne⟩ := halign
  simp only [htype, hne, ne_eq, not_true_eq_false, false_imp_iff, forall_const, and_true,
    not_false_eq_true]

theorem headersFit_aligned (halign : ¬Misaligned file pph) :
    file.HeadersFit (n + 1) pph ↔ (InFile file.size pph 4 ∧
      ((file.phdr (pph - pe)).type = ptLoad → InFile file.size (pph + 4) 8 ∧
        InFile file.size (pph + 16) 8 ∧ (file.phdr (pph - pe)).Fits file.size)) ∧
      file.HeadersFit n ((pph + file.phentsize) % 2 ^ 32) := by
  rw [File.HeadersFit]
  rw [Misaligned] at halign
  tauto

theorem walk_checked (h : Safe file w F l.machine) (hsize : 46 ≤ file.size) :
    Checked True (walk w n pph l) (file.HeadersFit n pph) fun l' => Safe file w F l'.machine := by
  induction n generalizing pph l with
  | zero => exact .ok trivial h
  | succ n ih =>
    rw [walk]
    by_cases halign : Misaligned file pph
    · rw [headersFit_misaligned halign]
      have hload := loadHeader_misaligned h halign
      constructor
      · intro hfits
        obtain ⟨_, _, hfalse⟩ | ⟨_, msg, hret⟩ := hload.inside hfits
        · exact hfalse.elim
        · refine .inr ⟨trivial, msg, ?_⟩
          rw [hret]
          rfl
      · intro hnot
        rw [hload.outside hnot]
        rfl
    · rw [headersFit_aligned halign]
      refine (loadHeader_checked h halign).bind fun l' _ hsafe => ?_
      refine Checked.congr (P := InFile file.size (pe + 42) 2 ∧ _) ?_
        (and_iff_right ⟨by omega, by omega⟩)
      refine (hsafe.fileHalf (pe + 42)).bind fun phentsize _ hp => ?_
      rw [hp]
      exact ih hsafe

theorem loadImage_checked (h : Safe file w F m) :
    Checked True (loadImage w m)
      (46 ≤ file.size ∧ file.HeadersFit file.phnum ((pe + file.phoff) % 2 ^ 32))
      fun r => Safe file w F r.2.machine := by
  have hiff : InFile file.size (pe + 28) 4 ∧ InFile file.size (pe + 24) 4 ∧
      InFile file.size (pe + 44) 2 ∧ file.HeadersFit file.phnum ((pe + file.phoff) % 2 ^ 32) ↔
      46 ≤ file.size ∧ file.HeadersFit file.phnum ((pe + file.phoff) % 2 ^ 32) := by
    rw [InFile, InFile, InFile]
    constructor
    · rintro ⟨_, _, hin, hheaders⟩
      exact ⟨by omega, hheaders⟩
    · rintro ⟨hsize, hheaders⟩
      exact ⟨by omega, by omega, by omega, hheaders⟩
  rw [loadImage]
  refine Checked.congr ?_ hiff
  refine (h.fileWord (pe + 28)).bind fun phoff _ hoff =>
    (h.fileWord (pe + 24)).bind fun entryPoint _ _ =>
    (h.fileHalf (pe + 44)).bind fun phnum hin hnum => ?_
  rw [hoff, hnum, Nat.add_sub_cancel_left, Nat.add_sub_cancel_left]
  obtain ⟨_, hle⟩ := hin
  refine Checked.map (walk_checked ?_ (by omega)) fun l hsafe => ⟨_, rfl, hsafe⟩
  exact h

/-! The rest of `_exec` does not depend on the file. -/

theorem bind_inside {α β : Type} {x : Except Fault α} {f : α → Except Fault β}
    (hx : x ≠ .error .outOfBounds) (hf : ∀ a, f a ≠ .error .outOfBounds) :
    (x >>= f) ≠ .error .outOfBounds := by
  cases x with
  | ok a => exact hf a
  | error fault =>
    change (Except.error fault : Except Fault β) ≠ .error .outOfBounds
    simpa using hx

theorem translate_inside (m : Machine) (va : Nat) : m.translate va ≠ .error .outOfBounds := by
  rw [Machine.translate]
  dsimp only [pageOf]
  split_ifs <;> simp

theorem storeBytes_inside (m : Machine) (va : Nat) (bytes : Nat → UInt8) (count : Nat) :
    m.storeBytes va bytes count ≠ .error .outOfBounds := by
  induction count with
  | zero => simp [Machine.storeBytes]
  | succ count ih =>
    refine bind_inside ih fun m => ?_
    have htranslate := translate_inside m (va + count)
    rw [store8]
    cases h : m.translate (va + count) with
    | ok a => simp
    | error fault => simpa [h] using htranslate

theorem pushArguments_inside (m : Machine) (args : Nat → UInt8) :
    pushArguments m args ≠ .error .outOfBounds := by
  refine bind_inside (storeBytes_inside m _ _ _) fun m => ?_
  refine bind_inside (storeBytes_inside m _ _ _) fun m => ?_
  refine bind_inside (storeBytes_inside m _ _ _) fun m => ?_
  refine bind_inside (storeBytes_inside m _ _ _) fun m => ?_
  refine bind_inside (storeBytes_inside m _ _ _) fun m => ?_
  exact storeBytes_inside m _ _ _

theorem mapStack_inside (table : Nat) (m : Machine) (i : Nat) :
    mapStack table n i m ≠ .error .outOfBounds := by
  induction n generalizing m i with
  | zero => simp [mapStack]
  | succ n ih =>
    refine bind_inside ?_ fun r => ih _ _
    obtain ⟨frame, m', halloc⟩ := allocPhysFrame_returns m
    rw [halloc]
    simp

theorem freeUnused_inside {frameMap : Nat → Bool} {i : Nat} (hbound : i + n ≤ 1024) :
    freeUnused w frameMap n i m ≠ .error .outOfBounds := by
  induction n generalizing m i with
  | zero => simp [freeUnused]
  | succ n ih =>
    rw [freeUnused, getEntry, if_pos (by omega), ok_bind]
    exact ih (by omega)

theorem finish_inside {physAddr : Nat} {args : Nat → UInt8} (hsize : file.size ≤ 2 ^ 22) :
    finish w file physAddr args l ≠ .error .outOfBounds := by
  have hpages := pages_le hsize
  refine bind_inside (freeUnused_inside (by omega)) fun m => ?_
  refine bind_inside (mapStack_inside _ _ _) fun m => ?_
  exact bind_inside (storeBytes_inside m _ _ _) fun m => pushArguments_inside _ _

theorem ImageRead.safe (h : ImageRead m m' file w F) (hready : Ready m)
    (hfp : w.framePtr < m.frames.mmLimit) : Safe file w F m' := by
  have hlimit := hready.limit
  have hused : ∀ f, ¬(dropSpace m).frames.Free f → ¬m'.frames.Free f := fun f hf hfree =>
    hf ((h.took.free_iff f).mp hfree).1
  refine ⟨h.size, h.view, fun f hf => ?_, ?_⟩
  · rw [h.pdFrame] at hf
    obtain rfl | rfl | ⟨i, hi, rfl⟩ := hf
    · have hbelow := hready.below
      exact ⟨hused _ h.dirUsed, by omega⟩
    · exact ⟨hused _ h.ptrUsed, by omega⟩
    · have hmem := List.mem_cons_of_mem w.table (mem_pages hi : F i ∈ _)
      have hbelow := (h.took.free _ hmem).2
      rw [hready.dropSpace.limit] at hbelow
      exact ⟨fun hfree => ((h.took.free_iff _).mp hfree).2 hmem, by omega⟩
  · rw [h.pdFrame]
    rintro (heq | heq | ⟨i, hi, heq⟩)
    · exact h.table_ne_dir heq
    · exact h.table_ne_ptr heq
    · exact h.page_ne_table hi heq.symm

theorem replaceSpace_outside {physAddr : Nat} {args : Nat → UInt8} (hsize : 2 ^ 22 < file.size) :
    replaceSpace m file physAddr args = .error .outOfBounds := by
  obtain ⟨frame, m1, halloc⟩ := allocPhysFrame_returns (dropSpace m)
  have hpages : 1024 < 0 + file.pages := by
    rw [File.pages]
    omega
  rw [replaceSpace, readImage, prepare, halloc, ok_bind]
  dsimp only
  rw [allocPages_outside hpages (by omega)]
  rfl

theorem replaceSpace_inside_iff {fp : Nat} {args : Nat → UInt8} (hready : Ready m)
    (hused : ¬(dropSpace m).frames.Free fp) (hdir : fp ≠ m.pdFrame) (hfp : fp < m.frames.mmLimit)
    (havail : min file.pages 1024 + 1 ≤ (dropSpace m).frames.available)
    (hread : file.read ≤ file.dir) :
    replaceSpace m file (fp * 4096 + 3) args ≠ .error .outOfBounds ↔ file.Fits := by
  have hlimit := hready.limit
  by_cases hsize : file.size ≤ 2 ^ 22
  · have hpages := pages_le hsize
    rw [min_eq_left hpages] at havail
    have himage := readImage_spec hready hused hdir (by omega) hsize havail hread
    split at himage
    · rename_i heq
      obtain ⟨w, F, m', hret, hw, h⟩ := himage
      have hload := loadImage_checked (h.safe hready (hw ▸ hfp))
      rw [replaceSpace, hret, ok_bind]
      dsimp only
      constructor
      · intro hin
        refine ⟨hsize, fun _ => ?_⟩
        by_contra hnot
        rw [hload.outside hnot] at hin
        exact hin rfl
      · rintro ⟨_, hfits⟩
        obtain ⟨r, hret', _⟩ | ⟨_, msg, hpanic⟩ := hload.inside (hfits heq)
        · rw [hret', ok_bind]
          exact bind_inside (finish_inside hsize) fun m => by simp
        · rw [hpanic]
          exact fun hfault => nomatch hfault
    · rename_i hne
      obtain ⟨msg, hret⟩ := himage
      rw [replaceSpace, hret]
      exact iff_of_true (fun hfault => nomatch hfault) ⟨hsize, fun heq => absurd heq hne⟩
  · rw [replaceSpace_outside (by omega)]
    exact iff_of_false (fun hin => hin rfl) fun hfits => hsize hfits.1

theorem exec_some_inside_iff {arg stale : Nat → UInt8} (hready : Ready m)
    (hframe : 0 < m.frames.available)
    (havail : min file.pages 1024 + 2 ≤ (dropSpace m).frames.available)
    (hread : file.read ≤ file.dir) (hdir : ¬file.dir < 0) :
    exec m file (some arg) stale ≠ .error .outOfBounds ↔ file.Fits := by
  obtain ⟨fp, hfree, hlt, halloc⟩ := allocPhysFrame_available hframe
  have htook := hready.took_dropSpace hfree hlt
  have hcount := htook.available
  rw [List.length_singleton] at hcount
  rw [exec, halloc, ok_bind]
  dsimp only
  rw [or_three, if_neg hdir, replaceSpace_inside_iff hready.takeFrame _ _ hlt (by omega) hread]
  · intro hfree'
    exact ((htook.free_iff fp).mp hfree').2 (List.mem_singleton_self fp)
  · intro heq
    exact hready.dir (heq ▸ hfree)

/-- The accesses of `_exec` stay in bounds for exactly the files that fit. -/
theorem exec_inside_iff (m : Machine) (file : File) (argv : Option (Nat → UInt8))
    (stale : Nat → UInt8) (hready : Ready m) (hframe : 0 < m.frames.available)
    (havail : min file.pages 1024 + 2 ≤ (dropSpace m).frames.available)
    (hread : file.read ≤ file.dir) :
    exec m file argv stale ≠ .error .outOfBounds ↔ argv = none ∨ file.dir < 0 ∨ file.Fits := by
  by_cases hdir : file.dir < 0 ∧ argv ≠ none
  · obtain ⟨frame, m', halloc⟩ := allocPhysFrame_returns m
    obtain ⟨arg, rfl⟩ := Option.ne_none_iff_exists'.mp hdir.2
    rw [exec, halloc, ok_bind]
    dsimp only
    rw [if_pos hdir.1]
    exact iff_of_true (fun hfault => nomatch hfault) (.inr (.inl hdir.1))
  · cases argv with
    | none =>
      obtain ⟨frame, m', halloc⟩ := allocPhysFrame_returns m
      rw [exec, halloc]
      exact iff_of_true (fun hfault => nomatch hfault) (.inl rfl)
    | some arg =>
      have hdir' : ¬file.dir < 0 := fun hlt => hdir ⟨hlt, nofun⟩
      rw [exec_some_inside_iff hready hframe havail hread hdir', or_iff_right nofun,
        or_iff_right hdir']

def bare : Machine where
  frames := ⟨fun word => if word = 0 then 0xFFFFFFF8 else 0, 32, small_limit_le⟩
  mem := fun _ => 0
  pdFrame := 2
  kernFrame := 1

theorem entry_bare (f i : Nat) : entry bare.mem f i = 0 := word_zero fun _ _ => rfl

theorem bare_ready : Ready bare := by
  refine ⟨by decide, by decide, by decide, ⟨?_, ?_⟩, ?_⟩
  · intro i _ _ hne
    exact absurd (entry_bare _ i) hne
  · intro i _ _ _ _ _ hne
    exact absurd (entry_bare _ i) hne
  · intro i _ k hdrop
    exact absurd (entry_bare _ i) hdrop.1

theorem available_dropSpace_bare : (dropSpace bare).frames.available = 29 := by
  have hbare : bare.frames.available = 29 := by decide +kernel
  apply Frames.available_congr bare_ready.dropSpace.limit
  intro k
  rw [bare_ready.free, or_iff_left]
  rintro ⟨i, _, hdrop⟩
  exact hdrop.1 (entry_bare _ i)

def hostile : File :=
  ⟨84, 84, ofWords fun n =>
    if n = 7 then 52 else if n = 10 then 0x200000 else if n = 11 then 1 else if n = 13 then 1
    else if n = 15 then 0x400000 else if n = 17 then 84 else if n = 18 then 84 else 0⟩

theorem exec_inside_iff_hostile :
    exec bare hostile (some fun _ => 0) (fun _ => 0) ≠ .error .outOfBounds ↔
      (some fun _ => 0 : Option (Nat → UInt8)) = none ∨ hostile.dir < 0 ∨ hostile.Fits :=
  exec_inside_iff bare hostile (some fun _ => 0) (fun _ => 0) bare_ready (by decide +kernel)
    (by rw [available_dropSpace_bare]; decide) (by decide)

theorem exec_writes_behind_table :
    exec bare hostile (some fun _ => 0) (fun _ => 0) = .error .outOfBounds := by
  by_contra hinside
  have hfits : hostile.Fits := (exec_some_inside_iff bare_ready (by decide +kernel)
    (by rw [available_dropSpace_bare]; decide) (by decide) (by decide)).mp hinside
  exact absurd hfits (by decide +kernel)

end Quest.Proc
