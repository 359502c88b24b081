import Quest.Proc.Image

/-! The file image as the loader sees it, and the single steps of the loader. -/
namespace Quest.Proc

open Quest.Lib Memory Quest.Mem Machine

structure FileView (m : Machine) (file : File) (framePtr : Nat) (F : Nat → Nat) : Prop where
  small : file.size ≤ 2 ^ 22
  dir : entry m.mem m.pdFrame 1021 = framePtr * 4096 + 3
  ptr : ∀ i < file.pages, entry m.mem framePtr i = F i * 4096 + 3
  bytes : ∀ k < file.size, m.mem (F (k / 4096) * 4096 + k % 4096) = file.bytes k

theorem machine_ext {m m' : Machine} (hframes : m'.frames = m.frames) (hpd : m'.pdFrame = m.pdFrame)
    (hkern : m'.kernFrame = m.kernFrame) (hmem : ∀ a, m'.mem a = m.mem a) : m' = m := by
  obtain ⟨frames, mem, pdFrame, kernFrame⟩ := m
  obtain ⟨frames', mem', pdFrame', kernFrame'⟩ := m'
  cases hframes
  cases hpd
  cases hkern
  cases (funext hmem : mem' = mem)
  rfl

theorem write_mem {m : Machine} {a count : Nat} {bytes : Nat → UInt8} :
    (m.write a bytes count).mem = blit m.mem a bytes count := rfl

def Shown (pd : Nat) (file : File) (framePtr : Nat) (F : Nat → Nat) (f : Nat) : Prop :=
  f = pd ∨ f = framePtr ∨ ∃ i < file.pages, f = F i

variable {m m' : Machine} {file : File} {w : Windows} {F : Nat → Nat} {l l' : Loader}
  {framePtr a k x va count frame : Nat}

theorem lt_pages (h : k < file.size) : k / 4096 < file.pages := by
  rw [File.pages]
  omega

section

variable (h : FileView m file framePtr F)
include h

theorem FileView.congr (hpd : m'.pdFrame = m.pdFrame)
    (hmem : ∀ a, Shown m.pdFrame file framePtr F (a / 4096) → m'.mem a = m.mem a) :
    FileView m' file framePtr F := by
  have hsmall := h.small
  refine ⟨h.small, ?_, ?_, ?_⟩
  · rw [hpd, ← h.dir]
    exact entry_congr (fun a ha => hmem a (.inl ha)) (by omega)
  · intro i hi
    have hi' : i < 1024 := by
      rw [File.pages] at hi
      omega
    rw [← h.ptr i hi]
    exact entry_congr (fun a ha => hmem a (.inr (.inl ha))) hi'
  · intro k hk
    rw [← h.bytes k hk]
    apply hmem
    refine .inr (.inr ⟨k / 4096, lt_pages hk, ?_⟩)
    omega

theorem FileView.translate (hk : k < file.size) :
    m.translate (pe + k) = .ok (F (k / 4096) * 4096 + k % 4096) := by
  have hsmall := h.small
  have hptr := h.ptr (k / 4096) (lt_pages hk)
  have hva : (pe + k) % 2 ^ 32 = pe + k := by
    rw [pe]
    omega
  have hdir : (pe + k) / 2 ^ 22 = 1021 := by
    rw [pe]
    omega
  have hpage : (pe + k) / 4096 % 1024 = k / 4096 := by
    rw [pe]
    omega
  have hoff : (pe + k) % 4096 = k % 4096 := by
    rw [pe]
    omega
  have hpres : Present (framePtr * 4096 + 3) := by
    rw [Present]
    omega
  have hsmallPage : ¬BigPage (framePtr * 4096 + 3) := by
    rw [BigPage]
    omega
  have hpres' : Present (F (k / 4096) * 4096 + 3) := by
    rw [Present]
    omega
  rw [Machine.translate, hva]
  rw [hdir, if_neg (by decide), h.dir, if_neg (not_not_intro hpres), if_neg hsmallPage, hpage,
    show (framePtr * 4096 + 3) / 4096 = framePtr by omega, hptr, pageOf, if_pos hpres', hoff,
    show (F (k / 4096) * 4096 + 3) / 4096 = F (k / 4096) by omega]

theorem FileView.load8 (hk : k < file.size) :
    m.load8 (pe + k) = .ok (file.bytes k) := by
  rw [Machine.load8, h.translate hk]
  exact congrArg Except.ok (h.bytes k hk)

theorem FileView.fileWord :
    fileWord m file.size va =
      if InFile file.size va 4 then .ok (word file.bytes (va - pe)) else .error .outOfBounds := by
  rw [Proc.fileWord]
  split
  · rename_i hin
    obtain ⟨hle, hlt⟩ := hin
    obtain ⟨k, rfl⟩ := Nat.exists_eq_add_of_le hle
    have hload : ∀ j < 4, m.load8 (pe + k + j) = .ok (file.bytes (k + j)) := by
      intro j hj
      rw [add_assoc, h.load8 (by omega)]
    have hfirst := hload 0 (by omega)
    rw [add_zero, add_zero] at hfirst
    rw [load32, hfirst, ok_bind, hload 1 (by omega), ok_bind, hload 2 (by omega), ok_bind,
      hload 3 (by omega), ok_bind, Nat.add_sub_cancel_left]
    rfl
  · rfl

theorem FileView.fileHalf :
    fileHalf m file.size va =
      if InFile file.size va 2 then .ok (file.half (va - pe)) else .error .outOfBounds := by
  rw [Proc.fileHalf]
  split
  · rename_i hin
    obtain ⟨hle, hlt⟩ := hin
    obtain ⟨k, rfl⟩ := Nat.exists_eq_add_of_le hle
    rw [load16, h.load8 (by omega), ok_bind, add_assoc, h.load8 (by omega), ok_bind,
      Nat.add_sub_cancel_left]
    rfl
  · rfl

theorem FileView.write {off : Nat} {bytes : Nat → UInt8}
    (hx : ¬Shown m.pdFrame file framePtr F x) (hoff : off + count ≤ 4096) :
    FileView (m.write (x * 4096 + off) bytes count) file framePtr F := by
  refine h.congr (show (m.write _ _ _).pdFrame = m.pdFrame from rfl) ?_
  intro a ha
  apply mem_write_off hoff
  rintro rfl
  exact hx ha

theorem FileView.copyBytes
    (hx : ¬Shown m.pdFrame file framePtr F x) (hk : k + count ≤ file.size) (hcount : count ≤ 4096) :
    copyBytes m x (pe + k) count = .ok (m.write (x * 4096) (fun o => file.bytes (k + o)) count) := by
  induction count with
  | zero => rw [Proc.copyBytes, Machine.write, blit_zero]
  | succ count ih =>
    have hview : FileView (m.write (x * 4096 + 0) (fun o => file.bytes (k + o)) count) file framePtr F :=
      h.write hx (by omega)
    rw [add_zero] at hview
    rw [Proc.copyBytes, ih (by omega) (by omega), ok_bind, add_assoc, hview.load8 (by omega),
      ok_bind]
    apply congrArg Except.ok
    refine machine_ext (by simp) (by simp) (by simp) fun a => ?_
    rw [write_mem, write_mem, write_mem]
    by_cases hin : x * 4096 ≤ a ∧ a < x * 4096 + count
    · rw [blit_outside (.inl hin.2), blit_inside hin.1 hin.2, blit_inside hin.1 (by omega)]
    · by_cases ha : a = x * 4096 + count
      · subst ha
        rw [blit_inside (by omega) (by omega), blit_inside (by omega) (by omega),
          Nat.add_sub_cancel_left]
      · rw [blit_outside (by omega), blit_outside (by omega), blit_outside (by omega)]

end

def frameOf (frame : Nat) : Nat := (frame ||| 3) / 4096

theorem write_rest {bytes : Nat → UInt8} {rest : Nat} (hrest : rest ≤ 4096) :
    (m.write (x * 4096) bytes rest).write (x * 4096 + rest) (fun _ => 0) (0x1000 - rest) =
      m.writePage x fun o => if o < rest then bytes o else 0 := by
  refine machine_ext (by simp) (by simp) (by simp) fun a => ?_
  rw [writePage, write_mem, write_mem, write_mem]
  by_cases hin : x * 4096 ≤ a ∧ a < x * 4096 + 4096
  · by_cases hlt : a < x * 4096 + rest
    · rw [blit_outside (.inl hlt), blit_inside hin.1 hlt, blit_inside hin.1 hin.2,
        if_pos (by omega)]
    · rw [blit_inside (by omega) (by omega), blit_inside hin.1 hin.2, if_neg (by omega)]
  · rw [blit_outside (by omega), blit_outside (by omega), blit_outside (by omega)]

/-! The steps, with the frame that the allocator answered. -/

theorem inFile_page {size X : Nat} (hsize : size ≤ 2 ^ 22) (hX : X < 2 ^ 32) (hcount : 0 < count) :
    InFile size ((pe + X) % 2 ^ 32) count ↔ X + count ≤ size := by
  rw [InFile, pe]
  omega

theorem mapLastPage_eq {offset vaddr filesz j : Nat} (hsize : w.size = file.size)
    (halloc : l.machine.allocPhysFrame = .ok (frame, m)) (hview : FileView m file w.framePtr F)
    (hx : ¬Shown m.pdFrame file w.framePtr F (frameOf frame))
    (hX : (offset / 4096 + j) * 4096 < 2 ^ 32) :
    mapLastPage w offset vaddr filesz j l =
      if ((offset + filesz) % 4096 = 0 ∨
          (offset / 4096 + j) * 4096 + (offset + filesz) % 4096 ≤ file.size) ∧
          vaddr / 4096 + j < 1024 then
        .ok ⟨(m.writePage (frameOf frame) (Source.byte file
          (.tail (offset / 4096 + j) ((offset + filesz) % 4096)))).writeWord
            (w.table * 4096 + 4 * (vaddr / 4096 + j)) (frame ||| 7), l.frameMap⟩
      else .error .outOfBounds := by
  obtain ⟨rest, hrest⟩ : ∃ rest, rest = (offset + filesz) % 4096 := ⟨_, rfl⟩
  have hlt : rest < 4096 := hrest ▸ Nat.mod_lt _ (by omega)
  have haddr : pe + offset / 4096 * 4096 + j <<< 12 = pe + (offset / 4096 + j) * 4096 := by
    omega
  rw [mapLastPage, halloc, ok_bind]
  dsimp only
  rw [haddr, hsize, ← hrest]
  by_cases hin : rest = 0 ∨ (offset / 4096 + j) * 4096 + rest ≤ file.size
  · have hcopy : copyFile m file.size (frameOf frame) ((pe + (offset / 4096 + j) * 4096) % 2 ^ 32) rest =
        .ok (m.write (frameOf frame * 4096)
          (fun o => file.bytes ((offset / 4096 + j) * 4096 + o)) rest) := by
      have hsmall := hview.small
      rcases Nat.eq_zero_or_pos rest with hzero | hpos
      · rw [copyFile, if_pos (.inl hzero), hzero, copyBytes, Machine.write, blit_zero]
      · have hle := hin.resolve_left (by omega)
        have hva : (pe + (offset / 4096 + j) * 4096) % 2 ^ 32 = pe + (offset / 4096 + j) * 4096 := by
          rw [pe]
          omega
        rw [copyFile, if_pos (.inr ((inFile_page hsmall hX hpos).mpr hle)), hva,
          hview.copyBytes hx hle (by omega)]
    rw [frameOf] at hcopy
    rw [hcopy, ok_bind, write_rest (by omega), setEntry]
    by_cases hv : vaddr / 4096 + j < 1024
    · rw [if_pos hv, if_pos ⟨hin, hv⟩, ok_bind]
      rfl
    · rw [if_neg hv, if_neg fun h => hv h.2]
      rfl
  · have hcopy : copyFile m file.size (frameOf frame) ((pe + (offset / 4096 + j) * 4096) % 2 ^ 32) rest =
        .error .outOfBounds := by
      rw [copyFile, if_neg]
      rintro (hzero | hfile)
      · exact hin (.inl hzero)
      · exact hin (.inr ((inFile_page hview.small hX (by omega)).mp hfile))
    rw [frameOf] at hcopy
    rw [hcopy, if_neg fun h => hin h.1]
    rfl

theorem mapFilePage_eq {offset vaddr j : Nat} :
    mapFilePage w offset vaddr j l =
      if j + offset / 4096 < 1024 ∧ vaddr / 4096 + j < 1024 then
        .ok ⟨l.machine.writeWord (w.table * 4096 + 4 * (vaddr / 4096 + j))
          (entry l.machine.mem w.framePtr (j + offset / 4096) ||| 7),
          Function.update l.frameMap (j + offset / 4096) true⟩
      else .error .outOfBounds := by
  rw [mapFilePage, getEntry]
  by_cases hk : j + offset / 4096 < 1024
  · rw [if_pos hk, ok_bind, setEntry]
    by_cases hv : vaddr / 4096 + j < 1024
    · rw [if_pos hv, ok_bind, if_pos ⟨hk, hv⟩]
    · rw [if_neg hv, if_neg fun h => hv h.2]
      rfl
  · rw [if_neg hk, if_neg fun h => hk h.1]
    rfl

theorem mapZeroPage_eq {vaddr j : Nat} (halloc : l.machine.allocPhysFrame = .ok (frame, m)) :
    mapZeroPage w vaddr j l =
      if vaddr / 4096 + j < 1024 then
        .ok ⟨(m.writeWord (w.table * 4096 + 4 * (vaddr / 4096 + j))
          (frame ||| 7)).writePage (frameOf frame) fun _ => 0, l.frameMap⟩
      else .error .outOfBounds := by
  rw [mapZeroPage, halloc, ok_bind]
  dsimp only
  rw [setEntry]
  by_cases hv : vaddr / 4096 + j < 1024
  · rw [if_pos hv, ok_bind, if_pos hv]
    rfl
  · rw [if_neg hv, if_neg hv]
    rfl

end Quest.Proc
