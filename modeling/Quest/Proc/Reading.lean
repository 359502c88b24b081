import Quest.Proc.Teardown
import Quest.Proc.Window

/-! The second part of `_exec`: a page table, frames for the file, and the file in them. -/
namespace Quest.Proc

open Quest.Lib Memory Quest.Mem Machine List Function

variable {m m' m1 : Machine} {file : File} {F : Nat → Nat} {framePtr fp i j k n count : Nat}

theorem or_seven (f : Nat) : (f <<< 12) ||| 7 = f * 4096 + 7 := by
  rw [← Nat.shiftLeft_add_eq_or_of_lt (by decide), Nat.shiftLeft_eq]

structure PagesTaken (m m' : Machine) (framePtr i n : Nat) (F : Nat → Nat) : Prop where
  pdFrame : m'.pdFrame = m.pdFrame
  kernFrame : m'.kernFrame = m.kernFrame
  took : m.frames.Took m'.frames ((List.range' i n).map F)
  ptr : ∀ j, i ≤ j → j < i + n → entry m'.mem framePtr j = F j * 4096 + 3
  before : ∀ j < i, entry m'.mem framePtr j = entry m.mem framePtr j
  mem : ∀ a, a / 4096 ≠ framePtr → m'.mem a = m.mem a

theorem allocPages_spec (hbound : i + n ≤ 1024) (havail : n ≤ m.frames.available) :
    ∃ F m', allocPages framePtr n i m = .ok m' ∧ PagesTaken m m' framePtr i n F := by
  induction n generalizing i m with
  | zero =>
    refine ⟨fun _ => 0, m, rfl, rfl, rfl, .nil m.frames, fun j hle hlt => ?_, fun j hj => rfl,
      fun a ha => rfl⟩
    omega
  | succ n ih =>
    obtain ⟨k, hfree, hlt, halloc⟩ := allocPhysFrame_available (m := m) (by omega)
    have hk : k < 2 ^ 20 := lt_of_lt_of_le hlt m.frames.mmLimit_le
    rw [allocPages, halloc, ok_bind]
    dsimp only
    rw [setEntry, if_pos (by omega), ok_bind, or_three]
    obtain ⟨m1, hm1⟩ : ∃ m1, m1 = (m.setFrames (m.frames.clr k 1)).writeWord
      (framePtr * 4096 + 4 * i) (k * 4096 + 3) := ⟨_, rfl⟩
    have hframes : m1.frames = m.frames.clr k 1 := by rw [hm1, writeWord_frames, setFrames_frames]
    have havail1 := Frames.available_clr hfree hlt
    rw [← hm1]
    obtain ⟨F, m', hret, h⟩ := ih (i := i + 1) (m := m1) (by omega) (by rw [hframes]; omega)
    have hentry : ∀ j < 1024, entry m1.mem framePtr j =
        if framePtr = framePtr ∧ j = i then k * 4096 + 3 else entry m.mem framePtr j := by
      intro j hj
      rw [hm1, entry_writeWord (by omega) (by omega) hj, setFrames_mem]
    refine ⟨update F i k, m', hret, ?_, ?_, ?_, fun j hle hlt => ?_, fun j hj => ?_,
      fun a ha => ?_⟩
    · rw [h.pdFrame, hm1, writeWord_pdFrame, setFrames_pdFrame]
    · rw [h.kernFrame, hm1, writeWord_kernFrame, setFrames_kernFrame]
    · have htook : m.frames.Took m'.frames ([k] ++ (range' (i + 1) n).map F) :=
        (Frames.took_clr hfree hlt).append (hframes ▸ h.took)
      rw [range'_succ, map_cons, update_self]
      rw [map_congr_left (g := F)]
      · exact htook
      · intro j hj
        obtain ⟨hle, _⟩ := mem_range'_1.mp hj
        have hne : j ≠ i := by omega
        exact update_of_ne hne k F
    · obtain rfl | hne := eq_or_ne i j
      · rw [h.before i (by omega), hentry i (by omega), if_pos ⟨rfl, rfl⟩, update_self]
      · rw [h.ptr j (by omega) (by omega), update_of_ne hne.symm]
    · rw [h.before j (by omega), hentry j (by omega), if_neg (by omega)]
    · rw [h.mem a ha, hm1, mem_writeWord_off (by omega) ha, setFrames_mem]

theorem allocPhysFrame_returns (m : Machine) : ∃ frame m', m.allocPhysFrame = .ok (frame, m') := by
  rw [Machine.allocPhysFrame]
  obtain ⟨k, _, _, _, hret⟩ | ⟨_, hret⟩ := m.frames.allocPhysFrame_spec
  · exact ⟨_, _, by rw [hret]; rfl⟩
  · exact ⟨_, _, by rw [hret]; rfl⟩

theorem allocPages_outside (h : 1024 < i + n) (hi : i ≤ 1024) :
    allocPages framePtr n i m = .error .outOfBounds := by
  induction n generalizing i m with
  | zero => omega
  | succ n ih =>
    obtain ⟨frame, m1, halloc⟩ := allocPhysFrame_returns m
    rw [allocPages, halloc, ok_bind]
    dsimp only
    by_cases hlt : i < 1024
    · rw [setEntry, if_pos hlt, ok_bind]
      exact ih (by omega) (by omega)
    · rw [setEntry, if_neg hlt]
      rfl

structure FramesApart (pd framePtr pages : Nat) (F : Nat → Nat) : Prop where
  inj : ∀ i < pages, ∀ j < pages, F i = F j → i = j
  pd : ∀ i < pages, F i ≠ pd
  ptr : ∀ i < pages, F i ≠ framePtr

structure FileWritten (m m' : Machine) (pages : Nat) (F : Nat → Nat) : Prop where
  frames : m'.frames = m.frames
  pdFrame : m'.pdFrame = m.pdFrame
  kernFrame : m'.kernFrame = m.kernFrame
  mem : ∀ a, (∀ i < pages, a / 4096 ≠ F i) → m'.mem a = m.mem a

theorem FileWritten.entry_eq {pages f : Nat} (h : FileWritten m m' pages F)
    (hf : ∀ i < pages, F i ≠ f) (hj : j < 1024) : entry m'.mem f j = entry m.mem f j := by
  apply entry_congr _ hj
  intro a ha
  apply h.mem
  intro i hi heq
  exact hf i hi (heq.symm.trans ha)

def File.withBytes (file : File) (bytes : Nat → UInt8) : File := { file with bytes := bytes }

@[simp] theorem File.withBytes_pages {bytes : Nat → UInt8} :
    (file.withBytes bytes).pages = file.pages := rfl

@[simp] theorem File.withBytes_bytes {bytes : Nat → UInt8} :
    (file.withBytes bytes).bytes = bytes := rfl

theorem FileView.store8 (h : FileView m file framePtr F)
    (happart : FramesApart m.pdFrame framePtr file.pages F) (hk : k < file.size) (byte : UInt8) :
    ∃ m', m.store8 (pe + k) byte = .ok m' ∧ FileWritten m m' file.pages F ∧
      FileView m' (file.withBytes (update file.bytes k byte)) framePtr F := by
  have hpage := lt_pages hk
  have hsmall := h.small
  obtain ⟨m', hm'⟩ : ∃ m' : Machine,
      m' = { m with mem := update m.mem (F (k / 4096) * 4096 + k % 4096) byte } := ⟨_, rfl⟩
  have hmem : m'.mem = update m.mem (F (k / 4096) * 4096 + k % 4096) byte := by rw [hm']
  have hpd : m'.pdFrame = m.pdFrame := by rw [hm']
  have hwrite : FileWritten m m' file.pages F := by
    refine ⟨by rw [hm'], hpd, by rw [hm'], fun a ha => ?_⟩
    rw [hmem, update_of_ne]
    rintro rfl
    exact ha _ hpage (by omega)
  refine ⟨m', ?_, hwrite, hsmall, ?_, fun i hi => ?_, fun k' hk' => ?_⟩
  · rw [Machine.store8, h.translate hk, hm']
    rfl
  · rw [hpd, ← h.dir]
    exact hwrite.entry_eq happart.pd (by omega)
  · rw [File.withBytes_pages] at hi
    have hi' : i < 1024 := by
      rw [File.pages] at hi
      omega
    rw [← h.ptr i hi]
    exact hwrite.entry_eq happart.ptr hi'
  · rw [hmem, File.withBytes_bytes]
    obtain rfl | hne := eq_or_ne k' k
    · rw [update_self, update_self]
    · rw [update_of_ne hne, update_of_ne, h.bytes k' hk']
      intro heq
      have := happart.inj _ (lt_pages hk') _ hpage (by omega)
      omega

theorem FileWritten.trans {pages : Nat} (h : FileWritten m m1 pages F)
    (h' : FileWritten m1 m' pages F) : FileWritten m m' pages F :=
  ⟨h'.frames.trans h.frames, h'.pdFrame.trans h.pdFrame, h'.kernFrame.trans h.kernFrame,
    fun a ha => (h'.mem a ha).trans (h.mem a ha)⟩

theorem FileView.storeBytes (h : FileView m file framePtr F)
    (happart : FramesApart m.pdFrame framePtr file.pages F) (bytes : Nat → UInt8)
    (hcount : count ≤ file.size) :
    ∃ m', m.storeBytes pe bytes count = .ok m' ∧ FileWritten m m' file.pages F ∧
      FileView m' (file.withBytes fun k => if k < count then bytes k else file.bytes k)
        framePtr F := by
  induction count with
  | zero => exact ⟨m, rfl, ⟨rfl, rfl, rfl, fun a _ => rfl⟩, h⟩
  | succ count ih =>
    obtain ⟨m1, hret, hwrite, hview⟩ := ih (by omega)
    obtain ⟨m', hret', hwrite', hview'⟩ := hview.store8 (hwrite.pdFrame ▸ happart)
      (show count < file.size by omega) (bytes count)
    refine ⟨m', ?_, hwrite.trans hwrite', ?_⟩
    · rw [Machine.storeBytes, hret, ok_bind, hret']
    · refine { hview' with bytes := fun k hk => ?_ }
      rw [hview'.bytes k hk]
      rw [File.withBytes_bytes, File.withBytes_bytes, File.withBytes_bytes]
      obtain rfl | hne := eq_or_ne k count
      · rw [update_self, if_pos (by omega)]
      · rw [update_of_ne hne]
        exact if_congr (by omega) rfl rfl

structure Ready (m : Machine) : Prop where
  limit : m.frames.mmLimit < 2 ^ 20
  below : m.pdFrame < m.frames.mmLimit
  dir : ¬m.frames.Free m.pdFrame
  apart : TablesApart m 0 1019
  used : ∀ i < 1019, ∀ k, TableDropped m i k → ¬m.frames.Free k ∧ k ≠ m.pdFrame

theorem Ready.dropSpace (h : Ready m) : TablesDropped m (dropSpace m) 0 1019 :=
  dropTables_spec h.apart (by omega)

theorem Ready.free (h : Ready m) :
    (Proc.dropSpace m).frames.Free k ↔ m.frames.Free k ∨ ∃ i < 1019, TableDropped m i k := by
  rw [h.dropSpace.free]
  simp only [zero_le, true_and, zero_add]

theorem Ready.dir_dropSpace (h : Ready m) : ¬(Proc.dropSpace m).frames.Free m.pdFrame := by
  rw [h.free]
  rintro (hfree | ⟨i, hi, hdrop⟩)
  · exact h.dir hfree
  · exact (h.used i hi _ hdrop).2 rfl

structure Prepared (m m' : Machine) (file : File) (w : Windows) (F : Nat → Nat) : Prop where
  small : file.size ≤ 2 ^ 22
  size : w.size = file.size
  pdFrame : m'.pdFrame = m.pdFrame
  kernFrame : m'.kernFrame = m.kernFrame
  took : (dropSpace m).frames.Took m'.frames (w.table :: (List.range file.pages).map F)
  dirUsed : ¬(dropSpace m).frames.Free m.pdFrame
  ptrUsed : ¬(dropSpace m).frames.Free w.framePtr
  ptrDir : w.framePtr ≠ m.pdFrame
  window : entry m'.mem m.pdFrame 1021 = w.framePtr * 4096 + 3
  ptr : ∀ i < file.pages, entry m'.mem w.framePtr i = F i * 4096 + 3
  first : entry m'.mem m.pdFrame 0 = w.table * 4096 + 7
  dir : ∀ i < 1024, i ≠ 0 → i ≠ 1021 →
    entry m'.mem m.pdFrame i = if i < 1019 then 0 else entry m.mem m.pdFrame i
  table : ∀ j < 1024, entry m'.mem w.table j = 0
  mem : ∀ a, a / 4096 ≠ m.pdFrame → a / 4096 ≠ w.framePtr → a / 4096 ≠ w.table →
    (∀ i < file.pages, a / 4096 ≠ F i) →
    (∀ i < 1019, entry m.mem m.pdFrame i ≠ 0 → a / 4096 ≠ tableAt m i) → m'.mem a = m.mem a

theorem mem_pages (hi : i < file.pages) : F i ∈ (range file.pages).map F :=
  mem_map_of_mem (mem_range.mpr hi)

theorem pages_le (h : file.size ≤ 2 ^ 22) : file.pages ≤ 1024 := by
  rw [File.pages]
  omega

namespace Prepared

variable {w : Windows} (h : Prepared m m' file w F)
include h

theorem free_table : (dropSpace m).frames.Free w.table := (h.took.free _ mem_cons_self).1

theorem free_page (hi : i < file.pages) : (dropSpace m).frames.Free (F i) :=
  (h.took.free _ (mem_cons_of_mem _ (mem_pages hi))).1

theorem table_ne_dir : w.table ≠ m.pdFrame := fun heq => h.dirUsed (heq ▸ h.free_table)

theorem table_ne_ptr : w.table ≠ w.framePtr := fun heq => h.ptrUsed (heq ▸ h.free_table)

theorem page_ne_table (hi : i < file.pages) : F i ≠ w.table := by
  intro heq
  exact (nodup_cons.mp h.took.nodup).1 (heq ▸ mem_pages hi)

theorem framesApart : FramesApart m.pdFrame w.framePtr file.pages F where
  inj _ hi _ hj heq :=
    inj_on_of_nodup_map (nodup_cons.mp h.took.nodup).2 (mem_range.mpr hi)
      (mem_range.mpr hj) heq
  pd _ hi heq := h.dirUsed (heq ▸ h.free_page hi)
  ptr _ hi heq := h.ptrUsed (heq ▸ h.free_page hi)

theorem written (hwrite : FileWritten m' m1 file.pages F) : Prepared m m1 file w F := by
  have hpd := h.framesApart.pd
  refine ⟨h.small, h.size, hwrite.pdFrame.trans h.pdFrame, hwrite.kernFrame.trans h.kernFrame,
    ?_, h.dirUsed, h.ptrUsed, h.ptrDir, ?_, fun i hi => ?_, ?_, fun i hi hfirst hwindow => ?_,
    fun j hj => ?_, fun a hdir hptr htable hpages hold => ?_⟩
  · rw [hwrite.frames]
    exact h.took
  · rw [hwrite.entry_eq hpd (by omega), h.window]
  · rw [hwrite.entry_eq h.framesApart.ptr (lt_of_lt_of_le hi (pages_le h.small)), h.ptr i hi]
  · rw [hwrite.entry_eq hpd (by omega), h.first]
  · rw [hwrite.entry_eq hpd hi, h.dir i hi hfirst hwindow]
  · rw [hwrite.entry_eq (fun i hi => h.page_ne_table hi) hj, h.table j hj]
  · rw [hwrite.mem a hpages, h.mem a hdir hptr htable hpages hold]

theorem view (bytes : Nat → UInt8)
    (hbytes : ∀ k < file.size, m'.mem (F (k / 4096) * 4096 + k % 4096) = bytes k) :
    FileView m' (file.withBytes bytes) w.framePtr F :=
  ⟨h.small, h.pdFrame ▸ h.window, h.ptr, hbytes⟩

end Prepared

theorem prepare_spec (hready : Ready m) (hused : ¬(dropSpace m).frames.Free fp)
    (hdir : fp ≠ m.pdFrame) (hfp : fp < 2 ^ 20) (hsize : file.size ≤ 2 ^ 22)
    (havail : file.pages + 1 ≤ (dropSpace m).frames.available) :
    ∃ w F m', prepare m file (fp * 4096 + 3) = .ok (w, m') ∧ w.framePtr = fp ∧
      Prepared m m' file w F := by
  have hdrop := hready.dropSpace
  have hdirUsed := hready.dir_dropSpace
  obtain ⟨m1, hm1⟩ : ∃ m1, m1 = dropSpace m := ⟨_, rfl⟩
  rw [← hm1] at hdrop hdirUsed hused havail
  obtain ⟨t, hfree, hlt, halloc⟩ := allocPhysFrame_available (m := m1) (by omega)
  have ht : t < 2 ^ 20 := lt_of_lt_of_le hlt m1.frames.mmLimit_le
  have htd : t ≠ m.pdFrame := fun heq => hdirUsed (heq ▸ hfree)
  have htp : t ≠ fp := fun heq => hused (heq ▸ hfree)
  obtain ⟨m2, hm2⟩ : ∃ m2, m2 = ((m1.setFrames (m1.frames.clr t 1)).writeWord (m.pdFrame * 4096 + 4 * 0)
    (t * 4096 + 7)).writePage t fun _ => 0 := ⟨_, rfl⟩
  have hframes2 : m2.frames = m1.frames.clr t 1 := by rw [hm2]; simp
  have hmem2 : ∀ a, a / 4096 ≠ t → a / 4096 ≠ m.pdFrame → m2.mem a = m1.mem a := by
    intro a hat had
    rw [hm2, mem_writePage, if_neg hat, mem_writeWord_off (by omega) had, setFrames_mem]
  have havail2 := Frames.available_clr hfree hlt
  have hbound : 0 + file.pages ≤ 1024 := by
    have := pages_le hsize
    omega
  have hpages : ∃ F m3, allocPages fp file.pages 0 m2 = .ok m3 ∧
      PagesTaken m2 m3 fp 0 file.pages F := allocPages_spec hbound (by rw [hframes2]; omega)
  obtain ⟨F, m3, hret, htaken⟩ := hpages
  have hpd3 : m3.pdFrame = m.pdFrame := by rw [htaken.pdFrame, hm2]; simpa using hdrop.pdFrame
  obtain ⟨m', hm'⟩ : ∃ m', m' = m3.writeWord (m.pdFrame * 4096 + 4 * 1021) (fp * 4096 + 3) :=
    ⟨_, rfl⟩
  have htook : m1.frames.Took m'.frames (t :: (range file.pages).map F) := by
    have := (Frames.took_clr hfree hlt).append (hframes2 ▸ htaken.took)
    rw [hm', writeWord_frames, range_eq_range']
    exact this
  have hmem' : ∀ a, a / 4096 ≠ m.pdFrame → m'.mem a = m3.mem a := by
    intro a ha
    rw [hm', mem_writeWord_off (by omega) ha]
  have hentry : ∀ i < 1024, entry m'.mem m.pdFrame i = if i = 1021 then fp * 4096 + 3 else
      if i = 0 then t * 4096 + 7 else entry m1.mem m.pdFrame i := by
    intro i hi
    rw [hm', entry_writeWord (by omega) (by omega) hi]
    refine if_congr (and_iff_right rfl) rfl ?_
    rw [entry_congr (fun a ha => htaken.mem a (by rw [ha]; exact hdir.symm)) hi, hm2,
      entry_writePage_off htd.symm hi, entry_writeWord (by omega) (by omega) hi, setFrames_mem]
    exact if_congr (and_iff_right rfl) rfl rfl
  refine ⟨⟨t, fp, file.size⟩, F, m', ?_, rfl, hsize, rfl, ?_, ?_, hm1 ▸ htook, hm1 ▸ hdirUsed,
    hm1 ▸ hused, hdir, ?_, fun i hi => ?_, ?_, fun i hi hfirst hwindow => ?_, fun j hj => ?_,
    fun a had hap hat haF hold => ?_⟩
  · rw [prepare, ← hm1, halloc, ok_bind]
    dsimp only
    rw [or_seven, show (t * 4096 + 7) / 4096 = t by omega, show (fp * 4096 + 3) / 4096 = fp by omega,
      setFrames_pdFrame, hdrop.pdFrame, show m.pdFrame * 4096 = m.pdFrame * 4096 + 4 * 0 by omega,
      ← hm2, hret, ok_bind, hpd3, show pe / 2 ^ 22 = 1021 by decide, ← hm']
  · rw [hm', writeWord_pdFrame, hpd3]
  · rw [hm', writeWord_kernFrame, htaken.kernFrame, hm2]
    simpa using hdrop.kernFrame
  · rw [hentry 1021 (by omega), if_pos rfl]
  · rw [entry_congr (fun a ha => hmem' a (by rw [ha]; exact hdir)) (by omega),
      htaken.ptr i (by omega) (by omega)]
  · rw [hentry 0 (by omega), if_neg (by omega), if_pos rfl]
  · rw [hentry i hi, if_neg hwindow, if_neg hfirst, hdrop.dir i hi]
    exact if_congr (by omega) rfl rfl
  · rw [entry_congr (fun a ha => hmem' a (by rw [ha]; exact htd)) hj,
      entry_congr (fun a ha => htaken.mem a (by rw [ha]; exact htp)) hj]
    apply word_zero
    intro k hk
    rw [hm2, mem_writePage]
    exact if_pos (show (t * 4096 + 4 * j + k) / 4096 = t by omega)
  · rw [hmem' a had, htaken.mem a hap, hmem2 a hat had]
    apply hdrop.mem a had
    intro i _ hi
    exact hold i (by omega)

structure ImageRead (m m' : Machine) (file : File) (w : Windows) (F : Nat → Nat) : Prop
    extends Prepared m m' file w F where
  view : FileView m' file w.framePtr F

theorem readImage_spec (hready : Ready m) (hused : ¬(dropSpace m).frames.Free fp)
    (hdir : fp ≠ m.pdFrame) (hfp : fp < 2 ^ 20) (hsize : file.size ≤ 2 ^ 22)
    (havail : file.pages + 1 ≤ (dropSpace m).frames.available) (hread : file.read ≤ file.dir) :
    if file.read = file.dir then
      ∃ w F m', readImage m file (fp * 4096 + 3) = .ok (w, m') ∧ w.framePtr = fp ∧
        ImageRead m m' file w F
    else ∃ msg, readImage m file (fp * 4096 + 3) = .error (.panic msg) := by
  obtain ⟨w, F, m1, hret, hw, h⟩ := prepare_spec hready hused hdir hfp hsize havail
  have hcount : file.read.toNat ≤ file.size := Int.toNat_le_toNat hread
  have hstore := (h.view _ fun k _ => rfl).storeBytes (h.pdFrame ▸ h.framesApart) file.bytes hcount
  obtain ⟨m', hret', hwrite, hview⟩ := hstore
  split
  · rename_i heq
    refine ⟨w, F, m', ?_, hw, h.written hwrite, hview.small, hview.dir, hview.ptr, ?_⟩
    · rw [readImage, hret, ok_bind]
      dsimp only
      rw [hret', ok_bind, if_neg (not_not_intro heq)]
    · intro k hk
      rw [hview.bytes k hk, File.withBytes_bytes, heq]
      exact if_pos hk
  · rename_i hne
    refine ⟨"File size mismatch on read", ?_⟩
    rw [readImage, hret, ok_bind]
    dsimp only
    rw [hret', ok_bind, if_pos hne]

theorem Ready.takeFrame (hready : Ready m) : Ready (m.setFrames (m.frames.clr fp 1)) where
  limit := hready.limit
  below := hready.below
  dir h := hready.dir (Frames.free_clr.mp h).1
  apart := { hready.apart with }
  used i hi k hk := ⟨fun h => (hready.used i hi k hk).1 (Frames.free_clr.mp h).1,
    (hready.used i hi k hk).2⟩

theorem Ready.took_dropSpace (hready : Ready m) (hfree : m.frames.Free fp)
    (hlt : fp < m.frames.mmLimit) : (Proc.dropSpace m).frames.Took
      (Proc.dropSpace (m.setFrames (m.frames.clr fp 1))).frames [fp] := by
  have hready' : Ready (m.setFrames (m.frames.clr fp 1)) := hready.takeFrame
  refine ⟨hready'.dropSpace.limit.trans hready.dropSpace.limit.symm, fun k => ?_,
    nodup_singleton fp, ?_⟩
  · have hdrop : ∀ i, TableDropped (m.setFrames (m.frames.clr fp 1)) i k ↔ TableDropped m i k :=
      fun i => Iff.rfl
    simp only [hready'.free, hready.free, mem_singleton, hdrop, setFrames_frames,
      Frames.free_clr]
    constructor
    · rintro (⟨hk, hne⟩ | ⟨i, hi, hk⟩)
      · exact ⟨.inl hk, by omega⟩
      · refine ⟨.inr ⟨i, hi, hk⟩, ?_⟩
        rintro rfl
        exact (hready.used i hi k hk).1 hfree
    · rintro ⟨hk | hk, hne⟩
      · exact .inl ⟨hk, by omega⟩
      · exact .inr hk
  · simp only [mem_singleton, forall_eq]
    rw [hready.dropSpace.limit]
    exact ⟨hready.free.mpr (.inl hfree), hlt⟩

end Quest.Proc
