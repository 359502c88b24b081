import Quest.Proc.Placing

/-! The last part of `_exec`: unused frames of the file, video memory, stack and arguments. -/
namespace Quest.Proc

open Quest.Lib Memory Quest.Mem Machine Function

variable {m m' : Machine} {file : File} {w : Windows} {F S : Nat → Nat} {l : Loader}
  {content content' bytes args : Nat → UInt8} {f i j k n v x va count table : Nat}

def Unused (F : Nat → Nat) (frameMap : Nat → Bool) (i n k : Nat) : Prop :=
  ∃ j, i ≤ j ∧ j < i + n ∧ frameMap j = false ∧ F j = k

theorem freeUnused_spec {frameMap : Nat → Bool} (hbound : i + n ≤ 1024)
    (hptr : ∀ j, i ≤ j → j < i + n → entry m.mem w.framePtr j = F j * 4096 + 3) :
    ∃ frames, freeUnused w frameMap n i m = .ok (m.setFrames frames) ∧
      frames.mmLimit = m.frames.mmLimit ∧
      ∀ k, frames.Free k ↔ m.frames.Free k ∨ Unused F frameMap i n k := by
  induction n generalizing i m with
  | zero =>
    refine ⟨m.frames, rfl, rfl, fun k => (or_iff_left ?_).symm⟩
    rintro ⟨j, hle, hlt, _⟩
    omega
  | succ n ih =>
    obtain ⟨m1, hm1⟩ : ∃ m1, m1 = if frameMap i then m else m.freePhysFrame (F i * 4096 + 3) :=
      ⟨_, rfl⟩
    have hmem : m1 = m.setFrames m1.frames := by
      rw [hm1]
      split <;> rfl
    have hlimit : m1.frames.mmLimit = m.frames.mmLimit := by
      rw [hm1]
      split <;> rfl
    have hfree : ∀ k, m1.frames.Free k ↔ m.frames.Free k ∨ frameMap i = false ∧ F i = k := by
      intro k
      rw [hm1]
      split
      · rename_i hmap
        simp [hmap]
      · rename_i hmap
        rw [Machine.freePhysFrame, setFrames_frames, Frames.free_freePhysFrame,
          Nat.shiftRight_eq_div_pow, show (F i * 4096 + 3) / 2 ^ 12 = F i by omega]
        simp [hmap, or_comm]
    obtain ⟨frames, hret, hlimit', hfree'⟩ := ih (i := i + 1) (m := m1) (by omega) (by
      intro j hle hlt
      rw [hmem, setFrames_mem]
      exact hptr j (by omega) (by omega))
    refine ⟨frames, ?_, hlimit'.trans hlimit, fun k => ?_⟩
    · rw [freeUnused, getEntry, if_pos (by omega), ok_bind, hptr i le_rfl (by omega), ← hm1, hret,
        hmem]
      rfl
    · rw [hfree', hfree, or_assoc]
      apply or_congr_right
      constructor
      · rintro (⟨hmap, hk⟩ | ⟨j, hle, hlt, hrest⟩)
        · exact ⟨i, le_rfl, by omega, hmap, hk⟩
        · exact ⟨j, by omega, by omega, hrest⟩
      · rintro ⟨j, hle, hlt, hmap, hk⟩
        obtain rfl | hne := eq_or_ne i j
        · exact .inl ⟨hmap, hk⟩
        · exact .inr ⟨j, by omega, by omega, hmap, hk⟩

structure TableWritten (m m' : Machine) (table : Nat) : Prop where
  pdFrame : m'.pdFrame = m.pdFrame
  kernFrame : m'.kernFrame = m.kernFrame
  mem : ∀ a, a / 4096 ≠ table → m'.mem a = m.mem a

theorem TableWritten.trans {m1 : Machine} (h : TableWritten m m1 table)
    (h' : TableWritten m1 m' table) : TableWritten m m' table :=
  ⟨h'.pdFrame.trans h.pdFrame, h'.kernFrame.trans h.kernFrame,
    fun a ha => (h'.mem a ha).trans (h.mem a ha)⟩

theorem tableWritten_writeWord (hv : v < 1024) (value : Nat) :
    TableWritten m (m.writeWord (table * 4096 + 4 * v) value) table :=
  ⟨rfl, rfl, fun _ ha => mem_writeWord_off hv ha⟩

def videoEntry (i : Nat) : Nat := (0xA0 + i) * 4096 + 7

theorem videoEntry_eq (hi : i < 16) : 0xA0000 ||| i <<< 12 ||| 7 = videoEntry i := by
  have hi' : ∀ i : Fin 16, 0xA0000 ||| i.val <<< 12 ||| 7 = videoEntry i.val := by decide
  exact hi' ⟨i, hi⟩

theorem mapVideo_spec (m : Machine) (table : Nat) (hi : i + n ≤ 16) :
    TableWritten m (mapVideo table n i m) table ∧ (mapVideo table n i m).frames = m.frames ∧
      ∀ v < 1024, entry (mapVideo table n i m).mem table v =
        if 0x200 + i ≤ v ∧ v < 0x200 + i + n then videoEntry (v - 0x200)
        else entry m.mem table v := by
  induction n generalizing i m with
  | zero =>
    refine ⟨⟨rfl, rfl, fun _ _ => rfl⟩, rfl, fun v hv => (if_neg ?_).symm⟩
    omega
  | succ n ih =>
    rw [mapVideo, videoEntry_eq (by omega)]
    obtain ⟨hwrite, hframes, hentry⟩ :=
      ih (i := i + 1) (m.writeWord (table * 4096 + 4 * (0x200 + i)) (videoEntry i)) (by omega)
    refine ⟨(tableWritten_writeWord (by omega) _).trans hwrite, hframes, fun v hv => ?_⟩
    rw [hentry v hv, entry_writeWord (by rw [videoEntry]; omega) (by omega) hv]
    obtain rfl | hne := eq_or_ne v (0x200 + i)
    · rw [if_neg (by omega), if_pos ⟨rfl, rfl⟩, if_pos (by omega), Nat.add_sub_cancel_left]
    · have hne' : ¬(table = table ∧ v = 0x200 + i) := fun h => hne h.2
      have hiff : 0x200 + (i + 1) ≤ v ∧ v < 0x200 + (i + 1) + n ↔
          0x200 + i ≤ v ∧ v < 0x200 + i + (n + 1) := by omega
      rw [if_neg hne']
      exact if_congr hiff rfl rfl

theorem mapStack_spec (table : Nat) (hbound : i + n ≤ 16) (havail : n ≤ m.frames.available) :
    ∃ S m', mapStack table n i m = .ok m' ∧ TableWritten m m' table ∧
      m.frames.Took m'.frames ((List.range' i n).map S) ∧
      (∀ j, i ≤ j → j < i + n → entry m'.mem table (1023 - j) = S j * 4096 + 7) ∧
      ∀ v < 1024, (1023 < v + i ∨ v + i + n ≤ 1023) → entry m'.mem table v = entry m.mem table v := by
  induction n generalizing i m with
  | zero =>
    refine ⟨fun _ => 0, m, rfl, ⟨rfl, rfl, fun _ _ => rfl⟩, .nil _, fun j hle hlt => ?_,
      fun _ _ _ => rfl⟩
    omega
  | succ n ih =>
    obtain ⟨k, hfree, hlt, halloc⟩ := allocPhysFrame_available (m := m) (by omega)
    have hk : k < 2 ^ 20 := lt_of_lt_of_le hlt m.frames.mmLimit_le
    obtain ⟨m1, hm1⟩ : ∃ m1, m1 = (m.setFrames (m.frames.clr k 1)).writeWord
      (table * 4096 + 4 * (1023 - i)) (k * 4096 + 7) := ⟨_, rfl⟩
    have hframes : m1.frames = m.frames.clr k 1 := by rw [hm1, writeWord_frames, setFrames_frames]
    have hwrite1 : TableWritten m m1 table := by
      rw [hm1]
      exact ⟨rfl, rfl, fun a ha => mem_writeWord_off (by omega) ha⟩
    have hentry : ∀ v < 1024, entry m1.mem table v =
        if table = table ∧ v = 1023 - i then k * 4096 + 7 else entry m.mem table v := by
      intro v hv
      rw [hm1, entry_writeWord (by omega) (by omega) hv, setFrames_mem]
    have havail1 := Frames.available_clr hfree hlt
    obtain ⟨S, m', hret, hwrite, htook, hpages, hother⟩ :=
      ih (i := i + 1) (m := m1) (by omega) (by rw [hframes]; omega)
    refine ⟨update S i k, m', ?_, hwrite1.trans hwrite, ?_, fun j hle hlt => ?_,
      fun v hv hout => ?_⟩
    · rw [mapStack, halloc, ok_bind]
      dsimp only
      rw [or_seven, ← hm1, hret]
    · have happ : m.frames.Took m'.frames ([k] ++ (List.range' (i + 1) n).map S) :=
        (Frames.took_clr hfree hlt).append (hframes ▸ htook)
      rw [List.range'_succ, List.map_cons, update_self, List.map_congr_left (g := S)]
      · exact happ
      · intro j hj
        obtain ⟨hle, _⟩ := List.mem_range'_1.mp hj
        have hne : j ≠ i := by omega
        exact update_of_ne hne k S
    · obtain rfl | hne := eq_or_ne i j
      · rw [hother _ (by omega) (by omega), hentry _ (by omega), if_pos ⟨rfl, rfl⟩,
          update_self]
      · rw [hpages j (by omega) (by omega), update_of_ne hne.symm]
    · rw [hother v hv (by omega), hentry v hv, if_neg (by omega)]

theorem translate_user (hdir : entry m.mem m.pdFrame 0 = table * 4096 + 7) (hva : va < 2 ^ 22)
    (hpage : entry m.mem table (va / 4096) = f * 4096 + 7) :
    m.translate va = .ok (f * 4096 + va % 4096) := by
  have hpres : ∀ f, Present (f * 4096 + 7) := by
    intro f
    rw [Present]
    omega
  have hsmall : ¬BigPage (table * 4096 + 7) := by
    rw [BigPage]
    omega
  rw [Machine.translate, Nat.mod_eq_of_lt (by omega)]
  rw [show va / 2 ^ 22 = 0 by omega, if_neg (by decide), hdir, if_neg (not_not_intro (hpres _)),
    if_neg hsmall, show (table * 4096 + 7) / 4096 = table by omega,
    show va / 4096 % 1024 = va / 4096 by omega, hpage, pageOf, if_pos (hpres _),
    show (f * 4096 + 7) / 4096 = f by omega]

def stackByte (S : Nat → Nat) (x : Nat) : Nat := S (1023 - x / 4096) * 4096 + x % 4096

structure StackView (m : Machine) (table : Nat) (S : Nat → Nat) (content : Nat → UInt8) : Prop where
  apart : FramesApart m.pdFrame table 16 S
  dir : entry m.mem m.pdFrame 0 = table * 4096 + 7
  pages : ∀ i < 16, entry m.mem table (1023 - i) = S i * 4096 + 7
  bytes : ∀ x, 0x3F0000 ≤ x → x < 0x400000 → m.mem (stackByte S x) = content x

section

variable (h : StackView m table S content)
include h

theorem StackView.translate (hle : 0x3F0000 ≤ x)
    (hlt : x < 0x400000) : m.translate x = .ok (stackByte S x) := by
  apply translate_user h.dir (by omega)
  have hpage := h.pages (1023 - x / 4096) (by omega)
  rwa [show 1023 - (1023 - x / 4096) = x / 4096 by omega] at hpage

theorem StackView.store8 (hle : 0x3F0000 ≤ x)
    (hlt : x < 0x400000) (byte : UInt8) :
    ∃ m', m.store8 x byte = .ok m' ∧ FileWritten m m' 16 S ∧
      StackView m' table S (update content x byte) := by
  obtain ⟨m', hm'⟩ : ∃ m' : Machine,
      m' = { m with mem := update m.mem (stackByte S x) byte } := ⟨_, rfl⟩
  have hmem : m'.mem = update m.mem (stackByte S x) byte := by rw [hm']
  have hpd : m'.pdFrame = m.pdFrame := by rw [hm']
  have hwrite : FileWritten m m' 16 S := by
    refine ⟨by rw [hm'], hpd, by rw [hm'], fun a ha => ?_⟩
    rw [hmem, update_of_ne]
    rintro rfl
    apply ha (1023 - x / 4096) (by omega)
    rw [stackByte]
    omega
  refine ⟨m', ?_, hwrite, hpd ▸ h.apart, ?_, fun i hi => ?_, fun y hle' hlt' => ?_⟩
  · rw [Machine.store8, h.translate hle hlt, hm']
    rfl
  · rw [hpd, hwrite.entry_eq h.apart.pd (by omega), h.dir]
  · rw [hwrite.entry_eq h.apart.ptr (by omega), h.pages i hi]
  · rw [hmem]
    obtain rfl | hne := eq_or_ne y x
    · rw [update_self, update_self]
    · rw [update_of_ne hne, update_of_ne, h.bytes y hle' hlt']
      intro heq
      rw [stackByte, stackByte] at heq
      have := h.apart.inj (1023 - y / 4096) (by omega) (1023 - x / 4096) (by omega) (by omega)
      omega

theorem StackView.storeBytes (hle : 0x3F0000 ≤ va)
    (hend : va + count ≤ 0x400000) (bytes : Nat → UInt8) :
    ∃ m', m.storeBytes va bytes count = .ok m' ∧ FileWritten m m' 16 S ∧
      StackView m' table S (blit content va bytes count) := by
  induction count with
  | zero => exact ⟨m, rfl, ⟨rfl, rfl, rfl, fun a _ => rfl⟩, by rwa [blit_zero]⟩
  | succ count ih =>
    obtain ⟨m1, hret, hwrite, hview⟩ := ih (by omega)
    obtain ⟨m', hret', hwrite', hview'⟩ := hview.store8 (x := va + count) (by omega) (by omega)
      (bytes count)
    rw [update_blit] at hview'
    exact ⟨m', by rw [Machine.storeBytes, hret, ok_bind, hret'], hwrite.trans hwrite', hview'⟩

theorem StackView.congr (hpd : m'.pdFrame = m.pdFrame)
    (hdir : entry m'.mem m.pdFrame 0 = entry m.mem m.pdFrame 0)
    (hmem : ∀ a, a / 4096 ≠ m.pdFrame → m'.mem a = m.mem a) (htable : table ≠ m.pdFrame)
    (hcontent : ∀ x, 0x3F0000 ≤ x → x < 0x400000 → content' x = content x) :
    StackView m' table S content' := by
  refine ⟨hpd ▸ h.apart, by rw [hpd, hdir, h.dir], fun i hi => ?_, fun x hle hlt => ?_⟩
  · rw [entry_congr (fun a ha => hmem a (by rw [ha]; exact htable)) (by omega), h.pages i hi]
  · rw [hcontent x hle hlt, ← h.bytes x hle hlt]
    apply hmem
    have hne := h.apart.pd (1023 - x / 4096) (by omega)
    rw [stackByte]
    omega

end

def stackImage (args : Nat → UInt8) : Nat → UInt8 :=
  setWord (setWord (setWord (setWord (setWord (blit (fun _ => 0) (0x400000 - 80) args 80)
    (0x400000 - 84) 0) (0x400000 - 88) (0x400000 - 80)) (0x400000 - 92) (0x400000 - 88))
    (0x400000 - 96) 1) (0x400000 - 100) 0

theorem pushArguments_spec (args : Nat → UInt8) (h : StackView m table S fun _ => 0) :
    ∃ m', pushArguments m args = .ok m' ∧ FileWritten m m' 16 S ∧
      StackView m' table S (stackImage args) := by
  obtain ⟨m1, hret1, hwrite1, h1⟩ := h.storeBytes (show 0x3F0000 ≤ 0x400000 - 80 by omega)
    (show 0x400000 - 80 + 80 ≤ 0x400000 by omega) args
  have hword : ∀ {m content} va value, StackView m table S content → 0x3F0000 ≤ va →
      va + 4 ≤ 0x400000 → ∃ m', m.store32 va value = .ok m' ∧ FileWritten m m' 16 S ∧
        StackView m' table S (setWord content va value) :=
    fun va value h hle hend => h.storeBytes hle hend (wordByte value)
  obtain ⟨m2, hret2, hwrite2, h2⟩ := hword (0x400000 - 84) 0 h1 (by omega) (by omega)
  obtain ⟨m3, hret3, hwrite3, h3⟩ := hword (0x400000 - 88) (0x400000 - 80) h2 (by omega) (by omega)
  obtain ⟨m4, hret4, hwrite4, h4⟩ := hword (0x400000 - 92) (0x400000 - 88) h3 (by omega) (by omega)
  obtain ⟨m5, hret5, hwrite5, h5⟩ := hword (0x400000 - 96) 1 h4 (by omega) (by omega)
  obtain ⟨m6, hret6, hwrite6, h6⟩ := hword (0x400000 - 100) 0 h5 (by omega) (by omega)
  refine ⟨m6, ?_, ?_, h6⟩
  · rw [pushArguments, hret1, ok_bind, hret2, ok_bind, hret3, ok_bind, hret4, ok_bind, hret5,
      ok_bind, hret6]
  · exact ((((hwrite1.trans hwrite2).trans hwrite3).trans hwrite4).trans hwrite5).trans
      hwrite6

end Quest.Proc
