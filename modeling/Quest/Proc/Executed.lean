import Quest.Proc.Stack

/-! The address space that a successful `_exec` leaves. -/
namespace Quest.Proc

open Quest.Lib Memory Quest.Mem Machine List

def Video (v : Nat) : Prop := 0x200 ≤ v ∧ v ≤ 0x20F

instance (v : Nat) : Decidable (Video v) := inferInstanceAs (Decidable (_ ∧ _))

def Idle (file : File) (F : Nat → Nat) (l : Loader) (k : Nat) : Prop :=
  l.machine.frames.Free k ∨ Unused F l.frameMap 0 file.pages k

/-- The machine after the last part of `_exec`, with the stack in the frames `S`. -/
structure Finished (file : File) (w : Windows) (F S : Nat → Nat) (args : Nat → UInt8) (l : Loader)
    (m' : Machine) : Prop where
  pdFrame : m'.pdFrame = l.machine.pdFrame
  kernFrame : m'.kernFrame = l.machine.kernFrame
  limit : m'.frames.mmLimit = l.machine.frames.mmLimit
  stack : StackView m' w.table S (stackImage args)
  dir : ∀ i < 1024, entry m'.mem l.machine.pdFrame i =
    if i = 1021 then 0 else entry l.machine.mem l.machine.pdFrame i
  video : ∀ v, Video v → entry m'.mem w.table v = videoEntry (v - 0x200)
  table : ∀ v < 1008, ¬Video v → entry m'.mem w.table v = entry l.machine.mem w.table v
  stackIdle : ∀ i < 16, Idle file F l (S i) ∧ S i < l.machine.frames.mmLimit
  free : ∀ k, m'.frames.Free k ↔ (Idle file F l k ∧ ∀ i < 16, S i ≠ k) ∨ w.framePtr = k
  mem : ∀ a, a / 4096 ≠ w.table → a / 4096 ≠ l.machine.pdFrame → (∀ i < 16, a / 4096 ≠ S i) →
    m'.mem a = l.machine.mem a

variable {m0 m m' m1 : Machine} {file : File} {w : Windows} {F S : Nat → Nat} {l : Loader}
  {placed : List (Nat × Source)} {taken : List Nat} {args : Nat → UInt8}
  {f fp i k v x : Nat}

theorem Frames.available_mono {f f' : Frames} (hlimit : f'.mmLimit = f.mmLimit)
    (hfree : ∀ k, f.Free k → f'.Free k) : f.available ≤ f'.available := by
  rw [Frames.available, Frames.available, hlimit]
  apply Finset.card_le_card
  intro k hk
  rw [Finset.mem_filter] at hk ⊢
  exact ⟨hk.1, hfree k hk.2⟩

theorem Placed.not_idle_dir (h : Placed m0 file w F placed taken l)
    (hapart : FramesApart l.machine.pdFrame w.framePtr file.pages F) :
    ¬Idle file F l l.machine.pdFrame := by
  rintro (hfree | ⟨j, _, hj, _, heq⟩)
  · exact (h.safe.shown _ (.inl rfl)).1 hfree
  · exact hapart.pd j (by omega) heq

theorem Placed.not_idle_table (h : Placed m0 file w F placed taken l) : ¬Idle file F l w.table := by
  rintro (hfree | ⟨j, _, hj, _, heq⟩)
  · exact h.table_used hfree
  · exact h.safe.table (.inr (.inr ⟨j, by omega, heq.symm⟩))

theorem finish_spec (args : Nat → UInt8) (h : Placed m0 file w F placed taken l)
    (hapart : FramesApart l.machine.pdFrame w.framePtr file.pages F)
    (hdir : entry l.machine.mem l.machine.pdFrame 0 = w.table * 4096 + 7)
    (havail : 16 ≤ l.machine.frames.available) :
    ∃ S m', finish w file (w.framePtr * 4096 + 3) args l = .ok m' ∧
      Finished file w F S args l m' := by
  have hpages := pages_le h.safe.view.small
  have htableDir : w.table ≠ l.machine.pdFrame := fun heq => h.safe.table (.inl heq)
  obtain ⟨frames, hret1, hlimit, hidle⟩ : ∃ frames : Frames,
      freeUnused w l.frameMap file.pages 0 l.machine = .ok (l.machine.setFrames frames) ∧
      frames.mmLimit = l.machine.frames.mmLimit ∧ ∀ k, frames.Free k ↔ Idle file F l k :=
    freeUnused_spec (by omega) fun j _ hj => h.safe.view.ptr j (by omega)
  obtain ⟨m1, hm1⟩ : ∃ m1, m1 = l.machine.setFrames frames := ⟨_, rfl⟩
  obtain ⟨hwrite2, hframes2, hvideo⟩ := mapVideo_spec m1 w.table (show 0 + 16 ≤ 16 by omega)
  obtain ⟨m2, hm2⟩ : ∃ m2, m2 = mapVideo w.table 16 0 m1 := ⟨_, rfl⟩
  rw [← hm2] at hwrite2 hframes2 hvideo
  have hfree2 : ∀ k, m2.frames.Free k ↔ Idle file F l k := by
    rw [hframes2, hm1]
    exact hidle
  have hlimit2 : m2.frames.mmLimit = l.machine.frames.mmLimit := by
    rw [hframes2, hm1]
    exact hlimit
  have havail2 : 16 ≤ m2.frames.available := Nat.le_trans havail
    (Frames.available_mono hlimit2 fun k hk => (hfree2 k).mpr (.inl hk))
  obtain ⟨S, m3, hret3, hwrite3, htook, hstack, hother⟩ :=
    mapStack_spec w.table (show 0 + 16 ≤ 16 by omega) havail2
  have hS : ∀ i < 16, S i ∈ (range' 0 16).map S := by
    intro i hi
    exact mem_map_of_mem (mem_range'_1.mpr ⟨Nat.zero_le i, by omega⟩)
  have hstackIdle : ∀ i < 16, Idle file F l (S i) ∧ S i < l.machine.frames.mmLimit := by
    intro i hi
    obtain ⟨hfree, hlt⟩ := htook.free _ (hS i hi)
    exact ⟨(hfree2 _).mp hfree, hlimit2 ▸ hlt⟩
  have hpd3 : m3.pdFrame = l.machine.pdFrame := by rw [hwrite3.pdFrame, hwrite2.pdFrame, hm1]; rfl
  have hapart' : FramesApart l.machine.pdFrame w.table 16 S := by
    refine ⟨fun i hi j hj heq => ?_, fun i hi heq => ?_, fun i hi heq => ?_⟩
    · exact inj_on_of_nodup_map htook.nodup (mem_range'_1.mpr ⟨Nat.zero_le i, by omega⟩)
        (mem_range'_1.mpr ⟨Nat.zero_le j, by omega⟩) heq
    · exact h.not_idle_dir hapart (heq ▸ (hstackIdle i hi).1)
    · exact h.not_idle_table (heq ▸ (hstackIdle i hi).1)
  have hmem3 : ∀ a, a / 4096 ≠ w.table → m3.mem a = l.machine.mem a := by
    intro a ha
    rw [hwrite3.mem a ha, hwrite2.mem a ha, hm1]
    rfl
  have hdir3 : ∀ i < 1024, entry m3.mem l.machine.pdFrame i =
      entry l.machine.mem l.machine.pdFrame i := fun i hi =>
    entry_congr (fun a ha => hmem3 a (by rw [ha]; exact htableDir.symm)) hi
  have hview3 : StackView m3 w.table S fun x => m3.mem (stackByte S x) :=
    ⟨hpd3.symm ▸ hapart', by rw [hpd3, hdir3 0 (by omega), hdir],
      fun i hi => hstack i (Nat.zero_le i) (by omega), fun _ _ _ => rfl⟩
  obtain ⟨m4, hret4, hwrite4, hview4⟩ := hview3.storeBytes (le_refl 0x3F0000)
    (show 0x3F0000 + 0x10000 ≤ 0x400000 by omega) fun _ => 0
  have hpd4 : m4.pdFrame = l.machine.pdFrame := hwrite4.pdFrame.trans hpd3
  obtain ⟨m5, hm5⟩ : ∃ m5, m5 = (m4.writeWord (l.machine.pdFrame * 4096 + 4 * 1021) 0).freePhysFrame
    (w.framePtr * 4096 + 3) := ⟨_, rfl⟩
  have hmem5 : ∀ a, a / 4096 ≠ l.machine.pdFrame → m5.mem a = m4.mem a := by
    intro a ha
    rw [hm5]
    exact mem_writeWord_off (by omega) ha
  have hdir5 : ∀ i < 1024, entry m5.mem l.machine.pdFrame i =
      if i = 1021 then 0 else entry l.machine.mem l.machine.pdFrame i := by
    intro i hi
    rw [← hdir3 i hi, ← hwrite4.entry_eq hapart'.pd hi, hm5, Machine.freePhysFrame, setFrames_mem,
      entry_writeWord (by omega) (by omega) hi]
    exact if_congr (and_iff_right rfl) rfl rfl
  have hview5 : StackView m5 w.table S fun _ => 0 := by
    refine hview4.congr (by rw [hm5]; rfl) ?_ (hpd4.symm ▸ hmem5) (hpd4.symm ▸ htableDir)
      fun x hle hlt => ?_
    · rw [hpd4, hdir5 0 (by omega), if_neg (by omega), hwrite4.entry_eq hapart'.pd (by omega),
        hdir3 0 (by omega)]
    · rw [blit_inside hle (by omega)]
  obtain ⟨m6, hret6, hwrite6, hview6⟩ := pushArguments_spec args hview5
  have htable6 : ∀ v < 1024, entry m6.mem w.table v = entry m3.mem w.table v := by
    intro v hv
    rw [hwrite6.entry_eq hapart'.ptr hv,
      entry_congr (fun a ha => hmem5 a (by rw [ha]; exact htableDir)) hv,
      hwrite4.entry_eq hapart'.ptr hv]
  refine ⟨S, m6, ?_, ?_, ?_, ?_, hview6, fun i hi => ?_, fun v hv => ?_, fun v hv hvideo' => ?_,
    hstackIdle, fun k => ?_, fun a htable hpd hS => ?_⟩
  · rw [finish, hret1, ok_bind, ← hm1, ← hm2]
    dsimp only
    rw [hret3, ok_bind, Machine.memset, hret4, ok_bind, hpd4, ← hm5, hret6]
  · rw [hwrite6.pdFrame, hm5]
    exact hpd4
  · rw [hwrite6.kernFrame, hm5]
    exact hwrite4.kernFrame.trans (hwrite3.kernFrame.trans (by rw [hwrite2.kernFrame, hm1]; rfl))
  · rw [hwrite6.frames, hm5]
    exact (congrArg Frames.mmLimit hwrite4.frames).trans (htook.limit.trans hlimit2)
  · rw [hwrite6.entry_eq hapart'.pd hi, hdir5 i hi]
  · obtain ⟨hle, hlt⟩ := hv
    rw [htable6 v (by omega), hother v (by omega) (by omega), hvideo v (by omega),
      if_pos (by omega)]
  · rw [Video] at hvideo'
    rw [htable6 v (by omega), hother v (by omega) (by omega), hvideo v (by omega),
      if_neg (by omega), hm1]
    rfl
  · rw [hwrite6.frames, hm5, Machine.freePhysFrame, setFrames_frames, Frames.free_freePhysFrame,
      Nat.shiftRight_eq_div_pow, show (w.framePtr * 4096 + 3) / 2 ^ 12 = w.framePtr by omega,
      writeWord_frames, hwrite4.frames, htook.free_iff, hfree2, or_comm]
    apply or_congr_left
    apply and_congr_right'
    simp only [mem_map, mem_range'_1, not_exists, not_and]
    exact ⟨fun hnot i hi => hnot i ⟨Nat.zero_le i, by omega⟩, fun hnot i hi => hnot i (by omega)⟩
  · rw [hwrite6.mem a hS, hmem5 a hpd, hwrite4.mem a hS, hmem3 a htable]

/-- There are frames for the frame page, the page table, the file, the other pages of the program,
and the stack. -/
def Roomy (m : Machine) (file : File) : Prop :=
  0 < m.frames.available ∧
    file.pages + freshCount file.image + 18 ≤ (dropSpace m).frames.available

def Holds (m : Machine) (table v : Nat) (bytes : Nat → UInt8) : Prop :=
  ∃ f, entry m.mem table v = f * 4096 + 7 ∧ ∀ o < 4096, m.mem (f * 4096 + o) = bytes o

def HoldsSource (m : Machine) (table : Nat) (file : File) (v : Nat) : Option Source → Prop
  | none => entry m.mem table v = 0
  | some src => Holds m table v (src.byte file)

/-- `_exec` has replaced the address space of `m` by the program in the file. -/
structure Executed (m m' : Machine) (file : File) (args : Nat → UInt8) (table : Nat) : Prop where
  pdFrame : m'.pdFrame = m.pdFrame
  kernFrame : m'.kernFrame = m.kernFrame
  limit : m'.frames.mmLimit = m.frames.mmLimit
  dir : ∀ i < 1024, entry m'.mem m.pdFrame i = if i = 0 then table * 4096 + 7 else
    if i < 1019 ∨ i = 1021 then 0 else entry m.mem m.pdFrame i
  video : ∀ v, Video v → entry m'.mem table v = videoEntry (v - 0x200)
  stack : ∀ v, 1008 ≤ v → v < 1024 → Holds m' table v fun o => stackImage args (v * 4096 + o)
  pages : ∀ v < 1008, ¬Video v → HoldsSource m' table file v (layout file.image v)

theorem File.Loads.whole (hfile : file.Loads) (h : (v, Source.file k) ∈ file.image) :
    (k + 1) * 4096 ≤ file.size := by
  rw [File.image, mem_flatMap] at h
  obtain ⟨p, hp, hmem⟩ := h
  rw [Phdr.placements, mem_append, mem_map, mem_map] at hmem
  obtain ⟨j, hj, heq⟩ | ⟨j, _, heq⟩ := hmem
  · rw [Prod.mk.injEq, Phdr.fileSource] at heq
    split at heq
    · exact absurd heq.2 (by simp)
    · have hlt := mem_range.mp hj
      have := (hfile.segments p hp).whole j (by omega)
      rw [Source.file.injEq] at heq
      rwa [heq.2] at this
  · simp at heq

theorem Placed.not_idle (h : Placed m0 file w F placed taken l)
    (hapart : FramesApart l.machine.pdFrame w.framePtr file.pages F) {src : Source}
    (hmem : (v, src) ∈ placed) (hbacked : Backed file w F l.machine src f) :
    ¬Idle file F l f ∧ f ≠ w.table ∧ f ≠ l.machine.pdFrame := by
  have hown : ¬l.machine.frames.Free f → f ≠ w.table →
      ¬Shown l.machine.pdFrame file w.framePtr F f →
      ¬Idle file F l f ∧ f ≠ w.table ∧ f ≠ l.machine.pdFrame := by
    intro hfree htable hshown
    refine ⟨?_, htable, fun heq => hshown (.inl heq)⟩
    rintro (hfree' | ⟨j, _, hj, _, heq⟩)
    · exact hfree hfree'
    · exact hshown (.inr (.inr ⟨j, by omega, heq.symm⟩))
  cases src with
  | file k =>
    obtain ⟨hk, rfl⟩ := hbacked
    have hshown : Shown l.machine.pdFrame file w.framePtr F (F k) := .inr (.inr ⟨k, hk, rfl⟩)
    refine ⟨?_, fun heq => h.safe.table (heq ▸ hshown), hapart.pd k hk⟩
    rintro (hfree | ⟨j, _, hj, hmap, heq⟩)
    · exact (h.safe.shown _ hshown).1 hfree
    · obtain rfl := hapart.inj j (by omega) k hk heq
      rw [(h.frameMap j).mpr ⟨v, hmem⟩] at hmap
      exact absurd hmap (by simp)
  | tail k rest | zero => exact hown hbacked.1 hbacked.2.1 hbacked.2.2.1

theorem Placed.bytes (hfile : file.Loads) (h : Placed m0 file w F file.image taken l) {src : Source}
    (hmem : (v, src) ∈ file.image) (hbacked : Backed file w F l.machine src f) {o : Nat}
    (ho : o < 4096) : l.machine.mem (f * 4096 + o) = src.byte file o := by
  cases src with
  | file k =>
    obtain ⟨hk, rfl⟩ := hbacked
    have hwhole := hfile.whole hmem
    have hbyte := h.safe.view.bytes (k * 4096 + o) (by omega)
    rwa [show (k * 4096 + o) / 4096 = k by omega, show (k * 4096 + o) % 4096 = o by omega] at hbyte
  | tail k rest | zero => exact hbacked.2.2.2 o ho

theorem Finished.pages (hfile : file.Loads) (h : Placed m0 file w F file.image taken l)
    (hapart : FramesApart l.machine.pdFrame w.framePtr file.pages F)
    (hfin : Finished file w F S args l m') (hv : v < 1008) (hvideo : ¬Video v) :
    HoldsSource m' w.table file v (layout file.image v) := by
  have hshows := h.shows v (by omega)
  have hentry := hfin.table v hv hvideo
  cases hlayout : layout file.image v with
  | none =>
    rw [hlayout] at hshows
    exact hentry.trans hshows
  | some src =>
    rw [hlayout] at hshows
    obtain ⟨f, hf, hbacked⟩ := hshows
    have hmem := mem_of_layout hlayout
    obtain ⟨hidle, htable, hpd⟩ := h.not_idle hapart hmem hbacked
    refine ⟨f, hentry.trans hf, fun o ho => ?_⟩
    have hdiv : (f * 4096 + o) / 4096 = f := by omega
    rw [hfin.mem _ (hdiv.symm ▸ htable) (hdiv.symm ▸ hpd), h.bytes hfile hmem hbacked ho]
    intro i hi heq
    rw [hdiv] at heq
    exact hidle (heq ▸ (hfin.stackIdle i hi).1)

theorem StackView.holds {content : Nat → UInt8} {table : Nat} (h : StackView m table S content)
    (hle : 1008 ≤ v) (hlt : v < 1024) : Holds m table v fun o => content (v * 4096 + o) := by
  have hpage := h.pages (1023 - v) (by omega)
  rw [show 1023 - (1023 - v) = v by omega] at hpage
  refine ⟨S (1023 - v), hpage, fun o ho => ?_⟩
  dsimp only
  rw [← h.bytes _ (by omega) (by omega), stackByte, show (v * 4096 + o) / 4096 = v by omega,
    show (v * 4096 + o) % 4096 = o by omega]

theorem ImageRead.dir_placed (h : ImageRead m m1 file w F)
    (hplaced : Placed m1 file w F placed taken l) (hi : i < 1024) :
    entry l.machine.mem m.pdFrame i = entry m1.mem m.pdFrame i := by
  apply entry_congr _ hi
  intro a ha
  apply hplaced.mem a
  · rw [ha]
    exact fun hfree => h.dirUsed ((h.took.free_iff _).mp hfree).1
  · rw [ha]
    exact h.table_ne_dir.symm

theorem replaceSpace_steps (args : Nat → UInt8) (hready : Ready m)
    (hused : ¬(dropSpace m).frames.Free fp) (hdir : fp ≠ m.pdFrame) (hfp : fp < m.frames.mmLimit)
    (hfile : file.Loads) (hread : file.read = file.dir)
    (havail : file.pages + freshCount file.image + 17 ≤ (dropSpace m).frames.available) :
    ∃ m' w F m1 l taken S, replaceSpace m file (fp * 4096 + 3) args = .ok ⟨0, m', [0x00230023,
      0x00230023, word file.bytes 24, 0x1B, 0x3202, 0x400000 - 100, 0x23]⟩ ∧ w.framePtr = fp ∧
      ImageRead m m1 file w F ∧ Placed m1 file w F file.image taken l ∧
      Finished file w F S args l m' := by
  have hlimit := hready.limit
  have himage := readImage_spec hready hused hdir (by omega) hfile.small (by omega) hread.le
  rw [if_pos hread] at himage
  obtain ⟨w, F, m1, hret1, hw, h⟩ := himage
  have hcount := h.took.available
  rw [length_cons, length_map, length_range] at hcount
  have htableUsed : ¬m1.frames.Free w.table := fun hfree =>
    ((h.took.free_iff _).mp hfree).2 mem_cons_self
  obtain ⟨l, taken, hret2, hplaced⟩ :=
    loadImage_placed hfile (h.safe hready (hw ▸ hfp)) htableUsed h.table (by omega)
  have hpd : l.machine.pdFrame = m.pdFrame := hplaced.pdFrame.trans h.pdFrame
  have hcount' := hplaced.took.available
  rw [hplaced.count] at hcount'
  obtain ⟨S, m', hret3, hfin⟩ := finish_spec args hplaced (hpd.symm ▸ h.framesApart)
    (by rw [hpd, h.dir_placed hplaced (by omega), h.first]) (by omega)
  refine ⟨m', w, F, m1, l, taken, S, ?_, hw, h, hplaced, hfin⟩
  rw [replaceSpace, hret1, ok_bind]
  dsimp only
  rw [hret2, ok_bind]
  dsimp only
  rw [← hw, hret3, ok_bind]

theorem replaceSpace_executed (hready : Ready m) (h : ImageRead m m1 file w F) (hfile : file.Loads)
    (hplaced : Placed m1 file w F file.image taken l) (hfin : Finished file w F S args l m') :
    Executed m m' file args w.table := by
  have hpd : l.machine.pdFrame = m.pdFrame := hplaced.pdFrame.trans h.pdFrame
  have hapart : FramesApart l.machine.pdFrame w.framePtr file.pages F := hpd.symm ▸ h.framesApart
  refine ⟨hfin.pdFrame.trans hpd, ?_, ?_, fun i hi => ?_, hfin.video,
    fun v hle hlt => hfin.stack.holds hle hlt,
    fun v hv hvideo => hfin.pages hfile hplaced hapart hv hvideo⟩
  · rw [hfin.kernFrame, hplaced.kernFrame, h.kernFrame]
  · rw [hfin.limit, hplaced.took.limit, h.took.limit, hready.dropSpace.limit]
  · have hentry := hfin.dir i hi
    rw [hpd, h.dir_placed hplaced hi] at hentry
    rw [hentry]
    by_cases hfirst : i = 0
    · rw [hfirst, if_neg (by omega), if_pos rfl, h.first]
    · rw [if_neg hfirst]
      by_cases hwindow : i = 1021
      · rw [if_pos hwindow, if_pos (.inr hwindow)]
      · rw [if_neg hwindow, h.dir i hi hfirst hwindow]
        exact if_congr (by omega) rfl rfl

theorem exec_steps (arg stale : Nat → UInt8) (hready : Ready m) (hroomy : Roomy m file)
    (hfile : file.Loads) (hdir : 0 ≤ file.dir) (hread : file.read = file.dir) :
    ∃ fp m' w F m1 l taken S, exec m file (some arg) stale = .ok ⟨0, m', [0x00230023, 0x00230023,
      word file.bytes 24, 0x1B, 0x3202, 0x400000 - 100, 0x23]⟩ ∧ m.frames.Free fp ∧
      fp < m.frames.mmLimit ∧ w.framePtr = fp ∧
      ImageRead (m.setFrames (m.frames.clr fp 1)) m1 file w F ∧
      Placed m1 file w F file.image taken l ∧
      Finished file w F S (strncpy stale arg 80) l m' := by
  obtain ⟨hframe, havail⟩ := hroomy
  obtain ⟨fp, hfree, hlt, halloc⟩ := allocPhysFrame_available hframe
  have htook := hready.took_dropSpace hfree hlt
  have hcount := htook.available
  rw [length_singleton] at hcount
  have hused : ¬(dropSpace (m.setFrames (m.frames.clr fp 1))).frames.Free fp := fun hfree' =>
    ((htook.free_iff fp).mp hfree').2 (mem_singleton_self fp)
  have hfp : fp ≠ m.pdFrame := fun heq => hready.dir (heq ▸ hfree)
  obtain ⟨m', w, F, m1, l, taken, S, hret, hsteps⟩ := replaceSpace_steps (strncpy stale arg 80)
    hready.takeFrame hused hfp hlt hfile hread (by omega)
  refine ⟨fp, m', w, F, m1, l, taken, S, ?_, hfree, hlt, hsteps⟩
  rw [exec, halloc, ok_bind]
  dsimp only
  rw [or_three, if_neg (by omega), hret]

theorem exec_executed (arg stale : Nat → UInt8) (hready : Ready m) (hroomy : Roomy m file)
    (hfile : file.Loads) (hdir : 0 ≤ file.dir) (hread : file.read = file.dir) :
    ∃ m' table, exec m file (some arg) stale = .ok ⟨0, m', [0x00230023, 0x00230023,
      word file.bytes 24, 0x1B, 0x3202, 0x400000 - 100, 0x23]⟩ ∧
      Executed m m' file (strncpy stale arg 80) table := by
  obtain ⟨fp, m', w, F, m1, l, taken, S, hret, _, _, _, himage, hplaced, hfin⟩ :=
    exec_steps arg stale hready hroomy hfile hdir hread
  have h := replaceSpace_executed hready.takeFrame himage hfile hplaced hfin
  exact ⟨m', w.table, hret, h.pdFrame, h.kernFrame, h.limit, h.dir, h.video, h.stack, h.pages⟩

end Quest.Proc
