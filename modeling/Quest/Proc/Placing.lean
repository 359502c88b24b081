import Quest.Proc.Bounds

/-! What the pages of the new address space hold while the program is loaded. -/
namespace Quest.Proc

open Quest.Lib Memory Quest.Mem Machine List Function

def Source.fresh : Source → Bool
  | .file _ => false
  | .tail _ _ => true
  | .zero => true

def freshCount (placed : List (Nat × Source)) : Nat := placed.countP fun p => p.2.fresh

@[simp] theorem freshCount_append (placed placed' : List (Nat × Source)) :
    freshCount (placed ++ placed') = freshCount placed + freshCount placed' := by
  simp [freshCount]

theorem layout_append (placed : List (Nat × Source)) (v : Nat) (src : Source) :
    layout (placed ++ [(v, src)]) = update (layout placed) v (some src) := by
  simp [layout]

theorem mem_of_layout {placed : List (Nat × Source)} {v : Nat} {src : Source}
    (h : layout placed v = some src) : (v, src) ∈ placed := by
  induction placed using reverseRecOn with
  | nil => simp [layout] at h
  | append_singleton placed q ih =>
    obtain ⟨v', src'⟩ := q
    rw [layout_append] at h
    rw [mem_append]
    by_cases heq : v = v'
    · rw [heq, update_self, Option.some_inj] at h
      simp [heq, h]
    · rw [update_of_ne heq] at h
      exact .inl (ih h)

theorem layout_of_mem {placed : List (Nat × Source)} {v : Nat} {src : Source}
    (hnodup : (placed.map Prod.fst).Nodup) (hmem : (v, src) ∈ placed) :
    layout placed v = some src := by
  induction placed using reverseRecOn with
  | nil => exact absurd hmem not_mem_nil
  | append_singleton placed q ih =>
    obtain ⟨v', src'⟩ := q
    rw [map_append, nodup_append] at hnodup
    obtain ⟨hbefore, _, hapart⟩ := hnodup
    rw [layout_append]
    obtain hmem | hmem := mem_append.mp hmem
    · have hne : v ≠ v' := hapart v (mem_map_of_mem (f := Prod.fst) hmem) v' (by simp)
      rw [update_of_ne hne, ih hbefore hmem]
    · rw [mem_singleton, Prod.mk.injEq] at hmem
      rw [hmem.1, hmem.2, update_self]

/-- Frame `f` holds `src`: it is the frame of that page of the file, or has the contents. -/
def Backed (file : File) (w : Windows) (F : Nat → Nat) (m : Machine) : Source → Nat → Prop
  | .file k, f => k < file.pages ∧ f = F k
  | src, f => ¬m.frames.Free f ∧ f ≠ w.table ∧ ¬Shown m.pdFrame file w.framePtr F f ∧
      ∀ o < 4096, m.mem (f * 4096 + o) = src.byte file o

/-- Page `v` of the table is empty, or shows a frame that holds the source. -/
def Shows (file : File) (w : Windows) (F : Nat → Nat) (m : Machine) (v : Nat) :
    Option Source → Prop
  | none => entry m.mem w.table v = 0
  | some src => ∃ f, entry m.mem w.table v = f * 4096 + 7 ∧ Backed file w F m src f

structure Placed (m0 : Machine) (file : File) (w : Windows) (F : Nat → Nat)
    (placed : List (Nat × Source)) (taken : List Nat) (l : Loader) : Prop where
  safe : Safe file w F l.machine
  pdFrame : l.machine.pdFrame = m0.pdFrame
  kernFrame : l.machine.kernFrame = m0.kernFrame
  took : m0.frames.Took l.machine.frames taken
  count : taken.length = freshCount placed
  tableUsed : ¬m0.frames.Free w.table
  shows : ∀ v < 1024, Shows file w F l.machine v (layout placed v)
  frameMap : ∀ k, l.frameMap k = true ↔ ∃ v, (v, Source.file k) ∈ placed
  own : (placed.map Prod.fst).Nodup →
    ∀ f ∈ taken, ∃ v < 1024, entry l.machine.mem w.table v = f * 4096 + 7
  pages : ∀ v < 1024, ∀ f, entry l.machine.mem w.table v = f * 4096 + 7 →
    f ∈ taken ∨ ∃ k < file.pages, f = F k
  mem : ∀ a, ¬m0.frames.Free (a / 4096) → a / 4096 ≠ w.table → l.machine.mem a = m0.mem a

variable {m0 m m' : Machine} {file : File} {w : Windows} {F : Nat → Nat} {l : Loader} {p : Phdr}
  {placed : List (Nat × Source)} {taken : List Nat} {src : Source} {f i j k n v pph : Nat}

theorem Backed.congr (h : Backed file w F m src f) (hpd : m'.pdFrame = m.pdFrame)
    (hused : ∀ k, ¬m.frames.Free k → ¬m'.frames.Free k)
    (hmem : ∀ a, ¬m.frames.Free (a / 4096) → a / 4096 ≠ w.table → m'.mem a = m.mem a) :
    Backed file w F m' src f := by
  have hown : ∀ {src : Source}, (¬m.frames.Free f ∧ f ≠ w.table ∧
      ¬Shown m.pdFrame file w.framePtr F f ∧ ∀ o < 4096, m.mem (f * 4096 + o) = src.byte file o) →
      ¬m'.frames.Free f ∧ f ≠ w.table ∧ ¬Shown m'.pdFrame file w.framePtr F f ∧
        ∀ o < 4096, m'.mem (f * 4096 + o) = src.byte file o := by
    rintro src ⟨hfree, htable, hshown, hbytes⟩
    refine ⟨hused f hfree, htable, hpd ▸ hshown, fun o ho => ?_⟩
    have hdiv : (f * 4096 + o) / 4096 = f := by omega
    rw [hmem _ (hdiv.symm ▸ hfree) (hdiv.symm ▸ htable), hbytes o ho]
  cases src with
  | file k => exact h
  | tail k rest => exact hown h
  | zero => exact hown h

structure EntrySet (w : Windows) (m m' : Machine) (v f : Nat) : Prop where
  pdFrame : m'.pdFrame = m.pdFrame
  kernFrame : m'.kernFrame = m.kernFrame
  table : ∀ i < 1024, entry m'.mem w.table i = if i = v then f * 4096 + 7 else entry m.mem w.table i
  mem : ∀ a, ¬m.frames.Free (a / 4096) → a / 4096 ≠ w.table → m'.mem a = m.mem a

namespace Placed

section

variable (h : Placed m0 file w F placed taken l)
include h

theorem table_used : ¬l.machine.frames.Free w.table :=
  fun hfree => h.tableUsed ((h.took.free_iff _).mp hfree).1

theorem entrySet_safe (hset : EntrySet w l.machine m' v f)
    (hused : ∀ k, ¬l.machine.frames.Free k → ¬m'.frames.Free k) : Safe file w F m' := by
  refine ⟨h.safe.size, h.safe.view.congr hset.pdFrame fun a ha => ?_, fun k hk => ?_, ?_⟩
  · apply hset.mem a (h.safe.shown _ ha).1
    intro heq
    exact h.safe.table (heq ▸ ha)
  · rw [hset.pdFrame] at hk
    exact ⟨hused k (h.safe.shown k hk).1, (h.safe.shown k hk).2⟩
  · rw [hset.pdFrame]
    exact h.safe.table

theorem entrySet_shows (hset : EntrySet w l.machine m' v f)
    (hused : ∀ k, ¬l.machine.frames.Free k → ¬m'.frames.Free k) (hbacked : Backed file w F m' src f) :
    ∀ i < 1024, Shows file w F m' i (layout (placed ++ [(v, src)]) i) := by
  intro i hi
  rw [layout_append]
  by_cases heq : i = v
  · rw [heq, update_self]
    exact ⟨f, by rw [hset.table v (heq ▸ hi), if_pos rfl], hbacked⟩
  · rw [update_of_ne heq]
    have hold := h.shows i hi
    have hentry := hset.table i hi
    rw [if_neg heq] at hentry
    cases hlayout : layout placed i with
    | none =>
      rw [hlayout] at hold
      exact hentry.trans hold
    | some src' =>
      rw [hlayout] at hold
      obtain ⟨g, hg, hback⟩ := hold
      exact ⟨g, hentry.trans hg, hback.congr hset.pdFrame hused hset.mem⟩

theorem mem_of_entry (hv : v < 1024)
    (hentry : entry l.machine.mem w.table v = f * 4096 + 7) : v ∈ placed.map Prod.fst := by
  have hshows := h.shows v hv
  cases hlayout : layout placed v with
  | none =>
    rw [hlayout, Shows, hentry] at hshows
    omega
  | some src => exact mem_map_of_mem (f := Prod.fst) (mem_of_layout hlayout)

section

variable (hset : EntrySet w l.machine m' v f)
include hset

theorem entrySet_own
    (hnodup : ((placed ++ [(v, src)]).map Prod.fst).Nodup) :
    ∀ g ∈ taken, ∃ i < 1024, entry m'.mem w.table i = g * 4096 + 7 := by
  rw [map_append, nodup_append] at hnodup
  obtain ⟨hbefore, _, hapart⟩ := hnodup
  intro g hg
  obtain ⟨i, hi, hentry⟩ := h.own hbefore g hg
  have hne : i ≠ v := hapart i (h.mem_of_entry hi hentry) v (by simp)
  exact ⟨i, hi, by rw [hset.table i hi, if_neg hne, hentry]⟩

theorem entrySet_pages
    {taken' : List Nat} (hsub : taken ⊆ taken') (hf : f ∈ taken' ∨ ∃ k < file.pages, f = F k) :
    ∀ i < 1024, ∀ g, entry m'.mem w.table i = g * 4096 + 7 →
      g ∈ taken' ∨ ∃ k < file.pages, g = F k := by
  intro i hi g hentry
  rw [hset.table i hi] at hentry
  split at hentry
  · obtain rfl : f = g := by omega
    exact hf
  · exact (h.pages i hi g hentry).imp_left (hsub ·)

theorem entrySet_mem :
    ∀ a, ¬m0.frames.Free (a / 4096) → a / 4096 ≠ w.table → m'.mem a = m0.mem a := by
  intro a hfree htable
  have hused : ¬l.machine.frames.Free (a / 4096) := fun hfree' =>
    hfree ((h.took.free_iff _).mp hfree').1
  rw [hset.mem a hused htable, h.mem a hfree htable]

end

theorem addFresh (hfree : l.machine.frames.Free k)
    (hlt : k < l.machine.frames.mmLimit) (hv : v < 1024) (hsrc : src.fresh = true)
    (hset : EntrySet w l.machine m' v k) (hframes : m'.frames = l.machine.frames.clr k 1)
    (hpage : ∀ o < 4096, m'.mem (k * 4096 + o) = src.byte file o) :
    Placed m0 file w F (placed ++ [(v, src)]) (taken ++ [k]) ⟨m', l.frameMap⟩ := by
  have hused : ∀ f, ¬l.machine.frames.Free f → ¬m'.frames.Free f := by
    rw [hframes]
    exact fun f hf hfree' => hf (Frames.free_clr.mp hfree').1
  have hown : ¬m'.frames.Free k ∧ k ≠ w.table ∧ ¬Shown m'.pdFrame file w.framePtr F k ∧
      ∀ o < 4096, m'.mem (k * 4096 + o) = src.byte file o := by
    refine ⟨?_, fun heq => h.table_used (heq ▸ hfree), ?_, hpage⟩
    · rw [hframes, Frames.free_clr]
      omega
    · rw [hset.pdFrame]
      exact fun hshown => (h.safe.shown k hshown).1 hfree
  have hbacked : Backed file w F m' src k := by
    cases src with
    | file k' => exact absurd hsrc Bool.false_ne_true
    | tail k' rest => exact hown
    | zero => exact hown
  refine ⟨h.entrySet_safe hset hused, hset.pdFrame.trans h.pdFrame,
    hset.kernFrame.trans h.kernFrame, ?_, ?_, h.tableUsed, h.entrySet_shows hset hused hbacked,
    fun k' => ?_, fun hnodup g hg => ?_,
    h.entrySet_pages hset (subset_append_left _ _) (.inl (by simp)), h.entrySet_mem hset⟩
  · rw [hframes]
    exact h.took.append (Frames.took_clr hfree hlt)
  · rw [freshCount_append, length_append, h.count]
    simp [freshCount, hsrc]
  · rw [h.frameMap]
    have hne : src ≠ .file k' := by
      rintro rfl
      exact absurd hsrc Bool.false_ne_true
    simp [hne.symm]
  · obtain hg | hg := mem_append.mp hg
    · exact h.entrySet_own hset hnodup g hg
    · obtain rfl := mem_singleton.mp hg
      exact ⟨v, hv, by rw [hset.table v hv, if_pos rfl]⟩

theorem addFile (hk : k < file.pages)
    (hset : EntrySet w l.machine m' v (F k)) (hframes : m'.frames = l.machine.frames) :
    Placed m0 file w F (placed ++ [(v, .file k)]) taken
      ⟨m', update l.frameMap k true⟩ := by
  have hused : ∀ f, ¬l.machine.frames.Free f → ¬m'.frames.Free f := by
    rw [hframes]
    exact fun f hf => hf
  refine ⟨h.entrySet_safe hset hused, hset.pdFrame.trans h.pdFrame,
    hset.kernFrame.trans h.kernFrame, ?_, ?_, h.tableUsed,
    h.entrySet_shows hset hused (show Backed file w F m' (.file k) (F k) from ⟨hk, rfl⟩),
    fun k' => ?_, fun hnodup => h.entrySet_own hset hnodup,
    h.entrySet_pages hset (List.Subset.refl _) (.inr ⟨k, hk, rfl⟩), h.entrySet_mem hset⟩
  · rw [hframes]
    exact h.took
  · rw [freshCount_append, h.count]
    simp [freshCount, Source.fresh]
  · by_cases heq : k' = k
    · simp [heq]
    · simp [h.frameMap, heq]

end

theorem start (h : Safe file w F m0) (hused : ¬m0.frames.Free w.table)
    (htable : ∀ v < 1024, entry m0.mem w.table v = 0) :
    Placed m0 file w F [] [] ⟨m0, fun _ => false⟩ where
  safe := h
  pdFrame := rfl
  kernFrame := rfl
  took := .nil _
  count := rfl
  tableUsed := hused
  shows := htable
  frameMap k := by simp
  own _ f hf := absurd hf not_mem_nil
  pages v hv f hentry := by
    rw [htable v hv] at hentry
    omega
  mem _ _ _ := rfl

theorem available (h : Placed m0 file w F placed taken l)
    (havail : freshCount placed < m0.frames.available) : 0 < l.machine.frames.available := by
  have := h.took.available
  have := h.count
  omega

end Placed

theorem entrySet_writeWord (hv : v < 1024) (hf : f < 2 ^ 20) :
    EntrySet w m (m.writeWord (w.table * 4096 + 4 * v) (f * 4096 + 7)) v f := by
  refine ⟨rfl, rfl, fun i hi => ?_, fun a _ ha => mem_writeWord_off hv ha⟩
  rw [entry_writeWord (by omega) hv hi]
  exact if_congr (and_iff_right rfl) rfl rfl

section

variable (h : Placed m0 file w F placed taken l)
include h

theorem mapLastPage_placed (hoff : p.offset < 2 ^ 32)
    (hprev : 0 < j → j - 1 + p.offset / 4096 < 1024) (hlast : j + 1 = p.fileCount)
    (hfits : PageFits file.size p j) (havail : freshCount placed < m0.frames.available) :
    ∃ l' taken', mapLastPage w p.offset p.vaddr p.filesz j l = .ok l' ∧
      Placed m0 file w F (placed ++ [(p.vaddr / 4096 + j, p.fileSource j)]) taken' l' := by
  obtain ⟨k, hfree, hlt, halloc⟩ := allocPhysFrame_available (h.available havail)
  have hk : k < 2 ^ 20 := lt_of_lt_of_le hlt l.machine.frames.mmLimit_le
  have hkt : k ≠ w.table := fun heq => h.table_used (heq ▸ hfree)
  have hshown : ¬Shown l.machine.pdFrame file w.framePtr F k := fun hshown =>
    (h.safe.shown k hshown).1 hfree
  rw [PageFits, if_pos hlast] at hfits
  have hview : FileView (l.machine.setFrames (l.machine.frames.clr k 1)) file w.framePtr F :=
    h.safe.view.congr rfl fun a _ => rfl
  have hX : (p.offset / 4096 + j) * 4096 < 2 ^ 32 := by omega
  have heq : mapLastPage w p.offset p.vaddr p.filesz j l = _ :=
    mapLastPage_eq h.safe.size halloc hview (by rw [frameOf_shiftLeft]; exact hshown) hX
  rw [frameOf_shiftLeft, or_seven] at heq
  refine ⟨_, taken ++ [k], heq.trans (if_pos hfits), ?_⟩
  have hsrc : p.fileSource j = .tail (p.offset / 4096 + j) p.rest := if_pos hlast
  rw [hsrc]
  refine h.addFresh hfree hlt hfits.2 rfl ⟨rfl, rfl, fun i hi => ?_, fun a hused htable => ?_⟩ rfl
    fun o ho => ?_
  · rw [(entrySet_writeWord hfits.2 hk).table i hi, entry_writePage_off hkt.symm hi, setFrames_mem]
  · rw [mem_writeWord_off hfits.2 htable, mem_writePage, if_neg, setFrames_mem]
    exact fun heq => hused (heq ▸ hfree)
  · have hdiv : (k * 4096 + o) / 4096 = k := by omega
    rw [mem_writeWord_off hfits.2 (hdiv.symm ▸ hkt), mem_writePage, if_pos hdiv,
      show (k * 4096 + o) % 4096 = o by omega]
    rfl

theorem mapZeroPage_placed {vaddr : Nat}
    (hv : vaddr / 4096 + j < 1024) (havail : freshCount placed < m0.frames.available) :
    ∃ l' taken', mapZeroPage w vaddr j l = .ok l' ∧
      Placed m0 file w F (placed ++ [(vaddr / 4096 + j, .zero)]) taken' l' := by
  obtain ⟨k, hfree, hlt, halloc⟩ := allocPhysFrame_available (h.available havail)
  have hk : k < 2 ^ 20 := lt_of_lt_of_le hlt l.machine.frames.mmLimit_le
  have hkt : k ≠ w.table := fun heq => h.table_used (heq ▸ hfree)
  have heq : mapZeroPage w vaddr j l = _ := mapZeroPage_eq halloc
  rw [frameOf_shiftLeft, or_seven] at heq
  refine ⟨_, taken ++ [k], heq.trans (if_pos hv), ?_⟩
  refine h.addFresh hfree hlt hv rfl ⟨rfl, rfl, fun i hi => ?_, fun a hused htable => ?_⟩ rfl
    fun o ho => ?_
  · rw [entry_writePage_off hkt.symm hi, (entrySet_writeWord hv hk).table i hi, setFrames_mem]
  · rw [mem_writePage, if_neg, mem_writeWord_off hv htable, setFrames_mem]
    exact fun heq => hused (heq ▸ hfree)
  · rw [mem_writePage, if_pos (by omega)]
    rfl

theorem mapFilePage_placed (hsrc : j + 1 ≠ p.fileCount)
    (hfits : PageFits file.size p j) (hk : j + p.offset / 4096 < file.pages) :
    ∃ l', mapFilePage w p.offset p.vaddr j l = .ok l' ∧
      Placed m0 file w F (placed ++ [(p.vaddr / 4096 + j, p.fileSource j)]) taken l' := by
  rw [PageFits, if_neg hsrc] at hfits
  refine ⟨_, mapFilePage_eq.trans (if_pos hfits), ?_⟩
  have hentry := h.safe.view.ptr _ hk
  have hlt : F (j + p.offset / 4096) < 2 ^ 20 := by
    have := entry_lt l.machine.mem w.framePtr (j + p.offset / 4096)
    omega
  have hor : F (j + p.offset / 4096) * 4096 + 3 ||| 7 = F (j + p.offset / 4096) * 4096 + 7 := by
    rw [← or_three, ← or_seven, Nat.or_assoc]
    rfl
  have hsource : p.fileSource j = .file (j + p.offset / 4096) := if_neg hsrc
  rw [hentry, hor, hsource]
  exact h.addFile hk (entrySet_writeWord hfits.2 hlt) rfl

end

def Phdr.filePages (p : Phdr) (j n : Nat) : List (Nat × Source) :=
  (List.range' j n).map fun j => (p.vaddr / 4096 + j, p.fileSource j)

theorem Phdr.filePages_succ : p.filePages j (n + 1) =
    [(p.vaddr / 4096 + j, p.fileSource j)] ++ p.filePages (j + 1) n := by
  simp [filePages, range'_succ]

theorem mapPages_placed (h : Placed m0 file w F placed taken l) (hoff : p.offset < 2 ^ 32)
    (hcount : j + n = p.fileCount) (hfits : ∀ i < p.fileCount, PageFits file.size p i)
    (hfile : ∀ i, i + 1 < p.fileCount → i + p.offset / 4096 < file.pages)
    (havail : freshCount (placed ++ p.filePages j n) ≤ m0.frames.available) :
    ∃ l' taken', mapPages w p.offset p.vaddr p.filesz p.fileCount n j l = .ok l' ∧
      Placed m0 file w F (placed ++ p.filePages j n) taken' l' := by
  induction n generalizing j l placed taken with
  | zero =>
    refine ⟨l, taken, rfl, ?_⟩
    simpa [Phdr.filePages] using h
  | succ n ih =>
    have hpage : ∃ l' taken', mapPage w p.offset p.vaddr p.filesz p.fileCount j l = .ok l' ∧
        Placed m0 file w F (placed ++ [(p.vaddr / 4096 + j, p.fileSource j)]) taken' l' := by
      rw [mapPage]
      split
      · rename_i hlast
        refine mapLastPage_placed h hoff (fun hj => ?_) hlast (hfits j (by omega)) ?_
        · have hprev := hfits (j - 1) (by omega)
          rw [PageFits, if_neg (by omega)] at hprev
          exact hprev.1
        · have hsrc : (p.fileSource j).fresh = true := by rw [Phdr.fileSource, if_pos hlast]; rfl
          rw [Phdr.filePages_succ, freshCount_append, freshCount_append] at havail
          have hone : freshCount [(p.vaddr / 4096 + j, p.fileSource j)] = 1 := by
            simp [freshCount, hsrc]
          omega
      · rename_i hlast
        obtain ⟨l', hret, hplaced⟩ :=
          mapFilePage_placed h hlast (hfits j (by omega)) (hfile j (by omega))
        exact ⟨l', taken, hret, hplaced⟩
    obtain ⟨l1, taken1, hret, hplaced⟩ := hpage
    rw [Phdr.filePages_succ, ← append_assoc] at havail ⊢
    obtain ⟨l', taken', hret', hplaced'⟩ := ih hplaced (by omega) havail
    exact ⟨l', taken', by rw [mapPages, hret, ok_bind, hret'], hplaced'⟩

def zeroPages (vaddr j n : Nat) : List (Nat × Source) :=
  (List.range' j n).map fun j => (vaddr / 4096 + j, .zero)

theorem mapZeroPages_placed (h : Placed m0 file w F placed taken l) {vaddr : Nat}
    (hv : ∀ i, j ≤ i → i < j + n → vaddr / 4096 + i < 1024)
    (havail : freshCount (placed ++ zeroPages vaddr j n) ≤ m0.frames.available) :
    ∃ l' taken', mapZeroPages w vaddr n j l = .ok l' ∧
      Placed m0 file w F (placed ++ zeroPages vaddr j n) taken' l' := by
  induction n generalizing j l placed taken with
  | zero =>
    refine ⟨l, taken, rfl, ?_⟩
    simpa [zeroPages] using h
  | succ n ih =>
    have hsplit : zeroPages vaddr j (n + 1) =
        [(vaddr / 4096 + j, .zero)] ++ zeroPages vaddr (j + 1) n := by
      simp [zeroPages, range'_succ]
    rw [hsplit, ← append_assoc] at havail ⊢
    have hone : freshCount [(vaddr / 4096 + j, Source.zero)] = 1 := rfl
    have havail1 : freshCount placed < m0.frames.available := by
      rw [freshCount_append, freshCount_append] at havail
      omega
    obtain ⟨l1, taken1, hret, hplaced⟩ := mapZeroPage_placed h (hv j le_rfl (by omega)) havail1
    obtain ⟨l', taken', hret', hplaced'⟩ :=
      ih hplaced (fun i hle hlt => hv i (by omega) (by omega)) havail
    exact ⟨l', taken', by rw [mapZeroPages, hret, ok_bind, hret'], hplaced'⟩

theorem Phdr.placements_eq : p.placements =
    p.filePages 0 p.fileCount ++ zeroPages p.vaddr p.fileCount (p.memCount - p.fileCount) := by
  rw [Phdr.placements, range_eq_range']
  rfl

structure Phdr.Loads (file : File) (p : Phdr) : Prop where
  aligned : p.offset % 4096 = p.vaddr % 4096
  fits : p.Fits file.size
  whole : ∀ i, i + 1 < p.fileCount → (i + p.offset / 4096 + 1) * 4096 ≤ file.size

theorem loadSegment_placed (h : Placed m0 file w F placed taken l) (hpph : pe ≤ pph)
    (hin : pph + 24 ≤ pe + file.size) (hloads : (file.phdr (pph - pe)).Loads file)
    (havail : freshCount (placed ++ (file.phdr (pph - pe)).placements) ≤ m0.frames.available) :
    ∃ l' taken', loadSegment w pph l = .ok l' ∧
      Placed m0 file w F (placed ++ (file.phdr (pph - pe)).placements) taken' l' := by
  obtain ⟨p, hp⟩ : ∃ p, p = file.phdr (pph - pe) := ⟨_, rfl⟩
  have hword : ∀ {l : Loader} {taken : List Nat} {placed : List (Nat × Source)},
      Placed m0 file w F placed taken l → ∀ d, d + 4 ≤ 24 →
        fileWord l.machine w.size (pph + d) = .ok (word file.bytes (pph - pe + d)) := by
    intro l taken placed h d hd
    rw [h.safe.size, h.safe.view.fileWord, if_pos ⟨by omega, by omega⟩, Nat.sub_add_comm hpph]
  have hlt : p.offset < 2 ^ 32 := hp ▸ phdr_offset_lt _
  obtain ⟨hfits, hzero⟩ := fits_iff.mp hloads.fits
  have halign := hloads.aligned
  have hwhole : ∀ i, i + 1 < (file.phdr (pph - pe)).fileCount →
      i + (file.phdr (pph - pe)).offset / 4096 < file.pages := by
    intro i hi
    have := hloads.whole i hi
    rw [File.pages]
    omega
  rw [Phdr.placements_eq] at havail ⊢
  rw [← append_assoc] at havail ⊢
  have havail' := havail
  rw [freshCount_append] at havail'
  rw [← hp] at hfits hzero halign hwhole havail havail' ⊢
  obtain ⟨l1, taken1, hret, hplaced⟩ := mapPages_placed h hlt (Nat.zero_add _)
    (fun i hi => hfits i (Nat.zero_le i) hi) hwhole (by omega)
  obtain ⟨l', taken', hret', hplaced'⟩ := mapZeroPages_placed hplaced hzero havail
  refine ⟨l', taken', ?_, hplaced'⟩
  rw [loadSegment, hword h 4 (by omega), ok_bind, hword h 8 (by omega), ok_bind,
    show word file.bytes (pph - pe + 4) = p.offset by rw [hp]; rfl,
    show word file.bytes (pph - pe + 8) = p.vaddr by rw [hp]; rfl, if_neg (not_not_intro halign),
    hword h 16 (by omega), ok_bind, show word file.bytes (pph - pe + 16) = p.filesz by rw [hp]; rfl]
  dsimp only
  rw [show (pageCount p.offset p.filesz).toNat = p.fileCount from rfl, hret, ok_bind,
    hword hplaced 20 (by omega), ok_bind,
    show word file.bytes (pph - pe + 20) = p.memsz by rw [hp]; rfl]
  exact hret'

def Phdr.pages (p : Phdr) : List (Nat × Source) := if p.type = ptLoad then p.placements else []

theorem loadHeader_placed (h : Placed m0 file w F placed taken l) (hpph : pe ≤ pph)
    (hin : pph + 24 ≤ pe + file.size)
    (hloads : (file.phdr (pph - pe)).type = ptLoad → (file.phdr (pph - pe)).Loads file)
    (havail : freshCount (placed ++ (file.phdr (pph - pe)).pages) ≤ m0.frames.available) :
    ∃ l' taken', loadHeader w pph l = .ok l' ∧
      Placed m0 file w F (placed ++ (file.phdr (pph - pe)).pages) taken' l' := by
  rw [loadHeader, h.safe.size, h.safe.view.fileWord, if_pos ⟨hpph, by omega⟩, ok_bind,
    show word file.bytes (pph - pe) = (file.phdr (pph - pe)).type from rfl]
  rw [Phdr.pages] at havail ⊢
  split
  · rename_i htype
    rw [if_pos htype] at havail
    exact loadSegment_placed h hpph hin (hloads htype) havail
  · refine ⟨l, taken, rfl, ?_⟩
    simpa using h

def File.header (file : File) (i : Nat) : Phdr := file.phdr (file.phoff + i * file.phentsize)

theorem header_address (hsmall : file.size ≤ 2 ^ 22)
    (hin : file.phoff + i * file.phentsize + 24 ≤ file.size) :
    (pe + file.phoff + i * file.phentsize) % 2 ^ 32 = pe + (file.phoff + i * file.phentsize) := by
  rw [pe, Nat.mod_eq_of_lt (by omega)]
  omega

theorem phdr_header (file : File) (i : Nat) :
    file.phdr (pe + (file.phoff + i * file.phentsize) - pe) = file.header i := by
  rw [Nat.add_sub_cancel_left]
  rfl

theorem next_header (file : File) (i : Nat) :
    (pe + (file.phoff + i * file.phentsize) + file.phentsize) % 2 ^ 32 =
      (pe + file.phoff + (i + 1) * file.phentsize) % 2 ^ 32 := by
  rw [Nat.succ_mul]
  congr 1
  omega

theorem File.mem_segments (file : File) (hi : i < file.phnum) (htype : (file.header i).type = ptLoad) :
    file.header i ∈ file.segments := by
  simp only [segments, phdrs, mem_filter, mem_map, mem_range, decide_eq_true_eq]
  exact ⟨⟨i, hi, rfl⟩, htype⟩

structure File.Loads (file : File) : Prop where
  small : file.size ≤ 2 ^ 22
  header : 46 ≤ file.size
  headers : ∀ i < file.phnum, file.phoff + i * file.phentsize + 24 ≤ file.size
  segments : ∀ p ∈ file.segments, p.Loads file

theorem File.image_eq (file : File) :
    file.image = (range' 0 file.phnum).flatMap fun i => (file.header i).pages := by
  rw [File.image, File.segments, File.phdrs, ← range_eq_range', filter_map,
    flatMap_map]
  generalize range file.phnum = is
  induction is with
  | nil => rfl
  | cons i is ih =>
    rw [filter_cons, flatMap_cons, Phdr.pages]
    split
    · rename_i htype
      rw [flatMap_cons, ih, if_pos (by simpa [header] using htype)]
      rfl
    · rename_i htype
      rw [ih, if_neg (by simpa [header] using htype)]
      rfl

theorem walk_placed (hfile : file.Loads) (h : Placed m0 file w F placed taken l)
    (hcount : i + n = file.phnum) (hpph : pph = (pe + file.phoff + i * file.phentsize) % 2 ^ 32)
    (havail : freshCount (placed ++ (range' i n).flatMap fun i => (file.header i).pages) ≤
      m0.frames.available) :
    ∃ l' taken', walk w n pph l = .ok l' ∧
      Placed m0 file w F (placed ++ (range' i n).flatMap fun i => (file.header i).pages)
        taken' l' := by
  induction n generalizing i l placed taken pph with
  | zero =>
    refine ⟨l, taken, rfl, ?_⟩
    simpa using h
  | succ n ih =>
    have hin := hfile.headers i (by omega)
    rw [header_address hfile.small hin] at hpph
    have hheader : file.phdr (pph - pe) = file.header i := by rw [hpph, phdr_header]
    have hloads : (file.phdr (pph - pe)).type = ptLoad → (file.phdr (pph - pe)).Loads file := by
      rw [hheader]
      exact fun htype => hfile.segments _ (file.mem_segments (by omega) htype)
    rw [range'_succ, flatMap_cons, ← append_assoc] at havail ⊢
    have hfirst : freshCount (placed ++ (file.phdr (pph - pe)).pages) ≤ m0.frames.available := by
      rw [hheader]
      rw [freshCount_append] at havail
      omega
    obtain ⟨l1, taken1, hret, hplaced⟩ :=
      loadHeader_placed h (by omega) (by omega) hloads hfirst
    rw [hheader] at hplaced
    have hnext : (pph + file.phentsize) % 2 ^ 32 =
        (pe + file.phoff + (i + 1) * file.phentsize) % 2 ^ 32 := by rw [hpph, next_header]
    obtain ⟨l', taken', hret', hplaced'⟩ := ih hplaced (by omega) hnext havail
    refine ⟨l', taken', ?_, hplaced'⟩
    have hsize := hfile.header
    rw [walk, hret, ok_bind, hplaced.safe.size, hplaced.safe.view.fileHalf,
      if_pos ⟨by omega, by omega⟩, ok_bind, Nat.add_sub_cancel_left]
    exact hret'

theorem loadImage_placed (hfile : file.Loads) (h : Safe file w F m0)
    (hused : ¬m0.frames.Free w.table) (htable : ∀ v < 1024, entry m0.mem w.table v = 0)
    (havail : freshCount file.image ≤ m0.frames.available) :
    ∃ l taken, loadImage w m0 = .ok (word file.bytes 24, l) ∧
      Placed m0 file w F file.image taken l := by
  have hsize := hfile.header
  have hstart := Placed.start h hused htable
  have hpph : (pe + file.phoff) % 2 ^ 32 = (pe + file.phoff + 0 * file.phentsize) % 2 ^ 32 := by
    rw [zero_mul, add_zero]
  rw [File.image_eq] at havail ⊢
  obtain ⟨l, taken, hret, hplaced⟩ :=
    walk_placed hfile hstart (zero_add file.phnum) hpph (by rwa [nil_append])
  refine ⟨l, taken, ?_, hplaced⟩
  rw [loadImage, h.size, h.view.fileWord, if_pos ⟨by omega, by omega⟩, ok_bind, h.view.fileWord,
    if_pos ⟨by omega, by omega⟩, ok_bind, h.view.fileHalf, if_pos ⟨by omega, by omega⟩, ok_bind]
  simp only [Nat.add_sub_cancel_left]
  rw [show word file.bytes 28 = file.phoff from rfl, show file.half 44 = file.phnum from rfl, hret]
  rfl

end Quest.Proc
