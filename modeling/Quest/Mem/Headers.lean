import Quest.Mem.Pow2

/-! The chains of header pages that hold the free blocks of one size. -/
namespace Quest.Mem.Pow2

open Quest.Lib Memory State List

structure HeaderAt (mem : Nat → UInt8) (h : Nat) (ptrs : List Nat) : Prop where
  count : word mem (h + 4) = ptrs.length
  room : ptrs.length ≤ maxCount
  ptr : ∀ i (hi : i < ptrs.length), word mem (h + 8 + 4 * i) = ptrs[i]

def Seg (mem : Nat → UInt8) : Nat → List (Nat × List Nat) → Nat → Prop
  | h, [], e => h = e
  | h, x :: rest, e =>
      h = x.1 ∧ HeaderAt mem h x.2 ∧ x.2.length = maxCount ∧ Seg mem (word mem h) rest e

structure Headers where
  full : List (Nat × List Nat)
  last : Nat × List Nat

namespace Headers

def all (hs : Headers) : List (Nat × List Nat) := hs.full ++ [hs.last]

def ptrs (hs : Headers) : List Nat := hs.all.flatMap Prod.snd

def pages (hs : Headers) : List Nat := hs.all.map (·.1 / 4096)

end Headers

/-- The chain that starts at `h`.  Only its first header may be empty. -/
structure ChainAt (mem : Nat → UInt8) (h : Nat) (hs : Headers) : Prop where
  seg : Seg mem h hs.full hs.last.1
  last : HeaderAt mem hs.last.1 hs.last.2
  ends : word mem hs.last.1 = 0
  nonempty : hs.full ≠ [] → hs.last.2 ≠ []

variable {mem mem' : Nat → UInt8} {h h' e p a : Nat} {ptrs : List Nat} {hs : Headers}
  {full rest : List (Nat × List Nat)} {s s' : State} {x q : Nat × List Nat}

theorem word_page (hh : h % 4096 = 0) (ha : a + 4 ≤ 4096)
    (hmem : ∀ b, b / 4096 = h / 4096 → mem' b = mem b) : word mem' (h + a) = word mem (h + a) := by
  apply word_congr
  intro j hj
  apply hmem
  omega

theorem HeaderAt.congr (hat : HeaderAt mem h ptrs) (hh : h % 4096 = 0)
    (hmem : ∀ b, b / 4096 = h / 4096 → mem' b = mem b) : HeaderAt mem' h ptrs := by
  have hroom := hat.room
  rw [maxCount] at hroom
  refine ⟨?_, hat.room, ?_⟩
  · rw [word_page hh (by omega) hmem, hat.count]
  · intro i hi
    rw [Nat.add_assoc, word_page hh (by omega) hmem, ← Nat.add_assoc, hat.ptr i hi]

theorem Seg.congr (hseg : Seg mem h full e) (hh : ∀ x ∈ full, x.1 % 4096 = 0)
    (hmem : ∀ x ∈ full, ∀ b, b / 4096 = x.1 / 4096 → mem' b = mem b) : Seg mem' h full e := by
  induction full generalizing h with
  | nil => exact hseg
  | cons x rest ih =>
    obtain ⟨rfl, hat, hlen, hrest⟩ := hseg
    have hx := hh x mem_cons_self
    have hxmem := hmem x mem_cons_self
    refine ⟨rfl, hat.congr hx hxmem, hlen, ?_⟩
    have hword := word_page (a := 0) hx (by omega) hxmem
    rw [Nat.add_zero] at hword
    rw [hword]
    exact ih hrest (fun y hy => hh y (mem_cons_of_mem x hy))
      fun y hy => hmem y (mem_cons_of_mem x hy)

theorem seg_snoc : Seg mem h (full ++ [q]) e ↔
    Seg mem h full q.1 ∧ HeaderAt mem q.1 q.2 ∧ q.2.length = maxCount ∧ word mem q.1 = e := by
  induction full generalizing h with
  | nil =>
    constructor
    · rintro ⟨rfl, hat, hlen, hend⟩
      exact ⟨rfl, hat, hlen, hend⟩
    · rintro ⟨rfl, hat, hlen, hend⟩
      exact ⟨rfl, hat, hlen, hend⟩
  | cons x rest ih =>
    rw [cons_append, Seg, ih, Seg]
    tauto

theorem ChainAt.congr (hchain : ChainAt mem h hs) (hh : ∀ x ∈ hs.all, x.1 % 4096 = 0)
    (hmem : ∀ x ∈ hs.all, ∀ b, b / 4096 = x.1 / 4096 → mem' b = mem b) : ChainAt mem' h hs := by
  have hfull : ∀ x ∈ hs.full, x ∈ hs.all := fun x hx => mem_append_left _ hx
  have hlast : hs.last ∈ hs.all := by simp [Headers.all]
  refine ⟨?_, hchain.last.congr (hh _ hlast) (hmem _ hlast), ?_, hchain.nonempty⟩
  · exact hchain.seg.congr (fun x hx => hh x (hfull x hx)) fun x hx => hmem x (hfull x hx)
  · have hword := word_page (a := 0) (hh _ hlast) (by omega) (hmem _ hlast)
    rw [Nat.add_zero] at hword
    rw [hword, hchain.ends]

theorem HeaderAt.push (hat : HeaderAt mem h ptrs) (hroom : ptrs.length < maxCount) (hp : p < 2 ^ 32) :
    HeaderAt (setWord (setWord mem (h + 8 + 4 * ptrs.length) p) (h + 4) (ptrs.length + 1)) h
      (ptrs ++ [p]) := by
  rw [maxCount] at hroom
  refine ⟨?_, ?_, ?_⟩
  · rw [word_setWord (by omega), length_append, length_singleton]
  · rw [length_append, length_singleton, maxCount]
    omega
  · intro i hi
    rw [setWord, word_blit_outside (by omega)]
    rw [length_append, length_singleton] at hi
    by_cases hlast : i = ptrs.length
    · subst hlast
      rw [word_setWord hp, getElem_append_right le_rfl]
      simp
    · rw [setWord, word_blit_outside (by omega), hat.ptr i (by omega),
        getElem_append_left (by omega)]

theorem HeaderAt.pop (hat : HeaderAt mem h (ptrs ++ [p])) :
    HeaderAt (setWord mem (h + 4) ptrs.length) h ptrs := by
  have hroom := hat.room
  rw [length_append, length_singleton, maxCount] at hroom
  refine ⟨word_setWord (by omega), by rw [maxCount]; omega, ?_⟩
  intro i hi
  rw [setWord, word_blit_outside (by omega), hat.ptr i (by rw [length_append]; omega),
    getElem_append_left hi]

theorem HeaderAt.setNext (hat : HeaderAt mem h ptrs) (next : Nat) :
    HeaderAt (setWord mem h next) h ptrs := by
  refine ⟨?_, hat.room, ?_⟩
  · rw [setWord, word_blit_outside (by omega), hat.count]
  · intro i hi
    rw [setWord, word_blit_outside (by omega), hat.ptr i hi]

/-! What the accesses do to the pages of the allocator. -/

namespace State

def setMem (s : State) (mem : Nat → UInt8) : State := { s with mem := mem }

@[simp] theorem setMem_mem : (s.setMem mem).mem = mem := rfl

@[simp] theorem setMem_pages : (s.setMem mem).pages = s.pages := rfl

@[simp] theorem setMem_usedTable : (s.setMem mem).usedTable = s.usedTable := rfl

@[simp] theorem setMem_usedCount : (s.setMem mem).usedCount = s.usedCount := rfl

@[simp] theorem setMem_setMem : (s.setMem mem).setMem mem' = s.setMem mem' := rfl

@[simp] theorem acquire_mem (g : Grant) (n : Nat) : (s.acquire g n).mem = s.mem := by
  rw [acquire]
  split
  · rfl
  · rfl

theorem mapped_page {n : Nat} (hp : a / 4096 ∈ s.pages) (hn : a % 4096 + n ≤ 4096) :
    s.Mapped a n := by
  rcases Nat.eq_zero_or_pos n with rfl | hpos
  · exact .inl rfl
  · right
    intro p hp'
    rw [show (a + n - 1) / 4096 - a / 4096 + 1 = 1 by omega, pagesAt, range'_one,
      mem_singleton] at hp'
    rw [hp']
    exact hp

theorem mapped_range {n size : Nat} (ha : a % 4096 = 0)
    (hp : ∀ p, a / 4096 ≤ p → p < a / 4096 + n → p ∈ s.pages) (hn : size ≤ 4096 * n) :
    s.Mapped a size := by
  rcases Nat.eq_zero_or_pos size with rfl | hpos
  · exact .inl rfl
  · right
    intro p hp'
    rw [pagesAt, mem_range'_1] at hp'
    exact hp p hp'.1 (by omega)

theorem load32_mapped (h : s.Mapped a 4) : s.load32 a = .ok (word s.mem a) := if_pos h

theorem store_mapped {bytes : Nat → UInt8} {n : Nat} (h : s.Mapped a n) :
    s.store a bytes n = .ok (s.setMem (blit s.mem a bytes n)) := if_pos h

theorem store32_mapped {v : Nat} (h : s.Mapped a 4) :
    s.store32 a v = .ok (s.setMem (setWord s.mem a v)) := store_mapped h

end State

structure PageOf (s : State) (h : Nat) : Prop where
  aligned : h % 4096 = 0
  mem : h / 4096 ∈ s.pages
  pos : h ≠ 0

section

variable (hpage : PageOf s h)
include hpage

theorem PageOf.mapped {n : Nat} (hn : 0 < n) (ha : a + n ≤ 4096) :
    s.Mapped (h + a) n := by
  have := hpage.aligned
  apply mapped_page
  · rw [show (h + a) / 4096 = h / 4096 by omega]
    exact hpage.mem
  · omega

theorem PageOf.load32 (ha : a + 4 ≤ 4096) :
    s.load32 (h + a) = .ok (word s.mem (h + a)) :=
  load32_mapped (hpage.mapped (Nat.succ_pos 3) ha)

theorem PageOf.store32 {v : Nat} (ha : a + 4 ≤ 4096) :
    s.store32 (h + a) v = .ok (s.setMem (setWord s.mem (h + a) v)) :=
  store32_mapped (hpage.mapped (Nat.succ_pos 3) ha)

theorem PageOf.setMem : PageOf (s.setMem mem) h :=
  { hpage with }

end

structure HeaderPages (s : State) (hs : Headers) : Prop where
  page : ∀ x ∈ hs.all, PageOf s x.1
  nodup : (hs.all.map Prod.fst).Nodup

theorem Seg.ne_zero (hseg : Seg mem h full e) (hpos : ∀ x ∈ full, x.1 ≠ 0) (he : e ≠ 0) :
    h ≠ 0 := by
  cases full with
  | nil =>
    rw [show h = e from hseg]
    exact he
  | cons x rest =>
    rw [hseg.1]
    exact hpos x mem_cons_self

theorem HeaderAt.load_count (hat : HeaderAt s.mem h ptrs) (hpage : PageOf s h) :
    s.load32 (h + 4) = .ok ptrs.length := by
  rw [hpage.load32 (by omega), hat.count]

theorem PageOf.load_next (hpage : PageOf s h) : s.load32 h = .ok (word s.mem h) :=
  hpage.load32 (a := 0) (by omega)

theorem PageOf.store_next {v : Nat} (hpage : PageOf s h) :
    s.store32 h v = .ok (s.setMem (setWord s.mem h v)) := hpage.store32 (a := 0) (by omega)

variable {supply : Supply} {ptr fuel : Nat}

theorem addToHeader_seg (hseg : Seg s.mem h full e) (hpages : ∀ x ∈ full, PageOf s x.1) (he : e ≠ 0)
    :
    addToHeader supply ptr (full.length + fuel) h s = addToHeader supply ptr fuel e s := by
  induction full generalizing h with
  | nil => rw [show h = e from hseg, length_nil, Nat.zero_add]
  | cons x rest ih =>
    obtain ⟨rfl, hat, hlen, hrest⟩ := hseg
    have hx := hpages x mem_cons_self
    have hrestPages := fun y hy => hpages y (mem_cons_of_mem x hy)
    have hnext := hrest.ne_zero (fun y hy => (hrestPages y hy).pos) he
    rw [length_cons, Nat.add_right_comm, addToHeader, hat.load_count hx, ok_bind, hlen,
      if_neg (Nat.lt_irrefl _), hx.load_next, ok_bind, if_pos hnext, ih hrest hrestPages]

theorem findHeader_seg {prev : Nat} (hseg : Seg s.mem h full e) (hpages : ∀ x ∈ full, PageOf s x.1)
    (he : e ≠ 0) : s.findHeader (full.length + fuel) prev h =
      s.findHeader fuel ((full.getLast?.map Prod.fst).getD prev) e := by
  induction full generalizing h prev with
  | nil => rw [show h = e from hseg, length_nil, Nat.zero_add]; rfl
  | cons x rest ih =>
    obtain ⟨rfl, hat, hlen, hrest⟩ := hseg
    have hx := hpages x mem_cons_self
    have hrestPages := fun y hy => hpages y (mem_cons_of_mem x hy)
    have hnext := hrest.ne_zero (fun y hy => (hrestPages y hy).pos) he
    have hstop : ¬(maxCount < maxCount ∨ word s.mem x.1 = 0) := by
      rintro (hlt | hzero)
      · exact Nat.lt_irrefl _ hlt
      · exact hnext hzero
    rw [length_cons, Nat.add_right_comm, findHeader, hat.load_count hx, ok_bind, hlen,
      if_neg (show maxCount ≠ 0 by decide), hx.load_next, ok_bind, if_neg hstop,
      ih hrest hrestPages]
    rw [getLast?_cons]
    cases rest.getLast? with
    | none => rfl
    | some y => rfl

theorem findHeader_spec (hchain : ChainAt s.mem h hs) (hpages : HeaderPages s hs)
    (hfuel : hs.full.length < fuel) : s.findHeader fuel 0 h =
      .ok ((hs.full.getLast?.map Prod.fst).getD 0, hs.last.1, hs.last.2.length) := by
  have hlast := hpages.page hs.last (by simp [Headers.all])
  obtain ⟨n, rfl⟩ : ∃ n, fuel = hs.full.length + (n + 1) := ⟨fuel - hs.full.length - 1, by omega⟩
  rw [findHeader_seg hchain.seg (fun x hx => hpages.page x (mem_append_left _ hx)) hlast.pos,
    findHeader, hchain.last.load_count hlast, ok_bind]
  split
  · rename_i hzero
    rw [hzero]
  · rw [hlast.load_next, ok_bind, if_pos (.inr hchain.ends)]

structure Rechained (s s' : State) (h : Nat) (hs hs' : Headers) : Prop where
  chain : ChainAt s'.mem h hs'
  aligned : ∀ x ∈ hs'.all, x.1 % 4096 = 0 ∧ x.1 ≠ 0
  nodup : (hs'.all.map Prod.fst).Nodup
  pages : ∀ p, p ∈ s'.pages ↔ p ∈ hs'.pages ∨ p ∉ hs.pages ∧ p ∈ s.pages
  mem : ∀ a, a / 4096 ∉ hs.pages → a / 4096 ∉ hs'.pages → s'.mem a = s.mem a
  others : s' = { s with mem := s'.mem, pages := s'.pages }

section

variable (hpages : HeaderPages s hs)
include hpages

theorem HeaderPages.aligned (x : Nat × List Nat) (hx : x ∈ hs.all) :
    x.1 % 4096 = 0 ∧ x.1 ≠ 0 :=
  ⟨(hpages.page x hx).aligned, (hpages.page x hx).pos⟩

theorem HeaderPages.last : PageOf s hs.last.1 :=
  hpages.page hs.last (by simp [Headers.all])

theorem HeaderPages.inFull : ∀ x ∈ hs.full, PageOf s x.1 :=
  fun x hx => hpages.page x (mem_append_left _ hx)

theorem HeaderPages.mem_pages (hp : p ∈ hs.pages) : p ∈ s.pages := by
  obtain ⟨x, hx, rfl⟩ := mem_map.mp hp
  exact (hpages.page x hx).mem

theorem HeaderPages.mem_iff : p ∈ s.pages ↔ p ∈ hs.pages ∨ p ∉ hs.pages ∧ p ∈ s.pages := by
  by_cases hp : p ∈ hs.pages
  · simp [hp, hpages.mem_pages hp]
  · simp [hp]

theorem HeaderPages.apart :
    ∀ x ∈ hs.full, x.1 / 4096 ≠ hs.last.1 / 4096 := by
  intro x hx heq
  have hnodup := hpages.nodup
  rw [Headers.all, map_append, nodup_append] at hnodup
  apply hnodup.2.2 x.1 (mem_map_of_mem hx) hs.last.1 (by simp)
  have hxa := (hpages.inFull x hx).aligned
  have hla := hpages.last.aligned
  omega

end

theorem mem_pages_last (hs : Headers) : hs.last.1 / 4096 ∈ hs.pages :=
  mem_map_of_mem (f := fun y : Nat × List Nat => y.1 / 4096) (show hs.last ∈ hs.all by
    simp [Headers.all])

theorem Rechained.ofLast (hchain : ChainAt s.mem h hs) (hpages : HeaderPages s hs)
    (hat : HeaderAt mem hs.last.1 ptrs) (hends : word mem hs.last.1 = 0)
    (hne : hs.full ≠ [] → ptrs ≠ [])
    (hmem : ∀ a, a / 4096 ≠ hs.last.1 / 4096 → mem a = s.mem a) :
    Rechained s (s.setMem mem) h hs ⟨hs.full, (hs.last.1, ptrs)⟩ := by
  have hall : (Headers.mk hs.full (hs.last.1, ptrs)).all.map Prod.fst = hs.all.map Prod.fst := by
    simp [Headers.all]
  have hpagesEq : (Headers.mk hs.full (hs.last.1, ptrs)).pages = hs.pages := by
    simp [Headers.pages, Headers.all]
  constructor
  case chain =>
    refine ⟨?_, hat, hends, hne⟩
    apply hchain.seg.congr
    · intro x hx
      exact (hpages.inFull x hx).aligned
    · intro x hx b hb
      apply hmem
      rw [hb]
      exact hpages.apart x hx
  case aligned =>
    intro x hx
    have hmap : x.1 ∈ hs.all.map Prod.fst := hall ▸ mem_map_of_mem hx
    obtain ⟨y, hy, heq⟩ := mem_map.mp hmap
    rw [← heq]
    exact hpages.aligned y hy
  case nodup =>
    rw [hall]
    exact hpages.nodup
  case pages =>
    intro p
    rw [hpagesEq, setMem_pages]
    exact hpages.mem_iff
  case mem =>
    intro a ha _
    apply hmem
    intro heq
    apply ha
    rw [heq]
    exact mem_pages_last hs
  case others => rfl

theorem setWord_page {v b : Nat} (hh : h % 4096 = 0) (ha : a + 4 ≤ 4096)
    (hb : b / 4096 ≠ h / 4096) : setWord mem (h + a) v b = mem b := by
  apply blit_outside
  omega

theorem addToHeader_room (supply : Supply) (hchain : ChainAt s.mem h hs) (hpages : HeaderPages s hs)
    (hroom : hs.last.2.length < maxCount) (hptr : ptr < 2 ^ 32) (hfuel : hs.full.length < fuel) :
    ∃ s', addToHeader supply ptr fuel h s = .ok s' ∧
      Rechained s s' h hs ⟨hs.full, (hs.last.1, hs.last.2 ++ [ptr])⟩ := by
  obtain ⟨n, rfl⟩ : ∃ n, fuel = hs.full.length + (n + 1) := ⟨fuel - hs.full.length - 1, by omega⟩
  have hlast := hpages.last
  have hlen : hs.last.2.length < 1022 := hroom
  refine ⟨s.setMem (setWord (setWord s.mem (hs.last.1 + 8 + 4 * hs.last.2.length) ptr)
    (hs.last.1 + 4) (hs.last.2.length + 1)), ?_, ?_⟩
  · rw [addToHeader_seg hchain.seg hpages.inFull hlast.pos, addToHeader,
      hchain.last.load_count hlast, ok_bind, if_pos hroom, Nat.add_assoc,
      hlast.store32 (by omega), ok_bind, hlast.setMem.store32 (by omega)]
    rfl
  · apply Rechained.ofLast hchain hpages (hchain.last.push hroom hptr)
    · rw [setWord, word_blit_outside (by omega), setWord, word_blit_outside (by omega), hchain.ends]
    · simp
    · intro a ha
      rw [setWord_page hlast.aligned (by omega) ha, Nat.add_assoc,
        setWord_page hlast.aligned (by omega) ha]

theorem takeBlock_keep (supply : Supply) (hchain : ChainAt s.mem h hs) (hpages : HeaderPages s hs)
    (hlast : hs.last.2 = ptrs ++ [ptr]) (hkeep : hs.full ≠ [] → ptrs ≠ []) :
    ∃ s', s.takeBlock supply ((hs.full.getLast?.map Prod.fst).getD 0) hs.last.1
        hs.last.2.length = .ok (ptr, s') ∧
      Rechained s s' h hs ⟨hs.full, (hs.last.1, ptrs)⟩ := by
  have hpage := hpages.last
  have hat : HeaderAt s.mem hs.last.1 (ptrs ++ [ptr]) := hlast ▸ hchain.last
  have hroom := hat.room
  rw [length_append, length_singleton, maxCount] at hroom
  have hstay : ¬((hs.full.getLast?.map Prod.fst).getD 0 ≠ 0 ∧ ptrs.length = 0) := by
    rintro ⟨hprev, hzero⟩
    apply hkeep
    · rintro hnil
      rw [hnil] at hprev
      exact hprev rfl
    · exact length_eq_zero_iff.mp hzero
  refine ⟨s.setMem (setWord s.mem (hs.last.1 + 4) ptrs.length), ?_, ?_⟩
  · rw [takeBlock, hlast, length_append, length_singleton, Nat.add_sub_cancel,
      hpage.store32 (by omega), ok_bind, Nat.add_assoc, hpage.setMem.load32 (by omega), ok_bind,
      if_neg hstay, setMem_mem, setWord, word_blit_outside (by omega), ← Nat.add_assoc,
      hat.ptr ptrs.length (by simp)]
    simp
  · apply Rechained.ofLast hchain hpages hat.pop
    · rw [setWord, word_blit_outside (by omega), hchain.ends]
    · exact hkeep
    · intro a ha
      rw [setWord_page hpage.aligned (by omega) ha]

structure Grant.Fresh (g : Grant) (s : State) (n : Nat) : Prop where
  fresh : g.fresh = true
  aligned : g.va % 4096 = 0
  pos : g.va ≠ 0
  below : g.va + 4096 * n ≤ 2 ^ 32
  unused : ∀ p, g.va / 4096 ≤ p → p < g.va / 4096 + n → p ∉ s.pages

variable {g : Grant}

theorem Grant.Fresh.mem_acquire {n : Nat} (hg : g.Fresh s n) :
    p ∈ (s.acquire g n).pages ↔ p ∈ s.pages ∨ g.va / 4096 ≤ p ∧ p < g.va / 4096 + n := by
  rw [acquire, if_pos hg.fresh, mem_append, pagesAt, mem_range'_1]

theorem Grant.Fresh.acquire_eq {n : Nat} (hg : g.Fresh s n) :
    s.acquire g n = { s with pages := (s.acquire g n).pages } := by
  rw [acquire, if_pos hg.fresh]

theorem PageOf.acquire {n : Nat} (hpage : PageOf s h) (hg : g.Fresh s n) :
    PageOf (s.acquire g n) h :=
  ⟨hpage.aligned, hg.mem_acquire.mpr (.inl hpage.mem), hpage.pos⟩

theorem Grant.Fresh.page (hg : g.Fresh s 1) : PageOf (s.acquire g 1) g.va :=
  ⟨hg.aligned, hg.mem_acquire.mpr (.inr (by omega)), hg.pos⟩

theorem PageOf.memset {byte : UInt8} (hpage : PageOf s h) :
    s.memset h byte 4096 = .ok (s.setMem (blit s.mem h (fun _ => byte) 4096)) :=
  store_mapped (hpage.mapped (a := 0) (by omega) (by omega))

theorem headerAt_zero : HeaderAt (blit mem h (fun _ => 0) 4096) h [] := by
  refine ⟨?_, Nat.zero_le _, ?_⟩
  · rw [word_blit_inside (by omega) (by omega)]
    rfl
  · intro i hi
    exact absurd hi (Nat.not_lt_zero i)

theorem ChainAt.extend {va : Nat} (hchain : ChainAt s.mem h hs) (hpages : HeaderPages s hs)
    (hfull : hs.last.2.length = maxCount) (hlt : va < 2 ^ 32) (hold : va / 4096 ∉ s.pages)
    (hsame : ∀ b, b / 4096 ≠ va / 4096 → mem b = setWord s.mem hs.last.1 va b)
    (hnew : HeaderAt mem va [ptr]) (hends : word mem va = 0) :
    ChainAt mem h ⟨hs.full ++ [hs.last], (va, [ptr])⟩ := by
  have hlast := hpages.last
  have hne : ∀ x ∈ hs.all, x.1 / 4096 ≠ va / 4096 := by
    intro x hx heq
    apply hold
    rw [← heq]
    exact (hpages.page x hx).mem
  have hlastSame : ∀ b, b / 4096 = hs.last.1 / 4096 → mem b = setWord s.mem hs.last.1 va b := by
    intro b hb
    apply hsame
    rw [hb]
    exact hne hs.last (by simp [Headers.all])
  refine ⟨seg_snoc.mpr ⟨?_, ?_, hfull, ?_⟩, hnew, hends, by simp⟩
  · apply hchain.seg.congr
    · intro x hx
      exact (hpages.inFull x hx).aligned
    · intro x hx b hb
      have hb' : b / 4096 ≠ hs.last.1 / 4096 := hb ▸ hpages.apart x hx
      rw [hsame b (hb ▸ hne x (mem_append_left _ hx))]
      exact setWord_page (a := 0) hlast.aligned (by omega) hb'
  · exact (hchain.last.setNext va).congr hlast.aligned hlastSame
  · have hword := word_page (a := 0) hlast.aligned (by omega) hlastSame
    rw [Nat.add_zero] at hword
    rw [hword, word_setWord hlt]

theorem addToHeader_full (hchain : ChainAt s.mem h hs) (hpages : HeaderPages s hs)
    (hfull : hs.last.2.length = maxCount) (hptr : ptr < 2 ^ 32) (hfresh : supply.page.Fresh s 1)
    (hfuel : hs.full.length + 1 < fuel) : ∃ s', addToHeader supply ptr fuel h s = .ok s' ∧
      Rechained s s' h hs ⟨hs.full ++ [hs.last], (supply.page.va, [ptr])⟩ := by
  obtain ⟨n, rfl⟩ : ∃ n, fuel = hs.full.length + (n + 1 + 1) :=
    ⟨fuel - hs.full.length - 2, by omega⟩
  obtain ⟨va, hva⟩ : ∃ va, va = supply.page.va := ⟨_, rfl⟩
  have hlast := hpages.last
  have hnew := hfresh.page
  have halign := hfresh.aligned
  have hbelow := hfresh.below
  have hnot := hfresh.unused (supply.page.va / 4096) (by omega) (by omega)
  rw [← hva] at hnew halign hbelow hnot
  obtain ⟨mem2, hmem2⟩ : ∃ m, m = blit (setWord s.mem hs.last.1 va) va (fun _ => 0) 4096 := ⟨_, rfl⟩
  obtain ⟨mem4, hmem4⟩ : ∃ m, m = setWord (setWord mem2 (va + 8 + 4 * 0) ptr) (va + 4) (0 + 1) :=
    ⟨_, rfl⟩
  have hempty : HeaderAt mem2 va [] := hmem2 ▸ headerAt_zero
  have hone : HeaderAt mem4 va [ptr] := hmem4 ▸ hempty.push (by decide) hptr
  have hends : word mem4 va = 0 := by
    rw [hmem4, setWord, word_blit_outside (by omega), setWord, word_blit_outside (by omega), hmem2,
      word_blit_inside (by omega) (by omega)]
    rfl
  have hsame : ∀ b, b / 4096 ≠ va / 4096 → mem4 b = setWord s.mem hs.last.1 va b := by
    intro b hb
    rw [hmem4, setWord_page halign (by omega) hb, Nat.add_assoc,
      setWord_page halign (by omega) hb, hmem2, blit_outside (by omega)]
  have hcall : addToHeader supply ptr (hs.full.length + (n + 1 + 1)) h s =
      .ok ((s.acquire supply.page 1).setMem mem4) := by
    rw [addToHeader_seg hchain.seg hpages.inFull hlast.pos, addToHeader,
      hchain.last.load_count hlast, ok_bind, hfull, if_neg (Nat.lt_irrefl _), hlast.load_next,
      ok_bind, hchain.ends, if_neg (not_not_intro rfl), ← hva, (hlast.acquire hfresh).store_next,
      ok_bind, hnew.setMem.memset, ok_bind,
      acquire_mem, setMem_mem, setMem_setMem, ← hmem2, addToHeader,
      HeaderAt.load_count (by exact hempty) hnew.setMem, ok_bind, length_nil,
      if_pos (by decide), Nat.add_assoc, hnew.setMem.store32 (by omega), ok_bind,
      hnew.setMem.setMem.store32 (by omega), hmem4]
    rfl
  rw [← hva]
  refine ⟨_, hcall, ?_⟩
  have hall : (Headers.mk (hs.full ++ [hs.last]) (va, [ptr])).all = hs.all ++ [(va, [ptr])] := rfl
  have hpagesEq : (Headers.mk (hs.full ++ [hs.last]) (va, [ptr])).pages = hs.pages ++ [va / 4096] := by
    rw [Headers.pages, hall, map_append]
    rfl
  constructor
  case chain => exact hchain.extend hpages hfull (by omega) hnot hsame hone hends
  case aligned =>
    intro x hx
    rw [hall, mem_append, mem_singleton] at hx
    rcases hx with hx | rfl
    · exact hpages.aligned x hx
    · exact ⟨halign, hnew.pos⟩
  case nodup =>
    rw [hall, map_append, nodup_append]
    refine ⟨hpages.nodup, pairwise_singleton _ _, ?_⟩
    intro a ha b hb heq
    obtain ⟨x, hx, rfl⟩ := mem_map.mp ha
    have hb : b = va := by simpa using hb
    apply hnot
    rw [← hb, ← heq]
    exact (hpages.page x hx).mem
  case pages =>
    intro p
    rw [hpagesEq, setMem_pages, hfresh.mem_acquire, mem_append, mem_singleton, ← hva]
    rw [show va / 4096 ≤ p ∧ p < va / 4096 + 1 ↔ p = va / 4096 by omega, or_right_comm]
    exact or_congr_left hpages.mem_iff
  case mem =>
    intro a ha ha'
    rw [hpagesEq, mem_append, mem_singleton, not_or] at ha'
    rw [setMem_mem, hsame a ha'.2]
    apply setWord_page (a := 0) hlast.aligned (by omega)
    intro heq
    apply ha
    rw [heq]
    exact mem_pages_last hs
  case others => rw [setMem, hfresh.acquire_eq]

theorem takeBlock_release (hchain : ChainAt s.mem h hs) (hpages : HeaderPages s hs)
    (hfull : hs.full = full ++ [q]) (hlast : hs.last.2 = [ptr]) (hwindow : supply.window = true) :
    ∃ s', s.takeBlock supply ((hs.full.getLast?.map Prod.fst).getD 0) hs.last.1
        hs.last.2.length = .ok (ptr, s') ∧ Rechained s s' h hs ⟨full, q⟩ := by
  have hpage := hpages.last
  have hat : HeaderAt s.mem hs.last.1 [ptr] := hlast ▸ hchain.last
  have hq := hpages.inFull q (by simp [hfull])
  have hqapart := hpages.apart q (by simp [hfull])
  have hseg := hchain.seg
  rw [hfull, seg_snoc] at hseg
  have hall : hs.all = (Headers.mk full q).all ++ [hs.last] := by
    rw [Headers.all, hfull]
    rfl
  have hpagesEq : hs.pages = (Headers.mk full q).pages ++ [hs.last.1 / 4096] := by
    rw [Headers.pages, hall, map_append]
    rfl
  have hnodup := hpages.nodup
  rw [hall, map_append, nodup_append] at hnodup
  have hpages' : HeaderPages s ⟨full, q⟩ :=
    ⟨fun x hx => hpages.page x (hall ▸ mem_append_left _ hx), hnodup.1⟩
  obtain ⟨mem2, hmem2⟩ : ∃ m, m = setWord (setWord s.mem (hs.last.1 + 4) 0) q.1 0 := ⟨_, rfl⟩
  have hsame : ∀ b, b / 4096 ≠ hs.last.1 / 4096 → mem2 b = setWord s.mem q.1 0 b := by
    intro b hb
    rw [hmem2]
    exact blit_congr (setWord_page hpage.aligned (by omega) hb) fun _ _ => rfl
  have hqsame : ∀ b, b / 4096 = q.1 / 4096 → mem2 b = setWord s.mem q.1 0 b :=
    fun b hb => hsame b (hb ▸ hqapart)
  have hcall : s.takeBlock supply ((hs.full.getLast?.map Prod.fst).getD 0) hs.last.1
      hs.last.2.length = .ok (ptr, (s.setMem mem2).release hs.last.1 1) := by
    have hptr := hat.ptr 0 (by simp)
    rw [takeBlock, hlast, length_singleton, Nat.sub_self, hpage.store32 (by omega), ok_bind,
      Nat.add_assoc, hpage.setMem.load32 (by omega), ok_bind, setMem_mem, setWord,
      word_blit_outside (by omega), ← Nat.add_assoc, hptr, hfull, getLast?_concat,
      Option.map_some, Option.getD_some, if_pos ⟨hq.pos, rfl⟩, getPhysAddr, if_pos hwindow, ok_bind,
      hq.setMem.store_next, ok_bind, hmem2]
    rfl
  refine ⟨_, hcall, ?_⟩
  constructor
  case chain =>
    refine ⟨?_, ?_, ?_, ?_⟩
    · apply hseg.1.congr
      · intro x hx
        exact (hpages'.inFull x hx).aligned
      · intro x hx b hb
        have hb' : b / 4096 ≠ q.1 / 4096 := hb ▸ hpages'.apart x hx
        have hbl : b / 4096 ≠ hs.last.1 / 4096 := hb ▸ hpages.apart x (by simp [hfull, hx])
        exact (hsame b hbl).trans (setWord_page (a := 0) hq.aligned (by omega) hb')
    · exact (hseg.2.1.setNext 0).congr hq.aligned hqsame
    · have hword := word_page (a := 0) hq.aligned (by omega) hqsame
      rw [Nat.add_zero, word_setWord (by omega)] at hword
      exact hword
    · intro _ hnil
      have hlen := hseg.2.2.1
      rw [hnil] at hlen
      exact absurd hlen (by decide)
  case aligned => exact hpages'.aligned
  case nodup => exact hpages'.nodup
  case pages =>
    intro p
    have hmem : p ∈ ((s.setMem mem2).release hs.last.1 1).pages ↔
        p ∈ s.pages ∧ p ≠ hs.last.1 / 4096 := by
      simp [release, pagesAt]
    have hne : p ∈ (Headers.mk full q).pages → p ≠ hs.last.1 / 4096 := by
      intro hp
      obtain ⟨x, hx, rfl⟩ := mem_map.mp hp
      exact hpages.apart x (by rw [hfull]; exact hx)
    rw [hmem, hpagesEq, mem_append, mem_singleton, not_or]
    constructor
    · rintro ⟨hp, hlast⟩
      exact (hpages'.mem_iff.mp hp).imp_right fun hp => ⟨⟨hp.1, hlast⟩, hp.2⟩
    · rintro (hp | hp)
      · exact ⟨hpages'.mem_pages hp, hne hp⟩
      · exact ⟨hp.2, hp.1.2⟩
  case mem =>
    intro a ha _
    rw [hpagesEq, mem_append, mem_singleton, not_or] at ha
    refine (hsame a ha.2).trans (setWord_page (a := 0) hq.aligned (by omega) ?_)
    intro heq
    apply ha.1
    rw [heq]
    exact mem_pages_last ⟨full, q⟩
  case others => rfl

theorem Headers.ptrs_eq (hs : Headers) : hs.ptrs = hs.full.flatMap Prod.snd ++ hs.last.2 := by
  simp [Headers.ptrs, Headers.all]

theorem addToHeader_spec (hchain : ChainAt s.mem h hs) (hpages : HeaderPages s hs)
    (hptr : ptr < 2 ^ 32) (hfuel : hs.full.length + 1 < fuel)
    (hfresh : hs.last.2.length = maxCount → supply.page.Fresh s 1) :
    ∃ s' hs', addToHeader supply ptr fuel h s = .ok s' ∧ Rechained s s' h hs hs' ∧
      hs'.ptrs = hs.ptrs ++ [ptr] ∧
      ∀ p ∈ hs'.pages, p ∈ hs.pages ∨
        hs.last.2.length = maxCount ∧ p = supply.page.va / 4096 := by
  by_cases hroom : hs.last.2.length < maxCount
  · obtain ⟨s', hcall, hre⟩ := addToHeader_room supply hchain hpages hroom hptr
      (show hs.full.length < fuel by omega)
    refine ⟨s', _, hcall, hre, ?_, ?_⟩
    · rw [Headers.ptrs_eq, Headers.ptrs_eq, append_assoc]
    · intro p hp
      left
      simpa [Headers.pages, Headers.all] using hp
  · have hfull : hs.last.2.length = maxCount := by
      have := hchain.last.room
      omega
    obtain ⟨s', hcall, hre⟩ := addToHeader_full hchain hpages hfull hptr (hfresh hfull) hfuel
    refine ⟨s', _, hcall, hre, ?_, ?_⟩
    · simp [Headers.ptrs_eq]
    · intro p hp
      have hp : p ∈ hs.pages ∨ p = supply.page.va / 4096 := by
        simpa [Headers.pages, Headers.all, or_assoc] using hp
      exact hp.imp_right fun h => ⟨hfull, h⟩

theorem takeBlock_spec (hchain : ChainAt s.mem h hs) (hpages : HeaderPages s hs)
    (hne : hs.last.2 ≠ []) (hwindow : hs.full ≠ [] → hs.last.2.length = 1 → supply.window = true) :
    ∃ ptr s' hs', s.takeBlock supply ((hs.full.getLast?.map Prod.fst).getD 0) hs.last.1
        hs.last.2.length = .ok (ptr, s') ∧
      Rechained s s' h hs hs' ∧ hs.ptrs = hs'.ptrs ++ [ptr] ∧ ∀ p ∈ hs'.pages, p ∈ hs.pages := by
  obtain ⟨ptrs, ptr, hlast⟩ : ∃ ptrs ptr, hs.last.2 = ptrs ++ [ptr] :=
    ⟨_, _, (dropLast_append_getLast hne).symm⟩
  by_cases hkeep : hs.full ≠ [] → ptrs ≠ []
  · obtain ⟨s', hcall, hre⟩ := takeBlock_keep supply hchain hpages hlast hkeep
    refine ⟨ptr, s', _, hcall, hre, ?_, ?_⟩
    · rw [Headers.ptrs_eq, Headers.ptrs_eq, hlast, append_assoc]
    · intro p hp
      simpa [Headers.pages, Headers.all] using hp
  · obtain ⟨hfull, hnil⟩ : hs.full ≠ [] ∧ ptrs = [] := by simpa using hkeep
    obtain ⟨full, q, hsnoc⟩ : ∃ full q, hs.full = full ++ [q] :=
      ⟨_, _, (dropLast_append_getLast hfull).symm⟩
    subst hnil
    obtain ⟨s', hcall, hre⟩ := takeBlock_release hchain hpages hsnoc hlast
      (hwindow hfull (by rw [hlast]; rfl))
    refine ⟨ptr, s', _, hcall, hre, ?_, ?_⟩
    · simp [Headers.ptrs_eq, hlast, hsnoc]
    · intro p hp
      rw [Headers.pages, Headers.all, hsnoc, map_append]
      exact mem_append_left _ hp

end Quest.Mem.Pow2
