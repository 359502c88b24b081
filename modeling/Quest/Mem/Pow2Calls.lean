import Quest.Mem.Pow2Runs

/-! What single calls of the power-of-two allocator do. -/
namespace Quest.Mem.Pow2

open Quest.Lib Memory Tiling State List

structure LeastClass (size index : Nat) : Prop where
  min : minPow ≤ index
  holds : size ≤ 2 ^ index
  least : ∀ i, minPow ≤ i → size ≤ 2 ^ i → index ≤ i

/-- A size that some block can hold gets a block of the least class, now zero; every other one is
refused. -/
def Serves (s : State) (supply : Supply) (size : Nat) : Prop :=
  ∃ index ptr s', alloc s supply size = .ok ((index, ptr), s') ∧
    ((∃ i ≤ maxPow, size ≤ 2 ^ i) → LeastClass size index ∧ block index ptr ∈ s'.usedBlocks ∧
      ∀ a, ptr ≤ a → a < ptr + size → (block index ptr).Covers a ∧ s'.mem a = 0) ∧
    ((∀ i ≤ maxPow, 2 ^ i < size) →
      ptr = 0 ∧ s'.usedBlocks = s.usedBlocks ∧ s'.freeBlocks = s.freeBlocks)

variable {s s' : State} {own : Nat → Owner} {hs : Nat → Headers} {used hand : List (Nat × Nat)}
  {index ptr size : Nat} {supply : Supply}

theorem computeIndex_least (h : size ≤ maxSize) : LeastClass size (computeIndex size) := by
  refine ⟨(computeIndex_range size).1, le_computeIndex h, fun i hmin hsize => ?_⟩
  rw [computeIndex]
  split
  · exact hmin
  · split
    · rename_i hmax
      exact (Nat.pow_le_pow_iff_right (Nat.lt_succ_self 1)).mp (Nat.le_trans hmax hsize)
    · rename_i hlow _
      have hpos : size - 1 ≠ 0 := by
        have : 32 < size := not_le.mp hlow
        omega
      exact (Nat.log2_lt hpos).mpr (by omega)

theorem too_large (h : maxSize < size) (i : Nat) (hi : i ≤ maxPow) : 2 ^ i < size :=
  lt_of_le_of_lt (Nat.pow_le_pow_right (by decide) hi) h

theorem alloc_clears {r : Nat × Nat} (hok : alloc s supply size = .ok (r, s')) {a : Nat}
    (hle : r.2 ≤ a) (hlt : a < r.2 + size) : s'.mem a = 0 := by
  obtain ⟨⟨ptr, s1⟩, _, hok⟩ := bind_eq_ok.mp hok
  obtain ⟨s2, _, hok⟩ := bind_eq_ok.mp hok
  obtain ⟨s3, hclear, hok⟩ := bind_eq_ok.mp hok
  cases hok
  rw [memset, store] at hclear
  split at hclear
  · cases hclear
    dsimp only at hle hlt ⊢
    rw [blit_inside hle hlt]
  · cases hclear

/-- `pow2_alloc` gives a block of the right size, or refuses, for exactly the sizes up to that
of the largest block: a larger one is never refused. -/
theorem pow2_alloc_serves_iff (hvalid : s.Valid) (hsupplied : Supplied s (.alloc size, supply)) :
    Serves s supply size ↔ size ≤ maxSize := by
  obtain ⟨own, hs, used, hinv⟩ := hvalid
  constructor
  · rintro ⟨index, ptr, s', hok, hserved⟩
    by_contra hlarge
    obtain ⟨_, hused, _⟩ := hserved.2 (too_large (Nat.not_le.mp hlarge))
    obtain ⟨p, s₁, s₂, own₂, hs₂, hget, hinsert, hinv₂, _⟩ := hinv.reserve hsupplied
    rw [alloc_of_reserved hget hinsert] at hok
    cases hclear : s₂.memset p 0 size with
    | error fault =>
      rw [hclear] at hok
      cases hok
    | ok s₃ =>
      rw [hclear] at hok
      cases hok
      have hcount : s'.usedCount = s₂.usedCount := by
        rw [memset, store] at hclear
        split at hclear
        · cases hclear
          rfl
        · cases hclear
      have hlength := congrArg length hused
      rw [State.usedBlocks, State.usedBlocks, length_map, length_map, length_range,
        length_range, hcount, hinv₂.usedCount, hinv.usedCount, length_append,
        length_singleton] at hlength
      omega
  · intro hsize
    obtain ⟨ptr, s', own', hs', hok, hinv', _⟩ := hinv.alloc_spec hsupplied hsize
    have hleast := computeIndex_least hsize
    refine ⟨computeIndex size, ptr, s', hok, fun _ => ⟨hleast, ?_, fun a hle hlt =>
      ⟨⟨hle, ?_⟩, alloc_clears hok hle hlt⟩⟩, fun hlarge => ?_⟩
    · rw [hinv'.usedBlocks, blocks, map_append]
      simp
    · exact Nat.lt_of_lt_of_le hlt (Nat.add_le_add_left hleast.holds ptr)
    · exact absurd (hlarge maxPow (Nat.le_refl _)) (Nat.not_lt.mpr hsize)

theorem pow2_alloc_serves_iff_page : Serves booted bootSupply 4096 ↔ 4096 ≤ maxSize :=
  pow2_alloc_serves_iff (valid_of_init boot_grants init_booted) (supplied_booted 4096)

/-- `total_length` of `uhci_enumerate`: the sum of the lengths that the configurations report. -/
def totalLength (wTotalLength : List Nat) : Nat := wTotalLength.sum

/-- A device with two configurations of 0x8800 bytes: their buffer has 64 KiB, and more bytes
are cleared. -/
theorem pow2_alloc_returns_small_block :
    (alloc booted bootSupply (totalLength [0x8800, 0x8800])).toOption.map Prod.fst =
      some (16, 0xFFD00000) ∧ 2 ^ 16 < totalLength [0x8800, 0x8800] ∧
    ¬Serves booted bootSupply (totalLength [0x8800, 0x8800]) := by
  have hcomputed : (alloc booted bootSupply (totalLength [0x8800, 0x8800])).toOption.map Prod.fst =
      some (16, 0xFFD00000) := by decide +kernel
  refine ⟨hcomputed, by decide, ?_⟩
  rintro ⟨index, ptr, s', hok, hserved⟩
  have hrefused := hserved.2 (too_large (by decide))
  rw [hok, hrefused.1] at hcomputed
  cases hcomputed

/-- `pow2_free` ignores what starts no used block and undoes `pow2_alloc` up to the blocks that
were cut, and a longer used table has the same entries. -/
structure Robust (s : State) : Prop where
  foreign : ∀ ptr supply, (∀ b ∈ s.usedBlocks, b.base ≠ ptr) → free s supply ptr = .ok s
  inverse : ∀ size supply, Supplied s (.alloc size, supply) → size ≤ maxSize →
    ∃ index ptr s₁, alloc s supply size = .ok ((index, ptr), s₁) ∧
      ∀ supply', Supplied s₁ (.free ptr, supply') →
        ∃ s₂, free s₁ supply' ptr = .ok s₂ ∧ s₂.usedBlocks.Perm s.usedBlocks ∧
          ∃ obtained : Multiset Block,
            (obtained = 0 ∨ s.NeedsRegion index ∧ obtained = {block maxPow supply.region.va}) ∧
            Cuts (s.freeBlocks + obtained) s₂.freeBlocks
  grows : ∀ supply : Supply, supply.window = true → supply.used.Fresh s (s.usedTablePages + 1) →
    ∃ s', s.growUsedTable supply = .ok s' ∧ s'.usedCount = s.usedCount ∧
      ∀ i < s.usedCount, word s'.mem (s'.usedTable + 4 * i) = word s.mem (s.usedTable + 4 * i)

namespace Inv

theorem free_foreign (h : Inv s own hs used []) (supply : Supply)
    (hforeign : ∀ b ∈ s.usedBlocks, b.base ≠ ptr) : Pow2.free s supply ptr = .ok s := by
  obtain ⟨hnone, _⟩ | ⟨index, _, used', _, _, hperm⟩ := h.removeUsedTable ptr
  · rw [Pow2.free, hnone, ok_bind]
  · rw [h.usedBlocks, blocks] at hforeign
    have hmem : (ptr, index) ∈ used := hperm.subset mem_cons_self
    exact absurd rfl (hforeign _ (mem_map_of_mem hmem))

theorem used_unique (h : Inv s own hs (used ++ [(ptr, index)]) []) {index' : Nat}
    (hmem : (ptr, index') ∈ used) : False := by
  have hstart : ∀ i, (block i ptr).Covers ptr := fun i =>
    ⟨le_refl ptr, Nat.lt_add_of_pos_right (Nat.two_pow_pos i)⟩
  have hone : 0 < cover (blocks used) ptr :=
    cover_pos.mpr ⟨_, mem_map_of_mem (f := fun b => block b.2 b.1) hmem, hstart index'⟩
  have hall := h.cover_regions_le ptr
  rw [← h.tiling ptr, blocks, map_append, cover_append, map_singleton, cover_cons,
    if_pos (hstart index)] at hall
  rw [blocks] at hone
  omega

theorem freeBlocks_eq (h : Inv s own hs used hand) : (s.freeBlocks : Multiset Block) = freeMultiset hs := by
  rw [h.freeBlocks, freeMultiset, Finset.sum_eq_multiset_sum, Finset.range_val, Multiset.range,
    ← Multiset.coe_bind]
  rfl

theorem free_alloc (h : Inv s own hs used []) (hsup : Supplied s (.alloc size, supply))
    (hsize : size ≤ maxSize) :
    ∃ index ptr s1, Pow2.alloc s supply size = .ok ((index, ptr), s1) ∧
      ∀ supply', Supplied s1 (.free ptr, supply') →
        ∃ s2, Pow2.free s1 supply' ptr = .ok s2 ∧ s2.usedBlocks.Perm s.usedBlocks ∧
          ∃ obtained : Multiset Block,
            (obtained = 0 ∨ s.NeedsRegion index ∧ obtained = {block maxPow supply.region.va}) ∧
            Cuts (s.freeBlocks + obtained) s2.freeBlocks := by
  obtain ⟨ptr, s1, own1, hs1, hok, hinv1, obtained, hobtained, whole, kept, rest, hwhole, hsplit,
    hkept⟩ := h.alloc_spec hsup hsize
  refine ⟨_, ptr, s1, hok, fun supply' hsup' => ?_⟩
  obtain ⟨_, hother⟩ | ⟨s2, own2, hs2, used2, index', hfree, hinv2, hperm, hadded⟩ :=
    hinv1.free_cases hsup'
  · exact absurd rfl (hother (ptr, computeIndex size) (by simp))
  · have hindex : (ptr, index') = (ptr, computeIndex size) := by
      rcases mem_append.mp (hperm.subset mem_cons_self) with hmem | hmem
      · exact (hinv1.used_unique hmem).elim
      · exact mem_singleton.mp hmem
    rw [hindex] at hperm
    rw [(Prod.mk.inj hindex).2] at hadded
    have hused : used2.Perm used :=
      perm_cons (ptr, computeIndex size) |>.mp (hperm.trans (perm_append_singleton _ _))
    refine ⟨s2, hfree, ?_, obtained, hobtained.imp_right fun hnew => ⟨h.needsRegion hnew.1, hnew.2⟩, ?_⟩
    · rw [hinv2.usedBlocks, h.usedBlocks]
      exact hused.map _
    · rw [h.freeBlocks_eq, hinv2.freeBlocks_eq, hadded, hwhole, hkept]
      exact hsplit.cuts kept

theorem robust (h : Inv s own hs used []) : Robust s := by
  refine ⟨fun ptr supply => h.free_foreign supply, fun size supply => h.free_alloc, ?_⟩
  intro supply hwindow hfresh
  obtain ⟨s', own', hcall, hinv, _⟩ := h.growUsedTable hwindow hfresh
  refine ⟨s', hcall, hinv.usedCount.trans h.usedCount.symm, fun i hi => ?_⟩
  rw [h.usedCount] at hi
  rw [hinv.entry i hi, h.entry i hi]

end Inv

/-- In every run whose requests are at most 64 KiB, `pow2_free` ignores what starts no used block
and undoes `pow2_alloc`, and a longer used table keeps its entries. -/
theorem pow2_free_robust {headers : Nat → Grant} {usedGrant : Grant} {s0 : State}
    {mem : Nat → UInt8} (hboot : Boot headers usedGrant)
    (hinit : init mem headers usedGrant = .ok s0)
    (hrun : Reach.Reaches step (fun s c => Supplied s c ∧ c.1.Fits) s0 s) : Robust s := by
  obtain ⟨own, hs, used, hinv⟩ := valid_of_reaches hboot hinit hrun
  exact hinv.robust

theorem pow2_free_robust_booted : Robust booted := pow2_free_robust boot_grants init_booted .refl

theorem pow2_free_forgets_block :
    Supplied booted (.alloc 0x11000, bootSupply) ∧ booted.usedBlocks = [] ∧
    (do
      let (r, s₁) ← alloc booted bootSupply 0x11000
      let s₂ ← free s₁ bootSupply r.2
      return (s₁.usedBlocks, s₂.usedBlocks)).toOption = some ([⟨0, 1⟩], [⟨0, 1⟩]) :=
  ⟨supplied_booted 0x11000, by decide +kernel, by decide +kernel⟩

/-! The chains of headers and the blocks that single calls move. -/

namespace State

def chainHeaders (s : State) : Nat → Nat → List Nat
  | 0, _ => []
  | fuel + 1, h => h :: if word s.mem h = 0 then [] else s.chainHeaders fuel (word s.mem h)

def headers (s : State) (c : Nat) : List Nat := s.chainHeaders (s.pages.length + 1) (s.table c)

/-- Only the first header of a chain may be empty and only the last one has room, and the
allocator has no pages but the headers, the used table and the regions. -/
structure Chained (s : State) : Prop where
  full : ∀ c < tableLen, ∀ h ∈ s.headers c, word s.mem h ≠ 0 → word s.mem (h + 4) = maxCount
  nonempty : ∀ c < tableLen, ∀ h ∈ (s.headers c).tail, word s.mem (h + 4) ≠ 0
  ends : ∀ c < tableLen, ∃ h ∈ s.headers c, word s.mem h = 0
  nodup : ∀ c < tableLen, (s.headers c).Nodup
  apart : ∀ c < tableLen, ∀ c' < tableLen, ∀ h ∈ s.headers c, h ∈ s.headers c' → c = c'
  pages : ∀ p, p ∈ s.pages ↔ (∃ c < tableLen, p ∈ (s.headers c).map (· / 4096)) ∨
    (s.usedTable / 4096 ≤ p ∧ p < s.usedTable / 4096 + s.usedTablePages) ∨
    ∃ r ∈ s.regions, r / 4096 ≤ p ∧ p < r / 4096 + maxPowFrames

/-- `pow2_add_free_block` adds the block that it is given, and `pow2_get_free_block` removes one
block or cuts one up, which is a new region only if no block is large enough. -/
structure KeepsChains (s : State) : Prop where
  chained : s.Chained
  add : ∀ ptr supply index s1, Supplied s (.free ptr, supply) →
    s.removeUsedTable ptr = .ok (some index, s1) →
    ∃ s2, s1.addFreeBlock supply ptr index = .ok s2 ∧ s2.Chained ∧
      (s2.freeBlocks : Multiset Block) = block index ptr ::ₘ s1.freeBlocks
  get : ∀ size supply, Supplied s (.alloc size, supply) →
    ∃ ptr s1, getFreeBlock supply (maxPow - computeIndex size) s = .ok (ptr, s1) ∧ s1.Chained ∧
      ∃ obtained whole kept rest, (obtained = 0 ∨ s.NeedsRegion (computeIndex size) ∧
          obtained = {block maxPow supply.region.va}) ∧
        (s.freeBlocks : Multiset Block) + obtained = whole ::ₘ kept ∧
        Split whole (block (computeIndex size) ptr) rest ∧
        (s1.freeBlocks : Multiset Block) = rest + kept

end State

theorem chainHeaders_seg {full : List (Nat × List Nat)} {h e fuel : Nat} (hseg : Seg s.mem h full e)
    (hpos : ∀ x ∈ full, x.1 ≠ 0) (he : e ≠ 0) :
    s.chainHeaders (full.length + fuel) h = full.map Prod.fst ++ s.chainHeaders fuel e := by
  induction full generalizing h with
  | nil => rw [show h = e from hseg, length_nil, Nat.zero_add, map_nil, nil_append]
  | cons x rest ih =>
    obtain ⟨rfl, _, _, hrest⟩ := hseg
    have hrestPos := fun y hy => hpos y (mem_cons_of_mem x hy)
    rw [length_cons, Nat.add_right_comm, chainHeaders, if_neg (hrest.ne_zero hrestPos he),
      ih hrest hrestPos, map_cons, cons_append]

theorem Seg.count {mem : Nat → UInt8} {full : List (Nat × List Nat)} {h e : Nat}
    (hseg : Seg mem h full e) : ∀ x ∈ full, word mem (x.1 + 4) = maxCount := by
  induction full generalizing h with
  | nil => nofun
  | cons x rest ih =>
    obtain ⟨rfl, hat, hlen, hrest⟩ := hseg
    exact forall_mem_cons.mpr ⟨hat.count.trans hlen, ih hrest⟩

namespace Inv

theorem headers (h : Inv s own hs used hand) {c : Nat} (hc : c < tableLen) :
    s.headers c = (hs c).all.map Prod.fst := by
  have hchain := h.chain c hc
  have hpages := h.headerPages hc
  obtain ⟨n, hn⟩ := h.fuel_eq hc
  rw [State.headers, hn, chainHeaders_seg hchain.seg (fun x hx => (hpages.inFull x hx).pos)
    hpages.last.pos, chainHeaders, if_pos hchain.ends, Headers.all, map_append]
  rfl

theorem chained (h : Inv s own hs used hand) : s.Chained := by
  have hpage : ∀ {c x}, c < tableLen → x ∈ s.headers c → own (x / 4096) = .header c := by
    intro c x hc hx
    rw [h.headers hc] at hx
    obtain ⟨y, hy, rfl⟩ := mem_map.mp hx
    exact h.own_header hc (mem_map_of_mem hy)
  constructor
  case full =>
    intro c hc x hx hnext
    rw [h.headers hc, Headers.all, map_append, mem_append] at hx
    rcases hx with hx | hx
    · obtain ⟨y, hy, rfl⟩ := mem_map.mp hx
      exact (h.chain c hc).seg.count y hy
    · rw [mem_singleton.mp hx] at hnext
      exact absurd (h.chain c hc).ends hnext
  case nonempty =>
    intro c hc x hx
    have hchain := h.chain c hc
    rw [h.headers hc, Headers.all] at hx
    cases hfull : (hs c).full with
    | nil =>
      rw [hfull] at hx
      cases hx
    | cons y rest =>
      rw [hfull, cons_append, map_cons, tail_cons, map_append,
        mem_append] at hx
      rcases hx with hx | hx
      · obtain ⟨z, hz, rfl⟩ := mem_map.mp hx
        rw [hchain.seg.count z (by simp [hfull, hz])]
        decide
      · rw [mem_singleton.mp hx, hchain.last.count]
        exact fun hzero => hchain.nonempty (by simp [hfull]) (length_eq_zero_iff.mp hzero)
  case ends =>
    intro c hc
    rw [h.headers hc]
    exact ⟨_, by simp [Headers.all], (h.chain c hc).ends⟩
  case nodup =>
    intro c hc
    rw [h.headers hc]
    exact h.nodup c hc
  case apart =>
    intro c hc c' hc' x hx hx'
    have hown := hpage hc hx
    rw [hpage hc' hx'] at hown
    exact (Owner.header.inj hown).symm
  case pages =>
    intro p
    rw [h.pages]
    constructor
    · intro hp
      cases hown : own p with
      | nobody => exact absurd hown hp
      | header c =>
        obtain ⟨hc, hin⟩ := (h.header c p).mp hown
        refine .inl ⟨c, hc, ?_⟩
        rw [h.headers hc, map_map]
        exact hin
      | used => exact .inr (.inl ((h.usedPages p).mp hown))
      | region r => exact .inr (.inr ⟨r, (h.region r p).mp hown⟩)
    · rintro (⟨c, hc, hin⟩ | hin | ⟨r, hin⟩)
      · obtain ⟨x, hx, rfl⟩ := mem_map.mp hin
        rw [hpage hc hx]
        simp
      · rw [(h.usedPages p).mpr hin]
        simp
      · rw [(h.region r p).mpr hin]
        simp

end Inv

/-- In every run whose requests are at most 64 KiB. -/
theorem pow2_keeps_chains {headers : Nat → Grant} {usedGrant : Grant} {s0 : State}
    {mem : Nat → UInt8} (hboot : Boot headers usedGrant)
    (hinit : init mem headers usedGrant = .ok s0)
    (hrun : Reach.Reaches step (fun s c => Supplied s c ∧ c.1.Fits) s0 s) : s.KeepsChains := by
  obtain ⟨own, hs, used, hinv⟩ := valid_of_reaches hboot hinit hrun
  refine ⟨hinv.chained, fun ptr supply index s1 hsup hsome => ?_, fun size supply hsup => ?_⟩
  · obtain ⟨hnone, _⟩ | ⟨index', s1', used1, hsome', hinv1, _⟩ := hinv.removeUsedTable ptr
    · rw [hsome] at hnone
      cases hnone
    · rw [hsome] at hsome'
      cases hsome'
      obtain ⟨s2, own2, hs2, hadd, hinv2, hadded⟩ := hinv.giveBack hsup hsome hinv1
      refine ⟨s2, hadd, hinv2.chained, ?_⟩
      rw [hinv2.freeBlocks_eq, hinv1.freeBlocks_eq, hadded]
  · obtain ⟨ptr, s1, own1, hs1, hget, hinv1, _, ⟨obtained, hobtained, whole, kept, rest, hwhole,
      hsplit, hkept⟩, _⟩ := hinv.take hsup
    refine ⟨ptr, s1, hget, hinv1.chained, obtained, whole, kept, rest,
      hobtained.imp_right fun hnew => ⟨hinv.needsRegion hnew.1, hnew.2⟩, ?_, hsplit, ?_⟩
    · rw [hinv.freeBlocks_eq, hwhole]
    · rw [hinv1.freeBlocks_eq, hkept]

theorem pow2_keeps_chains_booted : booted.KeepsChains :=
  pow2_keeps_chains boot_grants init_booted .refl

/-- A large request clears the used table behind its block, and `pow2_free (NULL)` finds a used
block of class 0, for which there is no chain. -/
theorem pow2_add_free_block_leaves_table :
    ∃ s s1, Reach.Reaches step Supplied booted s ∧ Supplied s (.free 0, bootSupply) ∧
      s.removeUsedTable 0 = .ok (some 0, s1) ∧
      s1.addFreeBlock bootSupply 0 0 = .error .outOfBounds ∧ ¬s.KeepsChains := by
  have hcomputed : (do
      let s ← step booted (.alloc 0x11000, bootSupply)
      let r ← s.removeUsedTable 0
      return (r.1, s.pages)).toOption =
      some (some 0, range' 0xFFD20 12 ++ [0xFFD10] ++ range' 0xFFD00 16) := by decide +kernel
  cases hstep : step booted (.alloc 0x11000, bootSupply) with
  | error fault =>
    rw [hstep] at hcomputed
    cases hcomputed
  | ok s =>
    rw [hstep, ok_bind] at hcomputed
    cases hrem : s.removeUsedTable 0 with
    | error fault =>
      rw [hrem] at hcomputed
      cases hcomputed
    | ok r =>
      obtain ⟨index, s1⟩ := r
      rw [hrem, ok_bind] at hcomputed
      obtain ⟨rfl, hpages⟩ := Prod.mk.inj (Option.some.inj hcomputed)
      have hsup : Supplied s (.free 0, bootSupply) := by
        refine fun _ => ⟨rfl, by decide, by decide, by decide, fun p hle hlt => ?_⟩
        rw [hpages, show p = 0xFFD40 from Nat.le_antisymm (Nat.le_of_lt_succ hlt) hle]
        decide
      refine ⟨s, s1, .tail .refl (supplied_booted 0x11000) hstep, hsup, hrem, rfl, fun hkeeps => ?_⟩
      obtain ⟨s2, hadd, _⟩ := hkeeps.add 0 bootSupply 0 s1 hsup hrem
      cases hadd

end Quest.Mem.Pow2
