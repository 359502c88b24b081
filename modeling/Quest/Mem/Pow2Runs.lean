import Quest.Mem.Tiles
import Quest.Lib.Reach

/-! Runs of the power-of-two allocator from `pow2_init` on. -/
namespace Quest.Mem.Pow2

open Quest.Lib Memory Tiling State List Function

namespace State

def chainPtrs (s : State) : Nat → Nat → List Nat
  | 0, _ => []
  | fuel + 1, h =>
      (List.range (word s.mem (h + 4))).map (fun i => word s.mem (h + 8 + 4 * i)) ++
        if word s.mem h = 0 then [] else s.chainPtrs fuel (word s.mem h)

def freeBlocks (s : State) : List Block :=
  (List.range tableLen).flatMap fun c =>
    (s.chainPtrs (s.pages.length + 1) (s.table c)).map (block (c + minPow))

def decode (e : Nat) : Block := block (e &&& maskPow) (e - e % 2 ^ minPow)

def usedBlocks (s : State) : List Block :=
  (List.range s.usedCount).map fun i => decode (word s.mem (s.usedTable + 4 * i))

/-- Free and used blocks are apart, aligned, and cover the regions. -/
structure Tiled (s : State) : Prop where
  disjoint : (s.freeBlocks ++ s.usedBlocks).Pairwise Block.Disjoint
  aligned : ∀ b ∈ s.freeBlocks ++ s.usedBlocks, b.base % 32 = 0
  covers : ∀ a, (∃ b ∈ s.freeBlocks ++ s.usedBlocks, b.Covers a) ↔
    ∃ r ∈ s.regions, r ≤ a ∧ a < r + maxSize

def NeedsRegion (s : State) (index : Nat) : Prop :=
  ∀ c < tableLen, index - minPow ≤ c → word s.mem (s.table c + 4) = 0

def NeedsTable (s : State) : Prop := s.usedTablePages * 0x400 ≤ s.usedCount

/-- The last block of a header other than the first is taken, and the header's page
given back. -/
def Releases (s : State) (index : Nat) : Prop :=
  ∃ c < tableLen, index - minPow ≤ c ∧
    (∀ c', index - minPow ≤ c' → c' < c → word s.mem (s.table c' + 4) = 0) ∧
    ∃ prev hdr, prev ≠ 0 ∧
      s.findHeader (s.pages.length + 1) 0 (s.table c) = .ok (prev, hdr, 1)

def fullFrom (s : State) : Nat → Nat → Bool
  | 0, _ => false
  | fuel + 1, h =>
      maxCount ≤ word s.mem (h + 4) && (word s.mem h = 0 || s.fullFrom fuel (word s.mem h))

def NeedsPage (s : State) (ptr : Nat) : Prop :=
  ∃ index s', s.removeUsedTable ptr = .ok (some index, s') ∧
    s'.fullFrom (s'.pages.length + 1) (s'.table (index - minPow)) = true

end State

inductive Call where
  | alloc (size : Nat)
  | free (ptr : Nat)

def step (s : State) (c : Call × Supply) : Except Fault State :=
  match c.1 with
  | .alloc size => Prod.snd <$> alloc s c.2 size
  | .free ptr => free s c.2 ptr

/-- The suppliers that the call turns to hand out pages that nobody has. -/
def Supplied (s : State) (c : Call × Supply) : Prop :=
  match c.1 with
  | .alloc size =>
      (s.NeedsTable ∨ s.Releases (computeIndex size) → c.2.window = true) ∧
      (s.NeedsRegion (computeIndex size) → c.2.region.Fresh s maxPowFrames) ∧
      (s.NeedsTable → c.2.used.Fresh s (s.usedTablePages + 1)) ∧
      (s.NeedsRegion (computeIndex size) → s.NeedsTable →
        c.2.region.va + 4096 * maxPowFrames ≤ c.2.used.va ∨
          c.2.used.va + 4096 * (s.usedTablePages + 1) ≤ c.2.region.va)
  | .free ptr => s.NeedsPage ptr → c.2.page.Fresh s 1

def Call.Fits : Call → Prop
  | .alloc size => size ≤ maxSize
  | .free _ => True

variable {s s' : State} {own : Nat → Owner} {hs : Nat → Headers} {used hand : List (Nat × Nat)}
  {a c p index ptr size fuel : Nat} {supply : Supply}

theorem computeIndex_range (size : Nat) :
    minPow ≤ computeIndex size ∧ computeIndex size ≤ maxPow := by
  rw [computeIndex]
  split
  · decide
  · split
    · decide
    · simp only [minSize, maxSize, minPow, maxPow] at *
      have hlow : 5 ≤ Nat.log2 (size - 1) := (Nat.le_log2 (by omega)).mpr (by omega)
      have hhigh : Nat.log2 (size - 1) < 16 := (Nat.log2_lt (by omega)).mpr (by omega)
      omega

theorem le_computeIndex (h : size ≤ maxSize) : size ≤ 2 ^ computeIndex size := by
  rw [computeIndex]
  split
  · assumption
  · split
    · exact h
    · have hlt := Nat.lt_log2_self (n := size - 1)
      omega

namespace Inv

theorem count_eq_zero (h : Inv s own hs used hand) (hc : c < tableLen) :
    word s.mem (s.table c + 4) = 0 ↔ (hs c).last.2 = [] := by
  have hchain := h.chain c hc
  have hseg := hchain.seg
  cases hfull : (hs c).full with
  | nil =>
    rw [hfull] at hseg
    rw [show s.table c = (hs c).last.1 from hseg, hchain.last.count, length_eq_zero_iff]
  | cons x rest =>
    rw [hfull] at hseg
    have hne := hchain.nonempty (by simp [hfull])
    rw [hseg.2.1.count, hseg.2.2.1]
    simp [hne, maxCount]

theorem needsRegion (h : Inv s own hs used hand)
    (hempty : ∀ c, index - minPow ≤ c → c < tableLen → (hs c).last.2 = []) :
    s.NeedsRegion index :=
  fun c hc hle => (h.count_eq_zero hc).mpr (hempty c hle hc)

end Inv

variable {full : List (Nat × List Nat)}

theorem fullFrom_seg {h e : Nat} (hseg : Seg s.mem h full e) (he : s.fullFrom fuel e = true)
    : s.fullFrom (full.length + fuel) h = true := by
  induction full generalizing h with
  | nil =>
    rw [show h = e from hseg, length_nil, zero_add]
    exact he
  | cons x rest ih =>
    obtain ⟨rfl, hat, hlen, hrest⟩ := hseg
    rw [length_cons, add_right_comm, State.fullFrom, hat.count, hlen, ih hrest]
    simp

theorem HeaderAt.map_range {h : Nat} {ptrs : List Nat} (hat : HeaderAt s.mem h ptrs) :
    (range (word s.mem (h + 4))).map (fun i => word s.mem (h + 8 + 4 * i)) = ptrs := by
  rw [hat.count]
  apply ext_getElem
  · simp
  · intro i hi hi'
    simp [hat.ptr i hi']

theorem chainPtrs_seg {h e : Nat} (hseg : Seg s.mem h full e) (hpos : ∀ x ∈ full, x.1 ≠ 0)
    (he : e ≠ 0) :
    s.chainPtrs (full.length + fuel) h = full.flatMap Prod.snd ++ s.chainPtrs fuel e := by
  induction full generalizing h with
  | nil => rw [show h = e from hseg, length_nil, zero_add, flatMap_nil, nil_append]
  | cons x rest ih =>
    obtain ⟨rfl, hat, _, hrest⟩ := hseg
    have hrestPos := fun y hy => hpos y (mem_cons_of_mem x hy)
    rw [length_cons, add_right_comm, chainPtrs, hat.map_range,
      if_neg (hrest.ne_zero hrestPos he), ih hrest hrestPos, flatMap_cons, append_assoc]

namespace Inv

section

variable (h : Inv s own hs used hand)
include h

theorem fuel_eq (hc : c < tableLen) :
    ∃ n, s.pages.length + 1 = (hs c).full.length + (n + 1) := by
  have := h.full_lt hc
  exact ⟨s.pages.length - (hs c).full.length, by omega⟩

theorem fullFrom (hc : c < tableLen)
    (hfull : (hs c).last.2.length = maxCount) :
    s.fullFrom (s.pages.length + 1) (s.table c) = true := by
  have hchain := h.chain c hc
  obtain ⟨n, hn⟩ := h.fuel_eq hc
  rw [hn]
  apply fullFrom_seg hchain.seg
  rw [State.fullFrom, hchain.last.count, hfull, hchain.ends]
  simp

theorem chainPtrs (hc : c < tableLen) :
    s.chainPtrs (s.pages.length + 1) (s.table c) = (hs c).ptrs := by
  have hchain := h.chain c hc
  have hpages := h.headerPages hc
  obtain ⟨n, hn⟩ := h.fuel_eq hc
  rw [hn, chainPtrs_seg hchain.seg (fun x hx => (hpages.inFull x hx).pos) hpages.last.pos,
    State.chainPtrs, hchain.last.map_range, if_pos hchain.ends, append_nil, Headers.ptrs_eq]

theorem freeBlocks :
    s.freeBlocks = (List.range tableLen).flatMap fun c => (hs c).ptrs.map (block (c + minPow)) := by
  apply flatMap_congr
  intro c hc
  rw [h.chainPtrs (mem_range.mp hc)]

theorem cover_freeBlocks (a : Nat) :
    cover s.freeBlocks a = freeCover hs a := by
  rw [h.freeBlocks, cover, countP_flatMap, freeCover, Finset.sum_eq_multiset_sum,
    Finset.range_val, Multiset.range, Multiset.map_coe, Multiset.sum_coe]
  rfl

theorem usedBlocks : s.usedBlocks = blocks used := by
  apply ext_getElem
  · simp [State.usedBlocks, blocks, h.usedCount]
  · intro i hi hi'
    have hlt : i < used.length := by simpa [blocks] using hi'
    have hdesc := h.descriptors used[i] (mem_append_left _ (getElem_mem hlt))
    simp only [State.usedBlocks, blocks, getElem_map, getElem_range, decode,
      h.entry i hlt, descriptor_ptr hdesc, descriptor_index hdesc]

end

theorem covers_region : 0 < cover (s.regions.map (block maxPow)) a ↔
    ∃ r ∈ s.regions, r ≤ a ∧ a < r + maxSize := by
  simp only [cover_pos, mem_map, exists_exists_and_eq_and]
  rfl

theorem cover_regions_le (h : Inv s own hs used hand) (a : Nat) :
    cover (s.regions.map (block maxPow)) a ≤ 1 := by
  apply cover_le_one
  apply pairwise_map.mpr
  apply h.regions.imp_of_mem
  intro r r' hr hr' hne a ha ha'
  have hown := h.own_region hr ha
  rw [h.own_region hr' ha'] at hown
  exact hne (Owner.region.inj hown).symm

theorem tiled (h : Inv s own hs used []) : s.Tiled := by
  have hcover : ∀ a, cover (s.freeBlocks ++ s.usedBlocks) a =
      cover (s.regions.map (block maxPow)) a := by
    intro a
    rw [cover_append, h.cover_freeBlocks, h.usedBlocks, ← h.tiling a,
      show cover (blocks []) a = 0 from rfl, add_zero]
  constructor
  case disjoint =>
    apply pairwise_disjoint
    intro a
    rw [hcover]
    exact h.cover_regions_le a
  case aligned =>
    intro b hb
    rcases mem_append.mp hb with hb | hb
    · rw [h.freeBlocks, mem_flatMap] at hb
      obtain ⟨c, hc, hb⟩ := hb
      obtain ⟨ptr, hptr, rfl⟩ := mem_map.mp hb
      exact h.free c (mem_range.mp hc) ptr hptr
    · rw [h.usedBlocks] at hb
      obtain ⟨x, hx, rfl⟩ := mem_map.mp hb
      exact (h.descriptors x (by simp [hx])).aligned
  case covers =>
    intro a
    rw [← cover_pos, hcover, covers_region]

theorem releases (h : Inv s own hs used hand) (hc : c < tableLen) (hle : index - minPow ≤ c)
    (hbelow : ∀ c', index - minPow ≤ c' → c' < c → (hs c').last.2 = []) (hfull : (hs c).full ≠ [])
    (hone : (hs c).last.2.length = 1) : s.Releases index := by
  obtain ⟨full, q, hsnoc⟩ : ∃ full q, (hs c).full = full ++ [q] :=
    ⟨_, _, (dropLast_append_getLast hfull).symm⟩
  have hq := (h.headerPages hc).inFull q (by simp [hsnoc])
  refine ⟨c, hc, hle, fun c' hle' hlt => ?_, q.1, (hs c).last.1, hq.pos, ?_⟩
  · exact (h.count_eq_zero (Nat.lt_trans hlt hc)).mpr (hbelow c' hle' hlt)
  · rw [h.findHeader hc, hone, hsnoc, getLast?_concat]
    rfl

theorem take (h : Inv s own hs used []) (hsup : Supplied s (.alloc size, supply)) :
    ∃ ptr s1 own1 hs1, State.getFreeBlock supply (maxPow - computeIndex size) s = .ok (ptr, s1) ∧
      Inv s1 own1 hs1 used [(ptr, computeIndex size)] ∧ Kept s s1 ∧
      CutFrom hs hs1 supply (computeIndex size - minPow) (block (computeIndex size) ptr) ∧
      ∀ p ∈ s1.pages, p ∈ s.pages ∨ s.NeedsRegion (computeIndex size) ∧
        supply.region.va / 4096 ≤ p ∧ p < supply.region.va / 4096 + maxPowFrames := by
  obtain ⟨hwindow, hreg, _⟩ := hsup
  obtain ⟨hmin, hmax⟩ := computeIndex_range size
  have hd : maxPow - computeIndex size < tableLen := by
    simp only [minPow, maxPow, tableLen] at *
    omega
  have hclass : tableLen - 1 - (maxPow - computeIndex size) = computeIndex size - minPow := by
    simp only [minPow, maxPow, tableLen] at *
    omega
  obtain ⟨ptr, s1, own1, hs1, hget, hinv1, hkept, hcut, _, hpages⟩ := h.getFreeBlock hd
    (by
      rw [hclass]
      exact fun c hle hlt hbelow hfull hone =>
        hwindow (.inr (h.releases hlt hle hbelow hfull hone)))
    (by
      rw [hclass]
      exact fun hempty => hreg (h.needsRegion hempty))
  rw [Nat.sub_sub_self hmax] at hinv1 hcut
  rw [hclass] at hpages hcut
  exact ⟨ptr, s1, own1, hs1, hget, hinv1, hkept, hcut, fun p hp =>
    (hpages p hp).imp_right fun hp => ⟨h.needsRegion hp.1, hp.2⟩⟩

theorem reserve (h : Inv s own hs used []) (hsup : Supplied s (.alloc size, supply)) :
    ∃ ptr s1 s2 own2 hs2,
      State.getFreeBlock supply (maxPow - computeIndex size) s = .ok (ptr, s1) ∧
      s1.insertUsedTable supply ptr (computeIndex size) = .ok s2 ∧
      Inv s2 own2 hs2 (used ++ [(ptr, computeIndex size)]) [] ∧
      CutFrom hs hs2 supply (computeIndex size - minPow) (block (computeIndex size) ptr) := by
  obtain ⟨ptr, s1, own1, hs1, hget, hinv1, hkept, hcut, hpages⟩ := h.take hsup
  obtain ⟨hwindow, hreg, htable, hapart⟩ := hsup
  dsimp only at hwindow hreg htable hapart
  obtain ⟨s2, own2, hins, hinv2⟩ := hinv1.insertUsedTable
    (by
      rw [hkept.usedTablePages, hkept.usedCount]
      exact fun hneeds => hwindow (.inl hneeds))
    (by
      rw [hkept.usedTablePages, hkept.usedCount]
      intro hneeds
      have hfresh := htable hneeds
      refine { hfresh with unused := fun p hle hlt hp => ?_ }
      rcases hpages p hp with hp | ⟨hregion, hp⟩
      · exact hfresh.unused p hle hlt hp
      · have := hapart hregion hneeds
        have := (hreg hregion).aligned
        have := hfresh.aligned
        omega)
  exact ⟨ptr, s1, s2, own2, hs1, hget, hins, hinv2, hcut⟩

end Inv

theorem alloc_of_reserved {s1 s2 : State}
    (hget : getFreeBlock supply (maxPow - computeIndex size) s = .ok (ptr, s1))
    (hins : s1.insertUsedTable supply ptr (computeIndex size) = .ok s2) :
    alloc s supply size =
      (s2.memset ptr 0 size).map fun s => ((computeIndex size, ptr), s) := by
  rw [alloc, hget, ok_bind]
  dsimp only
  rw [hins, ok_bind]
  cases s2.memset ptr 0 size with
  | error fault => rfl
  | ok s => rfl

namespace Inv

variable (h : Inv s own hs used [])
include h

theorem alloc_spec (hsup : Supplied s (.alloc size, supply))
    (hsize : size ≤ maxSize) :
    ∃ ptr s' own' hs', Pow2.alloc s supply size = .ok ((computeIndex size, ptr), s') ∧
      Inv s' own' hs' (used ++ [(ptr, computeIndex size)]) [] ∧
      CutFrom hs hs' supply (computeIndex size - minPow) (block (computeIndex size) ptr) := by
  obtain ⟨ptr, s1, s2, own2, hs2, hget, hins, hinv2, hcut⟩ := h.reserve hsup
  obtain ⟨s3, hclear, hinv3⟩ := hinv2.memset (b := (ptr, computeIndex size)) (by simp)
    (le_computeIndex hsize)
  refine ⟨ptr, s3, own2, hs2, ?_, hinv3, hcut⟩
  rw [alloc_of_reserved hget hins, hclear]
  rfl

theorem giveBack {s1 : State} {used1 : List (Nat × Nat)} (hsup : Supplied s (.free ptr, supply))
    (hsome : s.removeUsedTable ptr = .ok (some index, s1))
    (hinv1 : Inv s1 own hs used1 [(ptr, index)]) :
    ∃ s2 own2 hs2, s1.addFreeBlock supply ptr index = .ok s2 ∧ Inv s2 own2 hs2 used1 [] ∧
      freeMultiset hs2 = block index ptr ::ₘ freeMultiset hs := by
  have hdesc := hinv1.descriptors (ptr, index) (by simp)
  have hc : index - minPow < tableLen := by
    have hmax := hdesc.max
    simp only [minPow, maxPow, tableLen] at hmax ⊢
    omega
  obtain ⟨s2, own2, h2, hadd, hinv2, _, hptrs, _⟩ := hinv1.addFreeBlock supply (by
    intro hfull
    have hfresh := hsup ⟨index, s1, hsome, hinv1.fullFrom hc hfull⟩
    refine { hfresh with unused := fun p hle hlt => ?_ }
    rw [h.mem_pages_iff hinv1]
    exact hfresh.unused p hle hlt)
  refine ⟨s2, own2, _, hadd, hinv2, ?_⟩
  rw [freeMultiset_push hc hptrs, Nat.sub_add_cancel hdesc.min]

theorem free_cases (hsup : Supplied s (.free ptr, supply)) :
    (Pow2.free s supply ptr = .ok s ∧ ∀ b ∈ used, b.1 ≠ ptr) ∨
      ∃ s' own' hs' used' index, Pow2.free s supply ptr = .ok s' ∧ Inv s' own' hs' used' [] ∧
        ((ptr, index) :: used').Perm used ∧
        freeMultiset hs' = block index ptr ::ₘ freeMultiset hs := by
  obtain ⟨hnone, hother⟩ | ⟨index, s1, used1, hsome, hinv1, hperm⟩ := h.removeUsedTable ptr
  · refine .inl ⟨?_, hother⟩
    rw [Pow2.free, hnone, ok_bind]
  · obtain ⟨s2, own2, hs2, hadd, hinv2, hadded⟩ := h.giveBack hsup hsome hinv1
    refine .inr ⟨s2, own2, hs2, used1, index, ?_, hinv2, hperm, hadded⟩
    rw [Pow2.free, hsome, ok_bind]
    exact hadd

theorem free_spec (hsup : Supplied s (.free ptr, supply)) :
    ∃ s' own' hs' used', Pow2.free s supply ptr = .ok s' ∧ Inv s' own' hs' used' [] := by
  obtain ⟨hcall, _⟩ | ⟨s', own', hs', used', _, hcall, hinv, _⟩ := h.free_cases hsup
  · exact ⟨s, own, hs, used, hcall, h⟩
  · exact ⟨s', own', hs', used', hcall, hinv⟩

theorem step_spec {c : Call × Supply} (hsup : Supplied s c)
    (hfits : c.1.Fits) : ∃ s' own' hs' used', step s c = .ok s' ∧ Inv s' own' hs' used' [] := by
  obtain ⟨call, supply⟩ := c
  cases call with
  | alloc size =>
    obtain ⟨ptr, s', own', hs', hcall, hinv, _⟩ := h.alloc_spec hsup hfits
    exact ⟨s', own', hs', _, map_eq_ok.mpr ⟨_, hcall, rfl⟩, hinv⟩
  | free ptr => exact h.free_spec hsup

end Inv

structure Boot (headers : Nat → Grant) (used : Grant) : Prop where
  page : ∀ g ∈ (List.range tableLen).map headers ++ [used],
    g.fresh = true ∧ g.va % 4096 = 0 ∧ g.va ≠ 0 ∧ g.va + 4096 ≤ 2 ^ 32
  apart : (((List.range tableLen).map headers ++ [used]).map Grant.va).Nodup

structure Booting (headers : Nat → Grant) (s : State) (n : Nat) : Prop where
  pages : ∀ p, p ∈ s.pages ↔ ∃ c < n, p = (headers c).va / 4096
  table : ∀ c < n, s.table c = (headers c).va
  chain : ∀ c < n, ChainAt s.mem (headers c).va ⟨[], ((headers c).va, [])⟩
  regions : s.regions = []

variable {headers : Nat → Grant} {usedGrant : Grant} {n : Nat}

section

variable (h : Boot headers usedGrant)
include h

theorem Boot.header (hc : c < tableLen) :
    (headers c).fresh = true ∧ (headers c).va % 4096 = 0 ∧ (headers c).va ≠ 0 ∧
      (headers c).va + 4096 ≤ 2 ^ 32 :=
  h.page _ (mem_append_left _ (mem_map_of_mem (mem_range.mpr hc)))

theorem Boot.usedPage :
    usedGrant.fresh = true ∧ usedGrant.va % 4096 = 0 ∧ usedGrant.va ≠ 0 ∧
      usedGrant.va + 4096 ≤ 2 ^ 32 :=
  h.page _ (by simp)

theorem Boot.header_inj (hc : c < tableLen) {c' : Nat}
    (hc' : c' < tableLen) (heq : (headers c).va / 4096 = (headers c').va / 4096) : c = c' := by
  have hnodup := h.apart
  rw [map_append, nodup_append, map_map] at hnodup
  have hc1 := h.header hc
  have hc2 := h.header hc'
  exact inj_on_of_nodup_map hnodup.1 (mem_range.mpr hc) (mem_range.mpr hc')
    (show (headers c).va = (headers c').va by omega)

theorem Boot.used_apart (hc : c < tableLen) :
    (headers c).va / 4096 ≠ usedGrant.va / 4096 := by
  intro heq
  have hnodup := h.apart
  rw [map_append, nodup_append, map_map] at hnodup
  have hc1 := h.header hc
  have hc2 := h.usedPage
  exact hnodup.2.2 (headers c).va (mem_map_of_mem (f := Grant.va ∘ headers) (mem_range.mpr hc))
    usedGrant.va (by simp) (by omega)

end

variable {mem : Nat → UInt8}

theorem chainAt_zero {h : Nat} : ChainAt (blit mem h (fun _ => 0) 4096) h ⟨[], (h, [])⟩ := by
  refine ⟨rfl, headerAt_zero, ?_, nofun⟩
  show word _ h = 0
  rw [word_blit_inside (by omega) (by omega)]
  rfl

section

variable (hboot : Boot headers usedGrant)
include hboot

theorem Booting.chain_blit {va : Nat} (h : Booting headers s n)
    (hn : n ≤ tableLen) (hva : ∀ c < n, (headers c).va / 4096 ≠ va / 4096) (halign : va % 4096 = 0) :
    ∀ c < n, ChainAt (blit s.mem va (fun _ => 0) 4096) (headers c).va ⟨[], ((headers c).va, [])⟩ := by
  intro c hc
  have hheader := hboot.header (lt_of_lt_of_le hc hn)
  have hne := hva c hc
  apply (h.chain c hc).congr
  · intro x hx
    rw [show x = ((headers c).va, []) by simpa [Headers.all] using hx]
    exact hheader.2.1
  · intro x hx b hb
    rw [show x = ((headers c).va, []) by simpa [Headers.all] using hx] at hb
    apply blit_outside
    omega

theorem Booting.next (h : Booting headers s n) (hn : n < tableLen) :
    ∃ s', ({ s.acquire (headers n) 1 with
        table := update (s.acquire (headers n) 1).table n (headers n).va }).memset
          (headers n).va 0 0x1000 = .ok s' ∧ Booting headers s' (n + 1) := by
  have hheader := hboot.header hn
  have hapart : ∀ c < n, (headers c).va / 4096 ≠ (headers n).va / 4096 := by
    intro c hc heq
    have := hboot.header_inj (Nat.lt_trans hc hn) hn heq
    omega
  have hfresh : (headers n).Fresh s 1 := by
    refine ⟨hheader.1, hheader.2.1, hheader.2.2.1, by omega, ?_⟩
    intro p hle hlt hp
    obtain ⟨c, hc, rfl⟩ := (h.pages p).mp hp
    exact hapart c hc (by omega)
  have hpage := hfresh.page
  refine ⟨_, PageOf.memset { hpage with }, ?_⟩
  constructor
  case pages =>
    intro p
    show p ∈ (s.acquire (headers n) 1).pages ↔ _
    rw [hfresh.mem_acquire, h.pages]
    constructor
    · rintro (⟨c, hc, hp⟩ | hp)
      · exact ⟨c, Nat.lt_succ_of_lt hc, hp⟩
      · exact ⟨n, Nat.lt_succ_self n, by omega⟩
    · rintro ⟨c, hc, rfl⟩
      rcases Nat.lt_succ_iff_lt_or_eq.mp hc with hc | rfl
      · exact .inl ⟨c, hc, rfl⟩
      · exact .inr (by omega)
  case table =>
    intro c hc
    show update (s.acquire (headers n) 1).table n (headers n).va c = _
    rcases Nat.lt_succ_iff_lt_or_eq.mp hc with hc | rfl
    · rw [update_of_ne (Nat.ne_of_lt hc), hfresh.acquire_eq, h.table c hc]
    · rw [update_self]
  case chain =>
    intro c hc
    rw [acquire_mem]
    rcases Nat.lt_succ_iff_lt_or_eq.mp hc with hc | rfl
    · exact h.chain_blit hboot (le_of_lt hn) hapart hheader.2.1 c hc
    · exact chainAt_zero
  case regions =>
    rw [hfresh.acquire_eq]
    exact h.regions

theorem initHeaders_spec (rounds : Nat) (h : Booting headers s n)
    (hn : n + rounds = tableLen) :
    ∃ s', initHeaders headers rounds n s = .ok s' ∧ Booting headers s' tableLen := by
  induction rounds generalizing n s with
  | zero => exact ⟨s, rfl, hn ▸ h⟩
  | succ rounds ih =>
    obtain ⟨s1, hcall, h1⟩ := h.next hboot (by omega)
    obtain ⟨s2, hrest, h2⟩ := ih h1 (by omega)
    refine ⟨s2, ?_, h2⟩
    rw [initHeaders, hcall, ok_bind, hrest]

end

def bootOwner (headers : Nat → Grant) (used : Grant) (p : Nat) : Owner :=
  if p = used.va / 4096 then .used
  else match (List.range tableLen).find? fun c => (headers c).va / 4096 = p with
    | some c => .header c
    | none => .nobody

theorem bootOwner_header (hboot : Boot headers usedGrant) (hc : c < tableLen) :
    bootOwner headers usedGrant ((headers c).va / 4096) = .header c := by
  rw [bootOwner, if_neg (hboot.used_apart hc)]
  cases hfind : (range tableLen).find? fun c' => (headers c').va / 4096 = (headers c).va / 4096 with
  | none =>
    have := find?_eq_none.mp hfind c (mem_range.mpr hc)
    simp at this
  | some c' =>
    have hc' := mem_range.mp (mem_of_find?_eq_some hfind)
    have heq : (headers c').va / 4096 = (headers c).va / 4096 := by
      simpa using find?_some hfind
    rw [hboot.header_inj hc' hc heq]

theorem bootOwner_cases (headers : Nat → Grant) (usedGrant : Grant) (p : Nat) :
    (p = usedGrant.va / 4096 ∧ bootOwner headers usedGrant p = .used) ∨
    (∃ c < tableLen, p = (headers c).va / 4096 ∧ bootOwner headers usedGrant p = .header c) ∨
    (p ≠ usedGrant.va / 4096 ∧ (∀ c < tableLen, p ≠ (headers c).va / 4096) ∧
      bootOwner headers usedGrant p = .nobody) := by
  rw [bootOwner]
  split
  · rename_i hp
    exact .inl ⟨hp, rfl⟩
  · rename_i hp
    split
    · rename_i c hfind
      have hc := mem_range.mp (mem_of_find?_eq_some hfind)
      have heq : (headers c).va / 4096 = p := by simpa using find?_some hfind
      exact .inr (.inl ⟨c, hc, heq.symm, rfl⟩)
    · rename_i hfind
      refine .inr (.inr ⟨hp, fun c hc heq => ?_, rfl⟩)
      have := find?_eq_none.mp hfind c (mem_range.mpr hc)
      simp [heq] at this

theorem init_spec (hboot : Boot headers usedGrant) (mem : Nat → UInt8) :
    ∃ s own hs, init mem headers usedGrant = .ok s ∧ Inv s own hs [] [] := by
  have hstart : Booting headers ⟨mem, [], fun _ => 0, 0, 0, 0, []⟩ 0 :=
    ⟨by simp, by simp, by simp, rfl⟩
  obtain ⟨s1, hheaders, h1⟩ := initHeaders_spec hboot tableLen hstart (Nat.zero_add _)
  have hused := hboot.usedPage
  have hfresh : usedGrant.Fresh s1 1 := by
    refine ⟨hused.1, hused.2.1, hused.2.2.1, by omega, ?_⟩
    intro p hle hlt hp
    obtain ⟨c, hc, rfl⟩ := (h1.pages p).mp hp
    exact hboot.used_apart hc (by omega)
  have hcall : init mem headers usedGrant = .ok
      { (s1.acquire usedGrant 1).setMem (blit s1.mem usedGrant.va (fun _ => 0) 4096) with
        usedTable := usedGrant.va, usedCount := 0, usedTablePages := 1 } := by
    rw [init, hheaders, ok_bind, hfresh.page.memset, ok_bind, acquire_mem]
  have hpages : ∀ p, p ∈ (s1.acquire usedGrant 1).pages ↔
      bootOwner headers usedGrant p ≠ .nobody := by
    intro p
    rw [hfresh.mem_acquire, h1.pages]
    rcases bootOwner_cases headers usedGrant p with
      ⟨rfl, hown⟩ | ⟨c, hc, hp, hown⟩ | ⟨hp, hpc, hown⟩
    · simp [hown]
    · simp only [hown, ne_eq, reduceCtorEq, not_false_eq_true, iff_true]
      exact .inl ⟨c, hc, hp⟩
    · simp only [hown, ne_eq, not_true_eq_false, iff_false, not_or]
      constructor
      · rintro ⟨c, hc, heq⟩
        exact hpc c hc heq
      · omega
  rw [hfresh.acquire_eq] at hcall
  refine ⟨_, bootOwner headers usedGrant, fun c => ⟨[], ((headers c).va, [])⟩, hcall, ?_⟩
  constructor
  case pages => exact hpages
  case range =>
    intro p hp
    rcases bootOwner_cases headers usedGrant p with ⟨hp', _⟩ | ⟨c, hc, hp', _⟩ | ⟨_, _, hown⟩
    · omega
    · have := hboot.header hc
      omega
    · exact absurd hown hp
  case chain =>
    intro c hc
    show ChainAt (blit s1.mem usedGrant.va (fun _ => 0) 4096) (s1.table c) _
    rw [h1.table c hc]
    exact h1.chain_blit hboot (Nat.le_refl _) (fun c hc => hboot.used_apart hc) hused.2.1 c hc
  case aligned =>
    intro c hc x hx
    rw [show x = ((headers c).va, []) by simpa [Headers.all] using hx]
    have hheader := hboot.header hc
    exact ⟨hheader.2.1, hheader.2.2.1⟩
  case header =>
    intro c p
    rw [show (Headers.mk [] ((headers c).va, [])).pages = [(headers c).va / 4096] from rfl, mem_singleton]
    constructor
    · intro hp
      rcases bootOwner_cases headers usedGrant p with ⟨_, hown⟩ | ⟨c', hc', hp', hown⟩ | ⟨_, _, hown⟩
      · simp [hp] at hown
      · obtain rfl : c = c' := by simpa [hp] using hown
        exact ⟨hc', hp'⟩
      · simp [hp] at hown
    · rintro ⟨hc, rfl⟩
      exact bootOwner_header hboot hc
  case nodup =>
    intro c _
    exact pairwise_singleton _ _
  case usedAligned => exact hused.2.1
  case usedPages =>
    intro p
    rcases bootOwner_cases headers usedGrant p with ⟨hp, hown⟩ | ⟨c, hc, hp, hown⟩ | ⟨hp, _, hown⟩
    · simp only [hown, true_iff]
      omega
    · have := hboot.used_apart hc
      simp only [hown, reduceCtorEq, false_iff]
      omega
    · simp only [hown, reduceCtorEq, false_iff]
      omega
  case usedCount => rfl
  case usedRoom => exact Nat.zero_le _
  case entry => simp
  case regionAligned =>
    intro r hr
    rw [show s1.regions = [] from h1.regions] at hr
    cases hr
  case region =>
    intro r p
    show _ ↔ r ∈ s1.regions ∧ _
    rw [h1.regions]
    rcases bootOwner_cases headers usedGrant p with ⟨_, hown⟩ | ⟨c, _, _, hown⟩ | ⟨_, _, hown⟩
    · simp [hown]
    · simp [hown]
    · simp [hown]
  case regions =>
    rw [h1.regions]
    exact nodup_nil
  case free => simp [Headers.ptrs, Headers.all]
  case descriptors => simp
  case tiling =>
    intro a
    show _ = cover (s1.regions.map (block maxPow)) a
    rw [h1.regions]
    simp [freeCover, Headers.ptrs, Headers.all, blocks]

theorem valid_of_init {s0 : State} (hboot : Boot headers usedGrant)
    (hinit : init mem headers usedGrant = .ok s0) : s0.Valid := by
  obtain ⟨s, own, hs, hcall, hinv⟩ := init_spec hboot mem
  rw [hinit, Except.ok.injEq] at hcall
  exact ⟨own, hs, [], hcall ▸ hinv⟩

theorem State.Valid.step {c : Call × Supply} (h : s.Valid) (hsup : Supplied s c)
    (hfits : c.1.Fits) : ∃ s', Pow2.step s c = .ok s' ∧ s'.Valid := by
  obtain ⟨own, hs, used, hinv⟩ := h
  obtain ⟨s', own', hs', used', hstep, hinv'⟩ := hinv.step_spec hsup hfits
  exact ⟨s', hstep, own', hs', used', hinv'⟩

theorem valid_of_reaches {s0 : State} (hboot : Boot headers usedGrant)
    (hinit : init mem headers usedGrant = .ok s0)
    (hrun : Reach.Reaches Pow2.step (fun s c => Supplied s c ∧ c.1.Fits) s0 s) : s.Valid := by
  apply hrun.invariant State.Valid (valid_of_init hboot hinit)
  intro s s' c hs hguard hok
  obtain ⟨s1, hstep, hs1⟩ := hs.step hguard.1 hguard.2
  rw [hok, Except.ok.injEq] at hstep
  exact hstep ▸ hs1

/-- As long as no request is larger than 64 KiB, every call returns and free and used blocks tile
the regions. -/
theorem pow2_blocks_tile_regions {s₀ : State} {mem : Nat → UInt8}
    (hboot : Boot headers usedGrant) (hinit : init mem headers usedGrant = .ok s₀)
    (hrun : Reach.Reaches step (fun s c => Supplied s c ∧ c.1.Fits) s₀ s) :
    s.Tiled ∧ ∀ c, Supplied s c → c.1.Fits → ∃ s', step s c = .ok s' := by
  have hvalid := valid_of_reaches hboot hinit hrun
  constructor
  · obtain ⟨own, hs, used, hinv⟩ := hvalid
    exact hinv.tiled
  · intro c hsupplied hfits
    obtain ⟨s', hstep, _⟩ := hvalid.step hsupplied hfits
    exact ⟨s', hstep⟩

def bootHeaders (i : Nat) : Grant := ⟨0xFFD20000 + 0x1000 * i, true⟩

def bootUsed : Grant := ⟨0xFFD10000, true⟩

def bootSupply : Supply := ⟨⟨0xFFD40000, true⟩, ⟨0xFFD00000, true⟩, ⟨0xFFD50000, true⟩, true⟩

def booted : State :=
  match init (fun _ => 0) bootHeaders bootUsed with
  | .ok s => s
  | .error _ => ⟨fun _ => 0, [], fun _ => 0, 0, 0, 0, []⟩

theorem boot_grants : Boot bootHeaders bootUsed := ⟨by decide, by decide⟩

theorem init_booted : init (fun _ => 0) bootHeaders bootUsed = .ok booted := by
  obtain ⟨s, _, _, hcall, _⟩ := init_spec boot_grants (fun _ => 0)
  rw [booted, hcall]

theorem booted_pages : booted.pages = (range' 0xFFD20 12) ++ [0xFFD10] := by decide +kernel

theorem supplied_booted (size : Nat) : Supplied booted (.alloc size, bootSupply) := by
  have hreg : bootSupply.region.Fresh booted maxPowFrames := by
    refine ⟨rfl, by decide, by decide, by decide, ?_⟩
    intro p hle hlt
    rw [booted_pages]
    simp only [bootSupply, maxPowFrames, maxPow] at hle hlt
    simp only [mem_append, mem_range'_1, mem_singleton]
    omega
  have hroom : ¬booted.NeedsTable := by
    rw [NeedsTable]
    decide +kernel
  exact ⟨fun _ => rfl, fun _ => hreg, fun h => absurd h hroom, fun _ h => absurd h hroom⟩

theorem pow2_blocks_tile_regions_after_one_alloc :
    ∃ s, step booted (.alloc 100, bootSupply) = .ok s ∧ s.Tiled ∧
      s.usedBlocks = [⟨0xFFD0FF80, 128⟩] ∧ s.regions = [0xFFD00000] := by
  have hfits : (Call.alloc 100).Fits := by
    rw [Call.Fits]
    decide
  obtain ⟨_, hreturns⟩ := pow2_blocks_tile_regions boot_grants init_booted .refl
  obtain ⟨s, hstep⟩ := hreturns (.alloc 100, bootSupply) (supplied_booted 100) hfits
  have hrun : Reach.Reaches step (fun s c => Supplied s c ∧ c.1.Fits) booted s :=
    .tail .refl ⟨supplied_booted 100, hfits⟩ hstep
  have hcomputed : (step booted (.alloc 100, bootSupply)).toOption.map
      (fun s => (s.usedBlocks, s.regions)) = some ([⟨0xFFD0FF80, 128⟩], [0xFFD00000]) := by
    decide +kernel
  rw [hstep] at hcomputed
  obtain ⟨hused, hregions⟩ := Prod.mk.inj (Option.some.inj hcomputed)
  exact ⟨s, hstep, (pow2_blocks_tile_regions boot_grants init_booted hrun).1, hused, hregions⟩

theorem pow2_alloc_clears_used_table :
    ∃ s, Reach.Reaches step Supplied booted s ∧ s.usedBlocks = [⟨0, 1⟩] ∧ s.freeBlocks = [] ∧
      s.regions = [0xFFD00000] ∧ ¬s.Tiled := by
  have hcomputed : (step booted (.alloc 0x11000, bootSupply)).toOption.map
      (fun s => (s.usedBlocks, s.freeBlocks, s.regions)) = some ([⟨0, 1⟩], [], [0xFFD00000]) := by
    decide +kernel
  cases hstep : step booted (.alloc 0x11000, bootSupply) with
  | error fault =>
    rw [hstep] at hcomputed
    cases hcomputed
  | ok s =>
    rw [hstep] at hcomputed
    obtain ⟨hused, hrest⟩ := Prod.mk.inj (Option.some.inj hcomputed)
    obtain ⟨hfree, hregions⟩ := Prod.mk.inj hrest
    refine ⟨s, .tail .refl (supplied_booted 0x11000) hstep, hused, hfree, hregions, ?_⟩
    intro htiled
    obtain ⟨r, hr, hle, _⟩ := (htiled.covers 0).mp ⟨⟨0, 1⟩, by simp [hused], by decide⟩
    rw [hregions, List.mem_singleton] at hr
    omega

end Quest.Mem.Pow2
