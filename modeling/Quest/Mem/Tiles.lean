import Quest.Mem.Headers
import Quest.Lib.Tiling

/-! The blocks of the power-of-two allocator tile the regions that it obtained. -/
namespace Quest.Mem.Pow2

open Quest.Lib Memory Tiling State List Function

def block (index ptr : Nat) : Block := ⟨ptr, 2 ^ index⟩

inductive Owner where
  | nobody
  | header (c : Nat)
  | used
  | region (base : Nat)
  deriving DecidableEq

def freeCover (hs : Nat → Headers) (a : Nat) : Nat :=
  ∑ c ∈ Finset.range tableLen, cover ((hs c).ptrs.map (block (c + minPow))) a

def blocks (l : List (Nat × Nat)) : List Block := l.map fun b => block b.2 b.1

structure Descriptor (b : Nat × Nat) : Prop where
  aligned : b.1 % 2 ^ minPow = 0
  min : minPow ≤ b.2
  max : b.2 ≤ maxPow

/-- The allocator's pages are its headers, its used table and the regions, which free blocks, used
blocks and the blocks in the hand of a call cover. -/
structure Inv (s : State) (own : Nat → Owner) (hs : Nat → Headers) (used hand : List (Nat × Nat)) :
    Prop where
  pages : ∀ p, p ∈ s.pages ↔ own p ≠ .nobody
  range : ∀ p, own p ≠ .nobody → p < 2 ^ 20
  chain : ∀ c < tableLen, ChainAt s.mem (s.table c) (hs c)
  aligned : ∀ c < tableLen, ∀ x ∈ (hs c).all, x.1 % 4096 = 0 ∧ x.1 ≠ 0
  header : ∀ c p, own p = .header c ↔ c < tableLen ∧ p ∈ (hs c).pages
  nodup : ∀ c < tableLen, ((hs c).all.map Prod.fst).Nodup
  usedAligned : s.usedTable % 4096 = 0
  usedPages : ∀ p, own p = .used ↔
    s.usedTable / 4096 ≤ p ∧ p < s.usedTable / 4096 + s.usedTablePages
  usedCount : s.usedCount = used.length
  usedRoom : used.length ≤ s.usedTablePages * 0x400
  entry : ∀ i (hi : i < used.length), word s.mem (s.usedTable + 4 * i) = used[i].1 + used[i].2
  regionAligned : ∀ r ∈ s.regions, r % 4096 = 0
  region : ∀ r p, own p = .region r ↔
    r ∈ s.regions ∧ r / 4096 ≤ p ∧ p < r / 4096 + maxPowFrames
  regions : s.regions.Nodup
  free : ∀ c < tableLen, ∀ ptr ∈ (hs c).ptrs, ptr % 2 ^ minPow = 0
  descriptors : ∀ b ∈ used ++ hand, Descriptor b
  tiling : ∀ a, freeCover hs a + cover (blocks used) a + cover (blocks hand) a =
    cover (s.regions.map (block maxPow)) a

variable {s s' : State} {own : Nat → Owner} {hs : Nat → Headers} {used hand : List (Nat × Nat)}
  {h' : Headers} {a c p index ptr : Nat} {b : Nat × Nat} {supply : Supply}

theorem sum_update {M : Type} [AddCommMonoid M] (f : Nat → Headers → M) (hs : Nat → Headers)
    (h' : Headers) (hc : c < tableLen) :
    ∑ i ∈ Finset.range tableLen, f i (update hs c h' i) + f c (hs c) =
      ∑ i ∈ Finset.range tableLen, f i (hs i) + f c h' := by
  have hmem : c ∈ Finset.range tableLen := Finset.mem_range.mpr hc
  have hrest : ∀ i ∈ (Finset.range tableLen).erase c, f i (update hs c h' i) = f i (hs i) := by
    intro i hi
    rw [update_of_ne (Finset.ne_of_mem_erase hi)]
  rw [← Finset.sum_erase_add _ _ hmem, ← Finset.sum_erase_add _ _ hmem, Finset.sum_congr rfl hrest,
    update_self, add_right_comm]

def freeMultiset (hs : Nat → Headers) : Multiset Block :=
  ∑ c ∈ Finset.range tableLen, ((hs c).ptrs.map (block (c + minPow)) : Multiset Block)

theorem freeMultiset_push {hs : Nat → Headers} (hc : c < tableLen)
    (hptrs : h'.ptrs = (hs c).ptrs ++ [ptr]) :
    freeMultiset (update hs c h') = block (c + minPow) ptr ::ₘ freeMultiset hs := by
  have hsum := sum_update (fun i x => (x.ptrs.map (block (i + minPow)) : Multiset Block)) hs h' hc
  refine add_right_cancel (hsum.trans ?_)
  rw [hptrs, map_append, ← Multiset.coe_add, ← add_assoc, add_comm, ← Multiset.singleton_add, add_assoc]
  rfl

theorem freeMultiset_pop {hs : Nat → Headers} (hc : c < tableLen)
    (hptrs : (hs c).ptrs = h'.ptrs ++ [ptr]) :
    freeMultiset hs = block (c + minPow) ptr ::ₘ freeMultiset (update hs c h') := by
  have hlonger : (hs c).ptrs = (update hs c h' c).ptrs ++ [ptr] := by
    rw [update_self, hptrs]
  rw [← freeMultiset_push hc hlonger, update_idem, update_eq_self]

/-- The block in the hand is cut out of one free block of before, or of a new region if there was
no block of class `c` or more. -/
def CutFrom (hs hs' : Nat → Headers) (supply : Supply) (c : Nat) (b : Block) : Prop :=
  ∃ obtained : Multiset Block, (obtained = 0 ∨ (∀ c', c ≤ c' → c' < tableLen → (hs c').last.2 = []) ∧
      obtained = {block maxPow supply.region.va}) ∧
    ∃ whole kept rest, freeMultiset hs + obtained = whole ::ₘ kept ∧ Split whole b rest ∧
      freeMultiset hs' = rest + kept

theorem cutFrom_take {hs : Nat → Headers} {n : Nat} (hc : c < tableLen)
    (hptrs : (hs c).ptrs = h'.ptrs ++ [ptr]) :
    CutFrom hs (update hs c h') supply n (block (c + minPow) ptr) := by
  refine ⟨0, .inl rfl, _, _, 0, ?_, .refl, (zero_add _).symm⟩
  rw [add_zero, freeMultiset_pop hc hptrs]

theorem CutFrom.halve {hs hs1 : Nat → Headers}
    (h : CutFrom hs hs1 supply (c + 1) (block (c + minPow + 1) ptr))
    (hall : ∀ {n}, (∀ c', c + 1 ≤ c' → c' < n → (hs c').last.2 = []) →
      ∀ c', c ≤ c' → c' < n → (hs c').last.2 = [])
    (hc : c < tableLen) (hptrs : h'.ptrs = (hs1 c).ptrs ++ [ptr]) :
    CutFrom hs (update hs1 c h') supply c (block (c + minPow) (ptr + 2 ^ (c + minPow))) := by
  obtain ⟨obtained, hobtained, whole, kept, rest, hwhole, hsplit, hkept⟩ := h
  rw [block, pow_succ, Nat.mul_two] at hsplit
  refine ⟨obtained, hobtained.imp_right fun h => ⟨hall h.1, h.2⟩, whole, kept, _, hwhole,
    hsplit.halve, ?_⟩
  rw [freeMultiset_push hc hptrs, hkept, Multiset.cons_add]
  rfl

namespace Inv

variable (h : Inv s own hs used hand)
include h

theorem own_header (hc : c < tableLen) (hp : p ∈ (hs c).pages) : own p = .header c :=
  (h.header c p).mpr ⟨hc, hp⟩

theorem page (hc : c < tableLen) {x : Nat × List Nat}
    (hx : x ∈ (hs c).all) : PageOf s x.1 := by
  obtain ⟨halign, hpos⟩ := h.aligned c hc x hx
  refine ⟨halign, (h.pages _).mpr ?_, hpos⟩
  rw [h.own_header hc (mem_map_of_mem hx)]
  nofun

theorem headerPages (hc : c < tableLen) : HeaderPages s (hs c) :=
  ⟨fun _ hx => h.page hc hx, h.nodup c hc⟩

theorem full_lt (hc : c < tableLen) :
    (hs c).full.length < s.pages.length := by
  have hnodup : (hs c).pages.Nodup := by
    rw [Headers.pages, show (fun x : Nat × List Nat => x.1 / 4096) = (· / 4096) ∘ Prod.fst from rfl,
      ← map_map]
    apply List.Nodup.map_on _ (h.nodup c hc)
    intro x hx y hy heq
    obtain ⟨x, hx', rfl⟩ := mem_map.mp hx
    obtain ⟨y, hy', rfl⟩ := mem_map.mp hy
    have hxa := (h.aligned c hc x hx').1
    have hya := (h.aligned c hc y hy').1
    omega
  have hsub : (hs c).pages ⊆ s.pages := fun p hp => (h.headerPages hc).mem_pages hp
  have hle := (hnodup.subperm hsub).length_le
  rw [Headers.pages, length_map, Headers.all, length_append, length_singleton] at hle
  omega

theorem chain_congr (hc : c < tableLen) {mem : Nat → UInt8}
    (hmem : ∀ a, own (a / 4096) = .header c → mem a = s.mem a) :
    ChainAt mem (s.table c) (hs c) := by
  apply (h.chain c hc).congr fun x hx => (h.aligned c hc x hx).1
  intro x hx b hb
  apply hmem
  rw [hb]
  exact h.own_header hc (mem_map_of_mem hx)

theorem own_entry {j : Nat} (hj : j < s.usedTablePages * 0x1000) :
    own ((s.usedTable + j) / 4096) = .used := by
  have halign := h.usedAligned
  apply (h.usedPages _).mpr
  omega

theorem own_region {r : Nat} (hr : r ∈ s.regions)
    (ha : (block maxPow r).Covers a) : own (a / 4096) = .region r := by
  have halign := h.regionAligned r hr
  obtain ⟨hle, hlt⟩ := ha
  simp only [block, maxPow] at hle hlt
  refine (h.region r _).mpr ⟨hr, ?_⟩
  simp only [maxPowFrames, maxPow]
  omega

theorem covered
    (ha : 0 < freeCover hs a + cover (blocks used) a + cover (blocks hand) a) :
    ∃ r ∈ s.regions, own (a / 4096) = .region r := by
  rw [h.tiling, cover_pos] at ha
  obtain ⟨b, hb, hcov⟩ := ha
  obtain ⟨r, hr, rfl⟩ := mem_map.mp hb
  exact ⟨r, hr, h.own_region hr hcov⟩

end Inv

def reown (own : Nat → Owner) (c : Nat) (h h' : Headers) (p : Nat) : Owner :=
  if p ∈ h'.pages then .header c else if p ∈ h.pages then .nobody else own p

namespace Inv

section

variable (h : Inv s own hs used hand)
include h

theorem reown_eq_iff (hc : c < tableLen)
    (hnew : ∀ p ∈ h'.pages, p ∈ (hs c).pages ∨ own p = .nobody) {o : Owner} (ho : o ≠ .header c)
    (ho' : o ≠ .nobody) : reown own c (hs c) h' p = o ↔ own p = o := by
  rw [reown]
  split
  · rename_i hin
    refine iff_of_false ho.symm ?_
    rintro rfl
    exact (hnew p hin).elim (fun hold => ho (h.own_header hc hold)) ho'
  · split
    · rename_i hold
      refine iff_of_false ho'.symm ?_
      rintro rfl
      exact ho (h.own_header hc hold)
    · rfl

theorem rechain {hand' : List (Nat × Nat)} (hc : c < tableLen)
    (hre : Rechained s s' (s.table c) (hs c) h')
    (hnew : ∀ p ∈ h'.pages, p ∈ (hs c).pages ∨ own p = .nobody)
    (hrange : ∀ p ∈ h'.pages, p < 2 ^ 20) (hfree : ∀ ptr ∈ h'.ptrs, ptr % 2 ^ minPow = 0)
    (hdesc : ∀ b ∈ hand', Descriptor b)
    (hcover : ∀ a, cover (h'.ptrs.map (block (c + minPow))) a + cover (blocks hand') a =
      cover ((hs c).ptrs.map (block (c + minPow))) a + cover (blocks hand) a) :
    Inv s' (reown own c (hs c) h') (update hs c h') used hand' := by
  obtain ⟨mem, pages, rfl⟩ : ∃ mem pages, s' = { s with mem := mem, pages := pages } :=
    ⟨_, _, hre.others⟩
  have hkeep : ∀ a, own (a / 4096) ≠ .header c → own (a / 4096) ≠ .nobody → mem a = s.mem a := by
    intro a ha ha'
    have hold : a / 4096 ∉ (hs c).pages := fun hin => ha (h.own_header hc hin)
    exact hre.mem a hold fun hin => (hnew _ hin).elim hold ha'
  refine { h with
    pages := ?pages, range := ?range, chain := ?chain, aligned := ?aligned, header := ?header
    nodup := ?nodup, usedPages := ?usedPages, entry := ?entry, region := ?region, free := ?free
    descriptors := ?descriptors, tiling := ?tiling }
  case pages =>
    intro p
    rw [hre.pages, h.pages, reown]
    split
    · rename_i hin
      simp [hin]
    · rename_i hin
      split
      · rename_i hold
        simp [hin, hold]
      · rename_i hold
        simp [hin, hold]
  case range =>
    intro p hp
    rw [reown] at hp
    split at hp
    · rename_i hin
      exact hrange p hin
    · split at hp
      · exact absurd rfl hp
      · exact h.range p hp
  case chain =>
    apply (forall_update_iff hs fun c' x => c' < tableLen → ChainAt mem (s.table c') x).mpr
    refine ⟨fun _ => hre.chain, fun c' hne hc' => h.chain_congr hc' fun a ha => hkeep a ?_ ?_⟩
    · rw [ha]
      simpa using hne
    · rw [ha]
      nofun
  case aligned =>
    apply (forall_update_iff hs fun c' x => c' < tableLen → ∀ y ∈ x.all,
      y.1 % 4096 = 0 ∧ y.1 ≠ 0).mpr
    exact ⟨fun _ => hre.aligned, fun c' _ => h.aligned c'⟩
  case header =>
    apply (forall_update_iff hs fun c' x => ∀ p, reown own c (hs c) h' p = .header c' ↔
      c' < tableLen ∧ p ∈ x.pages).mpr
    constructor
    · intro p
      rw [reown]
      split
      · rename_i hin
        simp [hin, hc]
      · rename_i hin
        split
        · simp [hin]
        · rename_i hold
          rw [h.header]
          simp [hin, hold]
    · intro c' hne p
      rw [h.reown_eq_iff hc hnew (by simpa using hne) (by nofun)]
      exact h.header c' p
  case nodup =>
    apply (forall_update_iff hs fun c' x => c' < tableLen → (x.all.map Prod.fst).Nodup).mpr
    exact ⟨fun _ => hre.nodup, fun c' _ => h.nodup c'⟩
  case usedPages =>
    intro p
    rw [h.reown_eq_iff hc hnew (by nofun) (by nofun)]
    exact h.usedPages p
  case entry =>
    intro i hi
    have hroom := h.usedRoom
    rw [← h.entry i hi]
    apply word_congr
    intro j hj
    have hown := h.own_entry (show 4 * i + j < s.usedTablePages * 0x1000 by omega)
    rw [← add_assoc] at hown
    apply hkeep
    · rw [hown]
      nofun
    · rw [hown]
      nofun
  case region =>
    intro r p
    rw [h.reown_eq_iff hc hnew (by nofun) (by nofun)]
    exact h.region r p
  case free =>
    apply (forall_update_iff hs fun c' x => c' < tableLen → ∀ ptr ∈ x.ptrs, ptr % 2 ^ minPow = 0).mpr
    exact ⟨fun _ => hfree, fun c' _ => h.free c'⟩
  case descriptors =>
    intro b hb
    rcases mem_append.mp hb with hb | hb
    · exact h.descriptors b (mem_append_left _ hb)
    · exact hdesc b hb
  case tiling =>
    intro a
    have hsum : freeCover (update hs c h') a + _ = freeCover hs a + _ :=
      sum_update (fun i x => cover (x.ptrs.map (block (i + minPow))) a) hs h' hc
    have htiling := h.tiling a
    have hmoved := hcover a
    dsimp only
    omega

theorem rehand {hand' : List (Nat × Nat)}
    (hdesc : ∀ b ∈ hand', Descriptor b)
    (hcover : ∀ a, cover (blocks hand') a = cover (blocks hand) a) : Inv s own hs used hand' :=
  { h with
    descriptors := fun b hb => (mem_append.mp hb).elim
      (fun hb => h.descriptors b (mem_append_left _ hb)) (hdesc b)
    tiling := fun a => by rw [hcover a, h.tiling a] }

theorem addRegion {g : Grant} (hg : g.Fresh s maxPowFrames) :
    ∃ own', Inv { s.acquire g maxPowFrames with regions := g.va :: s.regions } own' hs used
      ((g.va, maxPow) :: hand) := by
  have halign := hg.aligned
  have hbelow := hg.below
  have hfresh : ∀ p, g.va / 4096 ≤ p ∧ p < g.va / 4096 + maxPowFrames → own p = .nobody := by
    rintro p ⟨hle, hlt⟩
    have := hg.unused p hle hlt
    rwa [h.pages, not_not] at this
  have hfirst : g.va / 4096 ≤ g.va / 4096 ∧ g.va / 4096 < g.va / 4096 + maxPowFrames :=
    ⟨le_rfl, Nat.lt_add_of_pos_right (by decide)⟩
  have hnew : g.va ∉ s.regions := by
    intro hin
    have hreg := (h.region g.va (g.va / 4096)).mpr ⟨hin, hfirst⟩
    rw [hfresh _ hfirst] at hreg
    cases hreg
  obtain ⟨own', hown'⟩ : ∃ f : Nat → Owner, ∀ p, f p =
      if g.va / 4096 ≤ p ∧ p < g.va / 4096 + maxPowFrames then .region g.va else own p :=
    ⟨_, fun _ => rfl⟩
  have hsame : ∀ {p} {o : Owner}, o ≠ .nobody → o ≠ .region g.va → (own' p = o ↔ own p = o) := by
    intro p o ho ho'
    rw [hown']
    split
    · rename_i hin
      rw [hfresh p hin]
      exact ⟨fun heq => absurd heq.symm ho', fun heq => absurd heq.symm ho⟩
    · rfl
  rw [hg.acquire_eq]
  refine ⟨own', { h with
    pages := ?pages, range := ?range, header := ?header, usedPages := ?usedPages
    regionAligned := ?regionAligned, region := ?region, regions := ?regions
    descriptors := ?descriptors, tiling := ?tiling }⟩
  case pages =>
    intro p
    rw [hg.mem_acquire, h.pages, hown']
    split
    · rename_i hin
      simp [hin]
    · rename_i hin
      simp [hin]
  case range =>
    intro p hp
    rw [hown'] at hp
    split at hp
    · rename_i hin
      omega
    · exact h.range p hp
  case header =>
    intro c p
    rw [hsame (by nofun) (by nofun)]
    exact h.header c p
  case usedPages =>
    intro p
    rw [hsame (by nofun) (by nofun)]
    exact h.usedPages p
  case regionAligned =>
    intro r hr
    rcases mem_cons.mp hr with rfl | hr
    · exact halign
    · exact h.regionAligned r hr
  case region =>
    intro r p
    by_cases hr : r = g.va
    · subst hr
      rw [hown']
      split
      · rename_i hin
        simp [hin]
      · rename_i hin
        simp only [hin, and_false, iff_false]
        intro hreg
        exact hin ((h.region _ p).mp hreg).2
    · rw [hsame (by nofun) (by simpa using hr), h.region r p]
      simp [hr]
  case regions => exact nodup_cons.mpr ⟨hnew, h.regions⟩
  case descriptors =>
    intro b hb
    rw [mem_append, mem_cons, or_left_comm] at hb
    rcases hb with rfl | hb
    · refine ⟨?_, show minPow ≤ maxPow by decide, le_rfl⟩
      simp only [minPow]
      omega
    · exact h.descriptors b (mem_append.mpr hb)
  case tiling =>
    intro a
    have htiling := h.tiling a
    simp only [blocks, map_cons, cover_cons] at htiling ⊢
    omega

end

theorem hand_lt (h : Inv s own hs used ((ptr, index) :: hand)) : ptr < 2 ^ 32 := by
  have hcov : (block index ptr).Covers ptr :=
    ⟨le_rfl, Nat.lt_add_of_pos_right (Nat.two_pow_pos index)⟩
  obtain ⟨r, _, hown⟩ := h.covered (a := ptr) (by
    simp only [blocks, map_cons, cover_cons, if_pos hcov]
    omega)
  have := h.range (ptr / 4096) (by rw [hown]; nofun)
  omega

end Inv

structure Kept (s s' : State) : Prop where
  table : s'.table = s.table
  usedTable : s'.usedTable = s.usedTable
  usedCount : s'.usedCount = s.usedCount
  usedTablePages : s'.usedTablePages = s.usedTablePages

theorem Kept.trans {s'' : State} (h : Kept s s') (h' : Kept s' s'') : Kept s s'' :=
  ⟨h'.table.trans h.table, h'.usedTable.trans h.usedTable, h'.usedCount.trans h.usedCount,
    h'.usedTablePages.trans h.usedTablePages⟩

theorem Rechained.kept {h : Nat} {hs' : Headers} (hre : Rechained s s' h h' hs') : Kept s s' := by
  rw [hre.others]
  exact ⟨rfl, rfl, rfl, rfl⟩

namespace Inv

theorem addFreeBlock (h : Inv s own hs used ((ptr, index) :: hand)) (supply : Supply)
    (hfresh : (hs (index - minPow)).last.2.length = maxCount → supply.page.Fresh s 1) :
    ∃ s' own' h', s.addFreeBlock supply ptr index = .ok s' ∧
      Inv s' own' (update hs (index - minPow) h') used hand ∧ Kept s s' ∧
      h'.ptrs = (hs (index - minPow)).ptrs ++ [ptr] ∧
      ∀ p ∈ s'.pages, p ∈ s.pages ∨
        (hs (index - minPow)).last.2.length = maxCount ∧ p = supply.page.va / 4096 := by
  have hdesc := h.descriptors (ptr, index) (by simp)
  have hmin := hdesc.min
  have hmax := hdesc.max
  have hc : index - minPow < tableLen := by
    simp only [minPow, maxPow, tableLen] at hmax ⊢
    omega
  have hpages := h.headerPages hc
  obtain ⟨s', h', hcall, hre, hptrs, hnew⟩ := addToHeader_spec (h.chain _ hc) hpages h.hand_lt
    (show (hs (index - minPow)).full.length + 1 < s.pages.length + 2 by
      have := h.full_lt hc
      omega) hfresh
  refine ⟨s', _, h', (if_neg (by omega)).trans hcall, h.rechain hc hre ?_ ?_ ?_ ?_ ?_, hre.kept,
    hptrs, ?_⟩
  · intro p hp
    refine (hnew p hp).imp_right ?_
    rintro ⟨hfull, rfl⟩
    have := (hfresh hfull).unused _ le_rfl (by omega)
    rwa [h.pages, not_not] at this
  · intro p hp
    rcases hnew p hp with hp | ⟨hfull, rfl⟩
    · apply h.range
      rw [h.own_header hc hp]
      nofun
    · have := (hfresh hfull).below
      omega
  · intro x hx
    rw [hptrs, mem_append, mem_singleton] at hx
    rcases hx with hx | rfl
    · exact h.free _ hc x hx
    · exact hdesc.aligned
  · intro b hb
    exact h.descriptors b (by simp [hb])
  · rw [hptrs, Nat.sub_add_cancel hmin]
    simp only [map_append, map_cons, map_nil, cover_append, cover_cons, cover_nil,
      blocks]
    omega
  · intro p hp
    rcases (hre.pages p).mp hp with hp | hp
    · exact (hnew p hp).imp_left hpages.mem_pages
    · exact .inl hp.2

theorem takeBlock (h : Inv s own hs used hand) (hc : c < tableLen) (hne : (hs c).last.2 ≠ [])
    (hwindow : (hs c).full ≠ [] → (hs c).last.2.length = 1 → supply.window = true) :
    ∃ ptr s' own' h', s.takeBlock supply (((hs c).full.getLast?.map Prod.fst).getD 0) (hs c).last.1
        (hs c).last.2.length = .ok (ptr, s') ∧
      Inv s' own' (update hs c h') used ((ptr, c + minPow) :: hand) ∧ Kept s s' ∧
      (hs c).ptrs = h'.ptrs ++ [ptr] ∧ ∀ p ∈ s'.pages, p ∈ s.pages := by
  have hpages := h.headerPages hc
  obtain ⟨ptr, s', h', hcall, hre, hptrs, hnew⟩ := takeBlock_spec (h.chain c hc) hpages hne hwindow
  have hsub : ∀ x ∈ h'.ptrs, x ∈ (hs c).ptrs := fun x hx => hptrs ▸ mem_append_left _ hx
  refine ⟨ptr, s', _, h', hcall, h.rechain hc hre ?_ ?_ ?_ ?_ ?_, hre.kept, hptrs, ?_⟩
  · exact fun p hp => .inl (hnew p hp)
  · intro p hp
    apply h.range
    rw [h.own_header hc (hnew p hp)]
    nofun
  · exact fun x hx => h.free c hc x (hsub x hx)
  · intro b hb
    rcases mem_cons.mp hb with rfl | hb
    · refine ⟨h.free c hc ptr (by simp [hptrs]), Nat.le_add_left _ _, ?_⟩
      simp only [tableLen, maxPow, minPow] at hc ⊢
      omega
    · exact h.descriptors b (mem_append_right _ hb)
  · intro a
    rw [hptrs]
    simp only [map_append, map_cons, map_nil, cover_append, cover_cons, cover_nil,
      blocks]
    omega
  · intro p hp
    rcases (hre.pages p).mp hp with hp | hp
    · exact hpages.mem_pages (hnew p hp)
    · exact hp.2

theorem findHeader (h : Inv s own hs used hand) (hc : c < tableLen) :
    s.findHeader (s.pages.length + 1) 0 (s.table c) =
      .ok (((hs c).full.getLast?.map Prod.fst).getD 0, (hs c).last.1, (hs c).last.2.length) :=
  findHeader_spec (h.chain c hc) (h.headerPages hc) (Nat.lt_succ_of_lt (h.full_lt hc))

theorem split (h : Inv s own hs used ((ptr, index + 1) :: hand)) (hindex : minPow ≤ index) :
    Inv s own hs used ((ptr, index) :: (ptr + 2 ^ index, index) :: hand) := by
  have hdesc := h.descriptors (ptr, index + 1) (by simp)
  have halign := hdesc.aligned
  have hmax : index ≤ maxPow := Nat.le_of_succ_le hdesc.max
  apply h.rehand
  · intro b hb
    rcases mem_cons.mp hb with rfl | hb
    · exact ⟨halign, hindex, hmax⟩
    · rcases mem_cons.mp hb with rfl | hb
      · refine ⟨?_, hindex, hmax⟩
        have hdvd : 2 ^ minPow ∣ 2 ^ index := Nat.pow_dvd_pow 2 hindex
        exact Nat.mod_eq_zero_of_dvd (Nat.dvd_add (Nat.dvd_of_mod_eq_zero halign) hdvd)
      · exact h.descriptors b (by simp [hb])
  · intro a
    have hsplit := cover_split ptr (2 ^ index) (2 ^ index) a
    simp only [blocks, map_cons, cover_cons, block, pow_succ, Nat.mul_two] at hsplit ⊢
    omega

section

variable (h : Inv s own hs used hand)
include h

theorem getFreeBlock {d : Nat} (hd : d < tableLen)
    (hwindow : ∀ c, tableLen - 1 - d ≤ c → c < tableLen →
      (∀ c', tableLen - 1 - d ≤ c' → c' < c → (hs c').last.2 = []) →
      (hs c).full ≠ [] → (hs c).last.2.length = 1 → supply.window = true)
    (hfresh : (∀ c, tableLen - 1 - d ≤ c → c < tableLen → (hs c).last.2 = []) →
      supply.region.Fresh s maxPowFrames) :
    ∃ ptr s' own' hs', Pow2.State.getFreeBlock supply d s = .ok (ptr, s') ∧
      Inv s' own' hs' used ((ptr, maxPow - d) :: hand) ∧ Kept s s' ∧
      CutFrom hs hs' supply (tableLen - 1 - d) (block (maxPow - d) ptr) ∧
      (∀ c < tableLen - 1 - d, hs' c = hs c) ∧
      ∀ p ∈ s'.pages, p ∈ s.pages ∨
        (∀ c, tableLen - 1 - d ≤ c → c < tableLen → (hs c).last.2 = []) ∧
          supply.region.va / 4096 ≤ p ∧ p < supply.region.va / 4096 + maxPowFrames := by
  induction d with
  | zero =>
    have hc : maxPow - minPow < tableLen := by decide
    rw [State.getFreeBlock, h.findHeader hc, ok_bind]
    dsimp only
    split
    · rename_i hzero
      have hempty : ∀ c, tableLen - 1 - 0 ≤ c → c < tableLen → (hs c).last.2 = [] := by
        intro c hle hlt
        rw [show c = maxPow - minPow by simp only [tableLen, maxPow, minPow] at *; omega]
        exact length_eq_zero_iff.mp hzero
      obtain ⟨own', hinv⟩ := h.addRegion (hfresh hempty)
      refine ⟨_, _, own', hs, rfl, hinv, ?_, ⟨_, .inr ⟨hempty, rfl⟩, _, _, 0, add_comm _ _, .refl,
        (zero_add _).symm⟩, fun _ _ => rfl, ?_⟩
      · rw [(hfresh hempty).acquire_eq]
        exact ⟨rfl, rfl, rfl, rfl⟩
      · intro p hp
        exact ((hfresh hempty).mem_acquire.mp hp).imp_right fun hp => ⟨hempty, hp⟩
    · rename_i hne
      obtain ⟨ptr, s', own', h', hcall, hinv, hkept, hptrs, hpages⟩ :=
        h.takeBlock hc (fun hnil => hne (by rw [hnil]; rfl))
          (hwindow _ (by decide) hc fun c' hle hlt => absurd hlt (by
            simp only [tableLen, maxPow, minPow] at *
            omega))
      refine ⟨ptr, s', own', _, hcall, hinv, hkept, cutFrom_take hc hptrs, ?_,
        fun p hp => .inl (hpages p hp)⟩
      intro c hlt
      rw [update_of_ne (by simp only [tableLen, maxPow, minPow] at *; omega)]
  | succ d ih =>
    obtain ⟨c, hcdef⟩ : ∃ c, c = tableLen - 1 - (d + 1) := ⟨_, rfl⟩
    have hindex : maxPow - (d + 1) = c + minPow := by
      simp only [tableLen, maxPow, minPow] at *
      omega
    have hsucc : maxPow - d = c + minPow + 1 := by
      simp only [tableLen, maxPow, minPow] at *
      omega
    have hd' : tableLen - 1 - d = c + 1 := by omega
    have hc : c < tableLen := by omega
    rw [← hcdef] at hfresh hwindow ⊢
    rw [State.getFreeBlock, hindex, Nat.add_sub_cancel, h.findHeader hc, ok_bind]
    dsimp only
    rw [hd'] at ih
    split
    · rename_i hzero
      have hnil := length_eq_zero_iff.mp hzero
      have hall : ∀ {n}, (∀ c', c + 1 ≤ c' → c' < n → (hs c').last.2 = []) →
          ∀ c', c ≤ c' → c' < n → (hs c').last.2 = [] := by
        intro n habove c' hle hlt
        rcases Nat.eq_or_lt_of_le hle with rfl | hle
        · exact hnil
        · exact habove c' hle hlt
      obtain ⟨ptr, s1, own1, hs1, hcall1, hinv1, hkept1, hcut1, hsame1, hpages1⟩ :=
        ih (by omega)
          (fun c' hle hlt hbelow => hwindow c' (Nat.le_of_succ_le hle) hlt (hall hbelow))
          fun habove => hfresh (hall habove)
      rw [hsucc] at hinv1 hcut1
      -- the chain of this size is still empty, so that it has room for the first half
      have hroom : (hs1 (c + minPow - minPow)).last.2.length ≠ maxCount := by
        rw [Nat.add_sub_cancel, hsame1 c (Nat.lt_succ_self c), hzero]
        decide
      obtain ⟨s2, own2, h2, hcall2, hinv2, hkept2, hptrs2, hpages2⟩ :=
        (hinv1.split (Nat.le_add_left _ _)).addFreeBlock supply
          fun hfull => absurd hfull hroom
      rw [hcall1, ok_bind]
      rw [hcall2, ok_bind]
      refine ⟨_, s2, own2, _, rfl, hinv2, hkept1.trans hkept2, ?_, ?_, ?_⟩
      · exact hcut1.halve hall hc hptrs2
      · intro c' hlt
        rw [Nat.add_sub_cancel, update_of_ne (Nat.ne_of_lt hlt), hsame1 c' (by omega)]
      · intro p hp
        rcases hpages2 p hp with hp | hp
        · exact (hpages1 p hp).imp_right fun hp => ⟨hall hp.1, hp.2⟩
        · exact absurd hp.1 hroom
    · rename_i hne
      obtain ⟨ptr, s', own', h', hcall, hinv, hkept, hptrs, hpages⟩ :=
        h.takeBlock hc (fun hnil => hne (by rw [hnil]; rfl))
          (hwindow c (le_refl c) hc fun c' hle hlt => absurd hlt (Nat.not_lt_of_le hle))
      refine ⟨ptr, s', own', _, hcall, hinv, hkept, cutFrom_take hc hptrs, ?_,
        fun p hp => .inl (hpages p hp)⟩
      intro c' hlt
      rw [update_of_ne (Nat.ne_of_lt hlt)]

theorem mapped_entry {i : Nat} (hi : i < s.usedTablePages * 0x400) :
    s.Mapped (s.usedTable + 4 * i) 4 := by
  have halign := h.usedAligned
  apply mapped_page
  · rw [h.pages, h.own_entry (by omega)]
    nofun
  · omega

theorem retable {mem : Nat → UInt8} {used' hand' : List (Nat × Nat)}
    (hmem : ∀ a, own (a / 4096) ≠ .used → mem a = s.mem a)
    (hroom : used'.length ≤ s.usedTablePages * 0x400)
    (hentry : ∀ i (hi : i < used'.length), word mem (s.usedTable + 4 * i) = used'[i].1 + used'[i].2)
    (hperm : (used' ++ hand').Perm (used ++ hand)) :
    Inv { s with mem := mem, usedCount := used'.length } own hs used' hand' :=
  { h with
    chain := fun c hc => h.chain_congr hc fun a ha => hmem a (by rw [ha]; nofun)
    usedCount := rfl
    usedRoom := hroom
    entry := hentry
    descriptors := fun b hb => h.descriptors b (hperm.mem_iff.mp hb)
    tiling := fun a => by
      have htiling := h.tiling a
      have hcover := cover_perm (a := a) (hperm.map fun b => block b.2 b.1)
      rw [map_append, map_append, cover_append, cover_append] at hcover
      simp only [blocks] at htiling ⊢
      omega }

end

theorem or_index {ptr index : Nat} (halign : ptr % 2 ^ minPow = 0) (hindex : index < 2 ^ minPow) :
    ptr ||| index = ptr + index := by
  obtain ⟨k, rfl⟩ := Nat.dvd_of_mod_eq_zero halign
  rw [Nat.two_pow_add_eq_or_of_lt hindex]

theorem record (h : Inv s own hs used ((ptr, index) :: hand))
    (hroom : used.length < s.usedTablePages * 0x400) :
    s.store32 (s.usedTable + 4 * s.usedCount) (ptr ||| index) =
        .ok (s.setMem (setWord s.mem (s.usedTable + 4 * used.length) (ptr + index))) ∧
      Inv { s.setMem (setWord s.mem (s.usedTable + 4 * used.length) (ptr + index)) with
        usedCount := used.length + 1 } own hs (used ++ [(ptr, index)]) hand := by
  have hdesc := h.descriptors (ptr, index) (by simp)
  have hindex : index < 2 ^ minPow := lt_of_le_of_lt hdesc.max (by decide)
  have halign := hdesc.aligned
  have hlt := h.hand_lt
  have hsum : ptr + index < 2 ^ 32 := by
    simp only [minPow] at halign hindex
    omega
  constructor
  · rw [h.usedCount, store32_mapped (h.mapped_entry hroom), or_index halign hindex]
  · have hlen : used.length + 1 = (used ++ [(ptr, index)]).length := by simp
    rw [hlen]
    apply h.retable
    · intro a ha
      apply blit_outside
      by_contra hin
      apply ha
      rw [show a = s.usedTable + (a - s.usedTable) by omega]
      apply h.own_entry
      omega
    · omega
    · intro i hi
      by_cases hlast : i = used.length
      · subst hlast
        rw [setMem_mem, word_setWord hsum, getElem_append_right le_rfl]
        simp
      · rw [setMem_mem, setWord, word_blit_outside (by omega), h.entry i (by omega),
          getElem_append_left (by omega)]
    · rw [append_assoc]
      rfl

theorem growUsedTable (h : Inv s own hs used hand) (hwindow : supply.window = true)
    (hfresh : supply.used.Fresh s (s.usedTablePages + 1)) :
    ∃ s' own', s.growUsedTable supply = .ok s' ∧ Inv s' own' hs used hand ∧
      s'.usedTablePages = s.usedTablePages + 1 := by
  obtain ⟨va, hva⟩ : ∃ va, va = supply.used.va := ⟨_, rfl⟩
  obtain ⟨n, hn⟩ : ∃ n, n = s.usedTablePages + 1 := ⟨_, rfl⟩
  rw [← hn] at hfresh ⊢
  have halign := hfresh.aligned
  have hbelow := hfresh.below
  have hroom := h.usedRoom
  have hold := h.usedAligned
  have hnobody : ∀ p, va / 4096 ≤ p ∧ p < va / 4096 + n → own p = .nobody := by
    rintro p ⟨hle, hlt⟩
    have := hfresh.unused p (hva ▸ hle) (hva ▸ hlt)
    rwa [h.pages, not_not] at this
  rw [← hva] at halign hbelow
  obtain ⟨mem, hmem⟩ : ∃ m, m = blit s.mem va (fun j => s.mem (s.usedTable + j)) (4 * s.usedCount) :=
    ⟨_, rfl⟩
  have hsame : ∀ a, own (a / 4096) ≠ .nobody → mem a = s.mem a := by
    intro a ha
    rw [hmem]
    apply blit_outside
    by_contra hin
    have hcount := h.usedCount
    exact ha (hnobody _ (by omega))
  have hsrc : (s.acquire supply.used n).Mapped s.usedTable (4 * s.usedCount) := by
    apply mapped_range hold
    · intro p hle hlt
      apply hfresh.mem_acquire.mpr
      left
      rw [h.pages, (h.usedPages p).mpr ⟨hle, hlt⟩]
      simp
    · rw [h.usedCount]
      omega
  have hdst : (s.acquire supply.used n).Mapped va (4 * s.usedCount) := by
    apply mapped_range halign
    · intro p hle hlt
      exact hfresh.mem_acquire.mpr (.inr ⟨hva ▸ hle, hva ▸ hlt⟩)
    · rw [h.usedCount]
      omega
  have hcall : s.growUsedTable supply = .ok
      { ((s.acquire supply.used n).setMem mem).release s.usedTable s.usedTablePages with
        usedTable := va, usedTablePages := n } := by
    rw [State.growUsedTable, ← hn, memcpy, if_pos hsrc, ← hva, store_mapped hdst, ok_bind, getPhysAddr,
      if_pos hwindow, ok_bind, acquire_mem, ← hmem, hfresh.acquire_eq]
    rfl
  obtain ⟨own', hown'⟩ : ∃ f : Nat → Owner, ∀ p, f p =
      if va / 4096 ≤ p ∧ p < va / 4096 + n then .used
      else if own p = .used then .nobody else own p := ⟨_, fun _ => rfl⟩
  have hothers : ∀ {p} {o : Owner}, o ≠ .nobody → o ≠ .used → (own' p = o ↔ own p = o) := by
    intro p o ho ho'
    rw [hown']
    split
    · rename_i hin
      rw [hnobody p hin]
      exact ⟨fun heq => absurd heq.symm ho', fun heq => absurd heq.symm ho⟩
    · split
      · rename_i hused
        rw [hused]
        exact ⟨fun heq => absurd heq.symm ho, fun heq => absurd heq.symm ho'⟩
      · rfl
  have hpages : ∀ p, p ∈ (((s.acquire supply.used n).setMem mem).release
      s.usedTable s.usedTablePages).pages ↔ own' p ≠ .nobody := by
    intro p
    rw [release, mem_filter, setMem_pages, hfresh.mem_acquire, ← hva, decide_eq_true_iff,
      pagesAt, mem_range'_1, ← h.usedPages, hown', h.pages]
    split
    · rename_i hin
      simp [hin, hnobody p hin]
    · rename_i hin
      split
      · rename_i hused
        simp [hused]
      · rename_i hused
        simp [hin, hused]
  have hroom' : used.length ≤ n * 0x400 :=
    Nat.le_trans hroom (Nat.mul_le_mul_right _ (hn ▸ Nat.le_succ _))
  rw [hfresh.acquire_eq] at hcall hpages
  refine ⟨_, own', hcall, { h with
    pages := hpages, range := ?range, chain := ?chain, header := ?header
    usedAligned := halign, usedPages := ?usedPages, usedRoom := hroom', entry := ?entry
    region := ?region }, rfl⟩
  case range =>
    intro p hp
    rw [hown'] at hp
    split at hp
    · omega
    · split at hp
      · exact absurd rfl hp
      · exact h.range p hp
  case chain =>
    intro c hc
    exact h.chain_congr hc fun a ha => hsame a (by simp [ha])
  case header =>
    intro c p
    rw [hothers (by simp) (by simp)]
    exact h.header c p
  case usedPages =>
    intro p
    rw [hown']
    split
    · rename_i hin
      simp [hin]
    · rename_i hin
      simp only [hin, iff_false]
      split
      · simp
      · assumption
  case entry =>
    intro i hi
    have hcount := h.usedCount
    rw [← h.entry i hi]
    show word mem (va + 4 * i) = _
    rw [hmem, word_blit_inside (by omega) (by omega), Nat.add_sub_cancel_left]
    simp only [word, add_assoc]
  case region =>
    intro r p
    rw [hothers (by simp) (by simp)]
    exact h.region r p

theorem insertUsedTable (h : Inv s own hs used ((ptr, index) :: hand))
    (hwindow : s.usedTablePages * 0x400 ≤ s.usedCount → supply.window = true)
    (hfresh : s.usedTablePages * 0x400 ≤ s.usedCount →
      supply.used.Fresh s (s.usedTablePages + 1)) :
    ∃ s' own', s.insertUsedTable supply ptr index = .ok s' ∧
      Inv s' own' hs (used ++ [(ptr, index)]) hand := by
  have hgrown : ∃ s1 own1, s.ensureUsedTable supply = .ok s1 ∧
      Inv s1 own1 hs used ((ptr, index) :: hand) ∧ used.length < s1.usedTablePages * 0x400 := by
    have hcount := h.usedCount
    have hroom := h.usedRoom
    rw [ensureUsedTable]
    by_cases hneeds : s.usedTablePages * 0x400 ≤ s.usedCount
    · obtain ⟨s1, own1, hcall, hinv, hpages⟩ := h.growUsedTable (hwindow hneeds) (hfresh hneeds)
      refine ⟨s1, own1, by rw [if_pos hneeds, hcall], hinv, ?_⟩
      omega
    · refine ⟨s, own, if_neg hneeds, h, ?_⟩
      omega
  obtain ⟨s1, own1, hcall, hinv, hlt⟩ := hgrown
  obtain ⟨hstore, hrecorded⟩ := hinv.record hlt
  refine ⟨_, own1, ?_, hrecorded⟩
  rw [State.insertUsedTable, hcall, ok_bind, hstore, ok_bind]
  simp only [setMem, hinv.usedCount]

end Inv

def swapRemove {α : Type} (l : List α) (i : Nat) (hi : i < l.length) : List α :=
  (l.set i (l.getLast (List.ne_nil_of_length_pos (Nat.zero_lt_of_lt hi)))).dropLast

theorem swapRemove_perm {α : Type} {l : List α} {i : Nat} (hi : i < l.length) :
    (l[i] :: swapRemove l i hi).Perm l := by
  obtain ⟨l0, x, rfl⟩ : ∃ l0 x, l = l0 ++ [x] :=
    ⟨_, _, (dropLast_append_getLast (ne_nil_of_length_pos (Nat.zero_lt_of_lt hi))).symm⟩
  rw [length_append, length_singleton] at hi
  by_cases hlast : i = l0.length
  · subst hlast
    have hsame : (l0 ++ [x]).set l0.length x = l0 ++ [x] := by simp
    simp only [swapRemove, getLast_concat, hsame, dropLast_concat,
      getElem_append_right le_rfl, Nat.sub_self, getElem_singleton]
    exact (perm_append_singleton x l0).symm
  · have hlt : i < l0.length := by omega
    have hset : (l0 ++ [x]).set i x = l0.set i x ++ [x] := set_append_left i x hlt
    simp only [swapRemove, getLast_concat, hset, dropLast_concat,
      getElem_append_left hlt]
    calc
      (l0[i] :: l0.set i x).Perm (l0[i] :: x :: l0.eraseIdx i) :=
        (set_perm_cons_eraseIdx hlt x).cons _
      _ |>.Perm (x :: l0[i] :: l0.eraseIdx i) := List.Perm.swap _ _ _
      _ |>.Perm (x :: l0) := (getElem_cons_eraseIdx_perm hlt).cons _
      _ |>.Perm (l0 ++ [x]) := (perm_append_singleton x l0).symm

namespace Inv

theorem descriptor_ptr (hb : Descriptor b) : b.1 + b.2 - (b.1 + b.2) % 2 ^ minPow = b.1 := by
  have halign := hb.aligned
  have hmax := hb.max
  simp only [minPow, maxPow] at *
  omega

theorem descriptor_index (hb : Descriptor b) : (b.1 + b.2) &&& maskPow = b.2 := by
  have halign := hb.aligned
  have hmax := hb.max
  rw [maskPow, Nat.and_two_pow_sub_one_eq_mod]
  simp only [minPow, maxPow] at *
  omega

variable (h : Inv s own hs used hand)
include h

theorem load_entry {i : Nat} (hi : i < used.length) :
    s.load32 (s.usedTable + 4 * i) = .ok (used[i].1 + used[i].2) := by
  rw [load32_mapped (h.mapped_entry (lt_of_lt_of_le hi h.usedRoom)), h.entry i hi]

theorem entry_lt {i : Nat} (hi : i < used.length) :
    used[i].1 + used[i].2 < 2 ^ 32 := by
  rw [← h.entry i hi]
  exact word_lt _ _

theorem removeAt {i : Nat} (hi : i < used.length) {mem : Nat → UInt8}
    (hmem : mem = setWord (setWord s.mem (s.usedTable + 4 * i)
      (used[used.length - 1].1 + used[used.length - 1].2)) (s.usedTable + 4 * (used.length - 1)) 0) :
    Inv { s with mem := mem, usedCount := used.length - 1 } own hs (swapRemove used i hi)
      (used[i] :: hand) := by
  have hlen : used.length - 1 = (swapRemove used i hi).length := by simp [swapRemove]
  have hroom := h.usedRoom
  rw [hlen]
  apply h.retable
  · intro a ha
    have hout : ∀ j < used.length, a < s.usedTable + 4 * j ∨ s.usedTable + 4 * j + 4 ≤ a := by
      intro j hj
      by_contra hin
      apply ha
      rw [show a = s.usedTable + (a - s.usedTable) by omega]
      apply h.own_entry
      omega
    rw [hmem, setWord, blit_outside (hout _ (by omega)), setWord, blit_outside (hout i hi)]
  · omega
  · intro j hj
    rw [hmem, setWord, word_blit_outside (by omega)]
    simp only [swapRemove, getElem_dropLast, getElem_set, getLast_eq_getElem]
    split
    · rename_i heq
      subst heq
      exact word_setWord (h.entry_lt (by omega))
    · rw [setWord, word_blit_outside (by omega), h.entry j (by omega)]
  · exact perm_middle.trans ((swapRemove_perm hi).append_right hand)

theorem removeFrom (ptr rounds i : Nat)
    (hi : i + rounds = used.length) :
    (s.removeFrom ptr rounds i = .ok (none, s) ∧
        ∀ j (hj : j < used.length), i ≤ j → used[j].1 ≠ ptr) ∨
      ∃ index s' used', s.removeFrom ptr rounds i = .ok (some index, s') ∧
        Inv s' own hs used' ((ptr, index) :: hand) ∧ ((ptr, index) :: used').Perm used := by
  induction rounds generalizing i with
  | zero => exact .inl ⟨rfl, fun j hj hle => by omega⟩
  | succ rounds ih =>
    have hlt : i < used.length := by omega
    have hlast : used.length - 1 < used.length := by omega
    have hdesc := h.descriptors used[i] (mem_append_left _ (getElem_mem hlt))
    have hcount := h.usedCount
    have hmap : ∀ mem {j}, j < used.length → (s.setMem mem).Mapped (s.usedTable + 4 * j) 4 :=
      fun _ _ hj => h.mapped_entry (lt_of_lt_of_le hj h.usedRoom)
    rw [State.removeFrom, h.load_entry hlt, ok_bind, descriptor_ptr hdesc]
    split
    · rename_i hptr
      subst hptr
      right
      refine ⟨used[i].2, _, _, ?_, h.removeAt hlt rfl, swapRemove_perm hlt⟩
      rw [hcount, h.load_entry hlast, ok_bind, store32_mapped (s := s) (hmap s.mem hlt), ok_bind,
        setMem_usedTable, setMem_usedCount, hcount, store32_mapped (hmap _ hlast), ok_bind,
        descriptor_index hdesc]
      simp only [setMem, hcount]
    · rename_i hptr
      obtain ⟨hnone, hother⟩ | hsome := ih (i + 1) (by omega)
      · refine .inl ⟨hnone, fun j hj hle => ?_⟩
        rcases Nat.eq_or_lt_of_le hle with rfl | hlt'
        · exact fun heq => hptr heq.symm
        · exact hother j hj hlt'
      · exact .inr hsome

theorem removeUsedTable (ptr : Nat) :
    (s.removeUsedTable ptr = .ok (none, s) ∧ ∀ b ∈ used, b.1 ≠ ptr) ∨
      ∃ index s' used', s.removeUsedTable ptr = .ok (some index, s') ∧
        Inv s' own hs used' ((ptr, index) :: hand) ∧ ((ptr, index) :: used').Perm used := by
  obtain ⟨hnone, hother⟩ | hsome := h.removeFrom ptr s.usedCount 0 (by rw [h.usedCount, zero_add])
  · refine .inl ⟨hnone, fun b hb => ?_⟩
    obtain ⟨j, hj, rfl⟩ := mem_iff_getElem.mp hb
    exact hother j hj (Nat.zero_le j)
  · exact .inr hsome

theorem mem_pages_iff {s' : State} {hs' : Nat → Headers} {used' hand' : List (Nat × Nat)}
    (h' : Inv s' own hs' used' hand') : p ∈ s'.pages ↔ p ∈ s.pages := by
  rw [h.pages, h'.pages]

theorem own_used {size : Nat} (hb : b ∈ used) (hsize : size ≤ 2 ^ b.2)
    (hle : b.1 ≤ a) (hlt : a < b.1 + size) : ∃ r, own (a / 4096) = .region r := by
  have hpos : 0 < cover (blocks used) a :=
    cover_pos.mpr ⟨block b.2 b.1, mem_map_of_mem (f := fun b => block b.2 b.1) hb,
      hle, lt_of_lt_of_le hlt (Nat.add_le_add_left hsize _)⟩
  obtain ⟨r, _, hr⟩ := h.covered (a := a) (by omega)
  exact ⟨r, hr⟩

theorem mapped_used {size : Nat} (hb : b ∈ used)
    (hsize : size ≤ 2 ^ b.2) : s.Mapped b.1 size := by
  rcases Nat.eq_zero_or_pos size with rfl | hpos
  · exact .inl rfl
  · right
    intro p hp
    rw [pagesAt, mem_range'_1] at hp
    obtain ⟨r, hr⟩ := h.own_used hb hsize (show b.1 ≤ max b.1 (p * 4096) by omega) (by omega)
    rw [show max b.1 (p * 4096) / 4096 = p by omega] at hr
    rw [h.pages, hr]
    simp

theorem memset {size : Nat} (hb : b ∈ used) (hsize : size ≤ 2 ^ b.2) :
    ∃ s', s.memset b.1 0 size = .ok s' ∧ Inv s' own hs used hand := by
  have hsame : ∀ a, (∀ r, own (a / 4096) ≠ .region r) →
      blit s.mem b.1 (fun _ => 0) size a = s.mem a := by
    intro a ha
    apply blit_outside
    by_contra hin
    obtain ⟨r, hr⟩ := h.own_used hb hsize (a := a) (by omega) (by omega)
    exact ha r hr
  refine ⟨_, store_mapped (h.mapped_used hb hsize), { h with
    chain := fun c hc => h.chain_congr hc fun a ha => hsame a fun r => by rw [ha]; nofun
    entry := fun i hi => ?_ }⟩
  rw [← h.entry i hi]
  apply word_congr
  intro j hj
  apply hsame
  have hroom := h.usedRoom
  rw [add_assoc, setMem_usedTable, h.own_entry (by omega)]
  nofun

end Inv

def State.Valid (s : State) : Prop := ∃ own hs used, Inv s own hs used []

end Quest.Mem.Pow2
