import Quest.Libc.HeapRuns

/-! `malloc` for any argument: `size_t` is `int` in this library. -/
namespace Quest.Libc

open Lib.LinkedList Lib.Memory Lib.Reach Lib.Tiling Lib.FreeList List Function

structure IntHeap where
  fbp : Frec → Int
  size : Frec → Int
  next : Frec → Option Frec
  frhead : Option Frec
  frecs : Option Frec
  arena : Nat → UInt8

def reservedInt (size : Int) : Int := (wrap (8 * wrap (size + 8 - 1))).tdiv 8

namespace IntHeap

def delRecord (h : IntHeap) (prev frp : Frec) : IntHeap :=
  let h := if some frp = h.frhead then { h with frhead := h.next frp }
    else { h with next := update h.next prev (h.next frp) }
  { h with next := update h.next frp h.frecs, frecs := some frp }

def findFit (h : IntHeap) (need : Int) :
    Nat → Frec → Option Frec → Except Fault (Option (Frec × Frec))
  | 0, _, _ => .error .diverges
  | _ + 1, _, none => .ok none
  | fuel + 1, prev, some frp =>
      if need ≤ h.size frp then .ok (some (prev, frp)) else findFit h need fuel frp (h.next frp)

def allocate (h : IntHeap) (frp : Frec) (size : Int) : Except Fault IntHeap :=
  if 0 ≤ h.fbp frp ∧ h.fbp frp + 4 ≤ 1000000 then
    .ok { h with
      fbp := update h.fbp frp (h.fbp frp + reservedInt size)
      size := update h.size frp (wrap (h.size frp - reservedInt size))
      arena := setWord h.arena (h.fbp frp).toNat (size % 2 ^ 32).toNat }
  else .error .outOfBounds

def malloc (h : IntHeap) (size : Int) : Except Fault (Option Int × IntHeap) :=
  let size := wrap (size + 8)
  match h.frhead with
  | none => .ok (none, h)
  | some head => do
      let found ← h.findFit (reservedInt size) (maxblks + 1) head (some head)
      match found with
      | none => .ok (none, h)
      | some (prev, frp) => do
          let frstart := h.fbp frp
          let h ← h.allocate frp size
          .ok (some (frstart + 8), if h.size frp ≠ 0 then h else h.delRecord prev frp)

end IntHeap

def Heap.ints (h : Heap) : IntHeap where
  fbp frp := h.fbp frp
  size frp := h.size frp
  next := h.next
  frhead := h.frhead
  frecs := h.frecs
  arena := h.arena

def need (size : Int) : Int := reservedInt (wrap (size + 8))

theorem need_eq {n : Nat} (hn : n + 15 < 2 ^ 28) : need n = n + 15 := by
  rw [need, reservedInt, wrap_eq (x := n + 8) (by omega) (by omega),
    wrap_eq (x := n + 8 + 8 - 1) (by omega) (by omega), wrap_eq (by omega) (by omega),
    Int.mul_tdiv_cancel_left _ (by decide)]
  omega

theorem findFit_ints (h : Heap) (need : Int) (fuel : Nat) (prev : Frec) (head : Option Frec) :
    h.ints.findFit need fuel prev head = findFit h need.toNat fuel prev head := by
  induction fuel generalizing prev head with
  | zero => rfl
  | succ fuel ih =>
    cases head with
    | none => rfl
    | some frp =>
      have hfits : need ≤ h.ints.size frp ↔ need.toNat ≤ h.size frp := Int.toNat_le.symm
      rw [IntHeap.findFit, findFit, ih]
      simp only [hfits]
      rfl

variable {p : Process} {blocks : List Block} {h : Heap}

theorem Kept.inside (hk : Kept p blocks) {b : Block} (hb : b ∈ blocks) : b.stop ≤ heapSize := by
  have hsize := hk.separated.filled b hb
  have hcover : 0 < cover (blocks ++ p.lives.map Live.block) (b.stop - 1) := by
    rw [cover_pos]
    refine ⟨b, mem_append_left _ hb, ?_⟩
    simp only [Block.Covers, Block.stop]
    omega
  rw [hk.tiled] at hcover
  split at hcover
  · omega
  · cases hcover

theorem not_fits {frp : Frec} {n : Int} (hsize : h.size frp < (need n).toNat) :
    ¬ decide (need n ≤ (h.block frp).size) = true := by
  rw [decide_eq_true_eq, Heap.block, Int.not_le]
  exact Int.lt_toNat.mp hsize

theorem find_blocks {xs ys : List Frec} {frp : Frec} {n : Int}
    (hsizes : ∀ r ∈ xs, h.size r < (need n).toNat) (hfits : (need n).toNat ≤ h.size frp) :
    ((xs ++ frp :: ys).map h.block).find? (fun b => need n ≤ b.size) = some (h.block frp) := by
  rw [map_append, map_cons, find?_append, find?_eq_none.mpr,
    Option.none_or, find?_cons_of_pos]
  · exact decide_eq_true (Int.toNat_le.mp hfits)
  · exact forall_mem_map.mpr fun r hr => not_fits (hsizes r hr)

theorem mallocInt_cases (hk : Kept p blocks) (n : Int) :
    (blocks.find? (fun b => need n ≤ b.size) = none ∧
      p.heap.ints.malloc n = .ok (none, p.heap.ints)) ∨
    ∃ b h', blocks.find? (fun b => need n ≤ b.size) = some b ∧
      p.heap.ints.malloc n = .ok (some (b.base + 8), h') := by
  obtain ⟨frees, spares, hl, rfl⟩ := hk.described
  cases frees with
  | nil =>
    have hhead : p.heap.ints.frhead = none := hl.free
    refine .inl ⟨rfl, ?_⟩
    rw [IntHeap.malloc, hhead]
  | cons first rest =>
    have hlen : (first :: rest).length < maxblks + 1 :=
      Nat.lt_succ_of_le hl.free.length_le_fin
    have hhead : p.heap.ints.frhead = some first := hl.free.1
    have hwalk := hl.free
    rw [show p.heap.frhead = some first from hhead] at hwalk
    rw [IntHeap.malloc, hhead]
    dsimp only
    rw [findFit_ints]
    rcases findFit_spec (need n).toNat first hwalk hlen with
      ⟨hnone, hsizes⟩ | ⟨xs, frp, ys, hnodes, hfound, hsizes, hfits⟩
    · refine .inl ⟨?_, ?_⟩
      · exact find?_eq_none.mpr
          (forall_mem_map.mpr fun r hr => not_fits (hsizes r hr))
      · rw [show reservedInt (wrap (n + 8)) = need n from rfl, hnone]
        rfl
    · have hmem : p.heap.block frp ∈ (first :: rest).map p.heap.block := by
        rw [hnodes]
        simp
      have hin := hk.inside hmem
      simp only [Block.stop, Heap.block, heapSize] at hin
      obtain ⟨h', hallocate⟩ : ∃ h', p.heap.ints.allocate frp (wrap (n + 8)) = .ok h' := by
        refine ⟨_, if_pos ⟨Int.natCast_nonneg _, ?_⟩⟩
        simp only [Heap.ints]
        omega
      rw [hnodes, find_blocks hsizes hfits, show reservedInt (wrap (n + 8)) = need n from rfl,
        hfound, ok_bind]
      dsimp only
      rw [hallocate, ok_bind]
      exact .inr ⟨_, _, rfl, rfl⟩

/-- The call returns NULL with the heap as it was, or a pointer to `n` bytes of the heap at a
multiple of 8 and apart from what the program has; NULL if `n` is negative or more than the heap
has. -/
def MallocResult (p : Process) (n : Int) : Prop :=
  ∃ ptr h', p.heap.ints.malloc n = .ok (ptr, h') ∧ (ptr = none → h' = p.heap.ints) ∧
    (∀ a, ptr = some a → 8 ∣ a ∧ 0 ≤ a ∧ a + n ≤ heapSize ∧
      ∀ l ∈ p.lives, a + n ≤ l.ptr ∨ (l.ptr : Int) + l.size ≤ a) ∧
    (n < 0 ∨ heapSize < n → ptr = none)

theorem Kept.apart (hk : Kept p blocks) {b : Block} (hb : b ∈ blocks) {n : Nat}
    (hn : n + 15 ≤ b.size) {l : Live} (hl : l ∈ p.lives) :
    b.base + 8 + n ≤ l.ptr ∨ l.ptr + l.size ≤ b.base + 8 := by
  have hdisj := (pairwise_append.mp hk.pairwise).2.2 b hb l.block
    (mem_map_of_mem hl)
  have hapart := hdisj.apart (hk.separated.filled b hb) l.size_pos
  simp only [Block.stop, Live.block, reserved_eq] at hapart
  omega

theorem mallocResult_iff (hk : Kept p blocks) (n : Int) :
    MallocResult p n ↔ ∀ b, blocks.find? (fun b => need n ≤ b.size) = some b →
      0 ≤ n ∧ n + 15 < 2 ^ 28 ∧ 8 ∣ b.base := by
  rcases mallocInt_cases hk n with ⟨hnone, hcall⟩ | ⟨b, h', hsome, hcall⟩
  · rw [hnone]
    refine iff_of_true ⟨none, _, hcall, fun _ => rfl, nofun, fun _ => rfl⟩ nofun
  · rw [hsome]
    constructor
    · rintro ⟨ptr, h1, hcall', -, hptr, hnull⟩ b' ⟨⟩
      rw [hcall] at hcall'
      cases hcall'
      obtain ⟨hdvd, -⟩ := hptr _ rfl
      have hrange : ¬ (n < 0 ∨ heapSize < n) := fun h => nomatch hnull h
      simp only [heapSize] at hrange
      omega
    · intro hb
      obtain ⟨hn, hsmall, hdvd⟩ := hb b rfl
      obtain ⟨n, rfl⟩ := Int.eq_ofNat_of_zero_le hn
      have hmem := mem_of_find?_eq_some hsome
      have hfits : need n ≤ b.size := by simpa using find?_some hsome
      have hin := hk.inside hmem
      rw [need_eq (by omega)] at hfits
      rw [Block.stop] at hin
      refine ⟨_, _, hcall, nofun, ?_, fun h => ?_⟩
      · rintro a ⟨⟩
        refine ⟨by omega, by omega, by omega, fun l hl => ?_⟩
        have := hk.apart hmem (n := n) (by omega) hl
        omega
      · omega

/-! Runs in which every block has whole units of 8 bytes: what `malloc` reserves for `size` bytes is
`size + 15`. -/

def AllowedUnits (p : Process) (c : Call) : Prop :=
  Allowed p c ∧ ∀ size, c = .malloc size → size % 8 = 1

structure Units (p : Process) : Prop where
  free : ∀ b ∈ freeBlocks p.heap, Multiple 8 b
  lives : ∀ l ∈ p.lives, Multiple 8 l.block

theorem units_boot : Units boot where
  free := by
    intro b hb
    rw [mem_singleton.mp hb]
    exact ⟨by decide, by decide⟩
  lives := nofun

theorem malloc_units {p' : Process} {size : Nat} (hk : Kept p blocks) (hu : Units p)
    (hsize : size % 8 = 1) (hstep : step p (.malloc size) = .ok p') : Units p' := by
  obtain ⟨frees, spares, hl, hblocks⟩ := hk.described
  have hfree := hu.free
  rw [hk.described.freeBlocks_eq] at hfree
  have hreserved : 8 ∣ reserved (size + 8) := by
    rw [reserved_eq]
    omega
  rcases malloc_spec size hl with ⟨hcall, -⟩ | ⟨base, rest, h', hcall, hcarve, hd, -⟩
  · rw [step, hcall] at hstep
    cases hstep
    exact hu
  · rw [step, hcall] at hstep
    cases hstep
    rw [hblocks] at hcarve
    obtain ⟨hbase, hrest⟩ := carve_multiple hreserved hfree hcarve
    refine ⟨?_, forall_mem_cons.mpr ⟨⟨hbase, hreserved⟩, hu.lives⟩⟩
    rw [hd.freeBlocks_eq]
    exact hrest

theorem free_units {p' : Process} {l : Live} (hk : Kept p blocks) (hu : Units p)
    (hlive : l ∈ p.lives) (hstep : step p (.free l) = .ok p') : Units p' := by
  obtain ⟨frees, spares, hl, hblocks⟩ := hk.described
  obtain ⟨heap, hcall, hstep⟩ := bind_eq_ok.mp hstep
  cases hstep
  cases spares with
  | nil =>
    have hfrecs : p.heap.frecs = none := hl.spare
    rw [free, hfrecs] at hcall
    cases hcall
  | cons newFrp spares =>
    obtain ⟨h', hcall', hd, -⟩ := free_spec l.ptr hl
    rw [hcall] at hcall'
    cases hcall'
    rw [(hk.headers l hlive).2] at hd
    have hfree := hu.free
    rw [hk.described.freeBlocks_eq, ← hblocks] at hfree
    refine ⟨?_, fun l' hl' => hu.lives l' (mem_of_mem_erase hl')⟩
    rw [hd.freeBlocks_eq]
    exact release_multiple (hu.lives l hlive) hfree

theorem step_units {p' : Process} {c : Call} (hk : Kept p blocks) (hu : Units p)
    (hallow : AllowedUnits p c) (hstep : step p c = .ok p') : Units p' := by
  cases c with
  | malloc size => exact malloc_units hk hu (hallow.2 size rfl) hstep
  | free l => exact free_units hk hu hallow.1.1 hstep
  | write addr byte =>
    cases hstep
    exact { hu with }

theorem reached_units (h : Reaches step AllowedUnits boot p) : Units p := by
  have hinv : (∃ blocks, Kept p blocks) ∧ Units p := by
    refine h.invariant (fun p => (∃ blocks, Kept p blocks) ∧ Units p)
      ⟨⟨_, kept_boot⟩, units_boot⟩ ?_
    rintro p p' c ⟨⟨blocks, hk⟩, hu⟩ hallow hstep
    obtain ⟨q, blocks', hq, hkept⟩ := step_kept hk hallow.1
    rw [hstep, Except.ok.injEq] at hq
    exact ⟨⟨blocks', hq ▸ hkept⟩, step_units hk hu hallow hstep⟩
  exact hinv.2

/-- The result is right exactly when there is no block for it, or when the argument does not
overflow and the first block that is found begins at a multiple of 8. -/
theorem malloc_result_iff (h : Reaches step Allowed boot p) (n : Int) :
    (MallocResult p n ↔ ∀ b, (freeBlocks p.heap).find? (fun b => need n ≤ b.size) = some b →
      0 ≤ n ∧ n + 15 < 2 ^ 28 ∧ 8 ∣ b.base) ∧
    (Reaches step AllowedUnits boot p → (MallocResult p n ↔
      (∀ b ∈ freeBlocks p.heap, b.size < need n) ∨ 0 ≤ n ∧ n + 15 < 2 ^ 28)) := by
  obtain ⟨blocks, hk⟩ := reached_kept h
  have hiff := mallocResult_iff hk n
  rw [← hk.described.freeBlocks_eq] at hiff
  refine ⟨hiff, fun hunits => hiff.trans ?_⟩
  have haligned := (reached_units hunits).free
  cases hfind : (freeBlocks p.heap).find? fun b => need n ≤ b.size with
  | none =>
    refine iff_of_true nofun (.inl fun b hb => ?_)
    simpa using List.find?_eq_none.mp hfind b hb
  | some b =>
    have hmem := List.mem_of_find?_eq_some hfind
    have hfits : need n ≤ b.size := by simpa using List.find?_some hfind
    constructor
    · intro hb
      exact .inr ⟨(hb b rfl).1, (hb b rfl).2.1⟩
    · rintro (hsmall | ⟨hn, hlt⟩) b' ⟨⟩
      · exact absurd (hsmall b hmem) (by omega)
      · exact ⟨hn, hlt, (haligned b hmem).1⟩

theorem malloc_result_iff_seventeen :
    ∃ p, replay step Allowed boot [.malloc 1, .malloc 9] = some p ∧ MallocResult p 17 := by
  have hblocks : (replay step Allowed boot [.malloc 1, .malloc 9]).map (freeBlocks ·.heap) =
      some [⟨40, 799960⟩] := by
    decide +kernel
  obtain ⟨p, hrun, hfree⟩ := Option.map_eq_some_iff.mp hblocks
  refine ⟨p, hrun, (malloc_result_iff (Reaches.refl.replay hrun) 17).1.mpr ?_⟩
  rw [hfree]
  decide

theorem malloc_misaligned :
    ¬ MallocResult boot (-1) ∧
      ∃ p, replay step Allowed boot [.malloc 2] = some p ∧ ¬ MallocResult p 2 := by
  constructor
  · rw [mallocResult_iff kept_boot]
    decide
  · have hblocks : (replay step Allowed boot [.malloc 2]).map (freeBlocks ·.heap) =
        some [⟨17, 799983⟩] := by
      decide +kernel
    obtain ⟨p, hrun, hfree⟩ := Option.map_eq_some_iff.mp hblocks
    obtain ⟨blocks, hk⟩ := reached_kept (Reaches.refl.replay hrun)
    refine ⟨p, hrun, ?_⟩
    rw [mallocResult_iff hk, ← hk.described.freeBlocks_eq, hfree]
    decide

end Quest.Libc
