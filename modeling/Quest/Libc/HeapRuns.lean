import Quest.Libc.Heap

/-! The heap over whole runs of a program that writes to nothing but what it has allocated. -/
namespace Quest.Libc

open Lib.LinkedList Lib.Memory Lib.Reach Lib.Tiling Lib.FreeList List Function

structure Live where
  ptr : Nat
  size : Nat
  deriving DecidableEq, Repr

/-- What `malloc` has taken from the free list: the size field, the memory of the
program and what `reserved` adds to them. -/
def Live.block (l : Live) : Block := ⟨l.ptr - 8, reserved (l.size + 8)⟩

structure Process where
  heap : Heap
  lives : List Live

inductive Call where
  | malloc (size : Nat)
  | free (l : Live)
  | write (addr : Nat) (byte : UInt8)
  deriving DecidableEq, Repr

def boot : Process := ⟨memInit, []⟩

def step (p : Process) : Call → Except Fault Process
  | .malloc size => do
      let (ptr, heap) ← malloc p.heap size
      .ok ⟨heap, (ptr.map fun ptr => ⟨ptr, size⟩).toList ++ p.lives⟩
  | .free l => do
      let heap ← free p.heap l.ptr
      .ok ⟨heap, p.lives.erase l⟩
  | .write addr byte =>
      .ok { p with heap := { p.heap with arena := update p.heap.arena addr byte } }

def freeRecords (h : Heap) : List Frec := nodesFrom h.next maxblks h.frhead

def spareRecords (h : Heap) : List Frec := nodesFrom h.next maxblks h.frecs

def freeBlocks (h : Heap) : List Block := (freeRecords h).map h.block

/-- What a program may do: a pointer is freed once, and not while all records are in use. -/
def Allowed (p : Process) : Call → Prop
  | .malloc size => size ≤ heapSize
  | .free l => l ∈ p.lives ∧ (freeBlocks p.heap).length ≤ maxblks - 1
  | .write addr _ => ∃ l ∈ p.lives, l.ptr ≤ addr ∧ addr < l.ptr + l.size

instance (p : Process) : (c : Call) → Decidable (Allowed p c)
  | .malloc size => inferInstanceAs (Decidable (size ≤ heapSize))
  | .free l => inferInstanceAs (Decidable (l ∈ p.lives ∧ (freeBlocks p.heap).length ≤ maxblks - 1))
  | .write addr _ =>
      inferInstanceAs (Decidable (∃ l ∈ p.lives, l.ptr ≤ addr ∧ addr < l.ptr + l.size))

/-- The free blocks and the blocks of the program are the heap, and each block of the
program has its size at its start. -/
structure Kept (p : Process) (blocks : List Block) : Prop where
  described : Describes p.heap blocks
  separated : Separated blocks
  tiled : ∀ a, cover (blocks ++ p.lives.map Live.block) a = if a < heapSize then 1 else 0
  headers : ∀ l ∈ p.lives, 8 ≤ l.ptr ∧ word p.heap.arena (l.ptr - 8) = l.size + 8

variable {p p' : Process} {blocks : List Block} {h : Heap}

theorem Describes.freeBlocks_eq (hd : Describes h blocks) : freeBlocks h = blocks := by
  obtain ⟨frees, spares, hl, rfl⟩ := hd
  rw [freeBlocks, freeRecords, hl.free.nodesFrom_eq hl.free.length_le_fin]

theorem Describes.lists (hd : Describes h blocks) : Lists h (freeRecords h) (spareRecords h) := by
  obtain ⟨frees, spares, hl, -⟩ := hd
  rw [freeRecords, spareRecords, hl.free.nodesFrom_eq hl.free.length_le_fin,
    hl.spare.nodesFrom_eq hl.spare.length_le_fin]
  exact hl

theorem kept_boot : Kept boot [⟨0, heapSize⟩] where
  described := ⟨[0], _, lists_memInit, rfl⟩
  separated := separated_cons.mpr ⟨by decide, nofun, separated_nil⟩
  tiled a := by simp [boot, Block.Covers]
  headers := nofun

theorem Kept.pairwise (hk : Kept p blocks) :
    (blocks ++ p.lives.map Live.block).Pairwise Block.Disjoint := by
  apply pairwise_disjoint
  intro a
  rw [hk.tiled a]
  split <;> decide

theorem Live.size_pos (l : Live) : 0 < l.block.size := by
  rw [Live.block, reserved_eq]
  exact Nat.succ_pos _

theorem Live.header_stop (l : Live) : l.block.base + 4 ≤ l.block.stop := by
  rw [Block.stop, Live.block, reserved_eq]
  dsimp only
  omega

section

variable (hk : Kept p blocks)
include hk

theorem malloc_kept {size : Nat} (hsize : size ≤ heapSize) :
    ∃ p' blocks', step p (.malloc size) = .ok p' ∧ Kept p' blocks' := by
  obtain ⟨frees, spares, hl, hblocks⟩ := hk.described
  rcases malloc_spec size hl with ⟨hcall, -⟩ | ⟨base, blocks', h', hcall, hcarve, hd, harena⟩
  · refine ⟨p, blocks, ?_, hk⟩
    rw [step, hcall]
    rfl
  · rw [hblocks] at hcarve
    obtain ⟨hseparated, hcover, -⟩ := carve_spec hk.separated hcarve
    have hblock : Live.block ⟨base + 8, size⟩ = ⟨base, reserved (size + 8)⟩ := rfl
    have htiled : ∀ a, cover (blocks' ++ Live.block ⟨base + 8, size⟩ :: p.lives.map Live.block) a =
        if a < heapSize then 1 else 0 := by
      intro a
      have hold := hk.tiled a
      rw [cover_append, hcover a] at hold
      rw [cover_append, cover_cons, ← hold, hblock]
      omega
    have hdisj : ∀ l ∈ p.lives, (Live.block ⟨base + 8, size⟩).Disjoint l.block := by
      have hpairs := pairwise_disjoint fun a => (htiled a).trans_le (by split <;> decide)
      have hnew := (pairwise_cons.mp (pairwise_append.mp hpairs).2.1).1
      exact fun l hl => hnew l.block (mem_map_of_mem hl)
    refine ⟨⟨h', ⟨base + 8, size⟩ :: p.lives⟩, blocks', ?_, hd, hseparated, htiled, ?_⟩
    · rw [step, hcall]
      rfl
    · refine forall_mem_cons.mpr ⟨⟨Nat.le_add_left 8 base, ?_⟩, fun l hl => ?_⟩
      · rw [harena, Nat.add_sub_cancel]
        have hsmall : size + 8 < 2 ^ 32 := by
          unfold heapSize at hsize
          omega
        exact word_setWord hsmall
      · obtain ⟨hptr, hword⟩ := hk.headers l hl
        refine ⟨hptr, ?_⟩
        have hapart := (hdisj l hl).apart (Live.size_pos _) l.size_pos
        have hold := l.header_stop
        have hnew := Live.header_stop ⟨base + 8, size⟩
        simp only [Block.stop, Live.block, Nat.add_sub_cancel] at hapart hold hnew
        rw [harena, ← hword]
        apply word_blit_outside
        omega

theorem free_kept {l : Live} (hlive : l ∈ p.lives)
    (hroom : blocks.length ≤ maxblks - 1) :
    ∃ p' blocks', step p (.free l) = .ok p' ∧ Kept p' blocks' := by
  obtain ⟨frees, spares, hl, hblocks⟩ := hk.described
  obtain ⟨newFrp, spares, rfl⟩ : ∃ newFrp rest, spares = newFrp :: rest := by
    apply exists_cons_of_ne_nil
    rintro rfl
    have hlen := hl.all.length_eq
    rw [append_nil, length_finRange] at hlen
    rw [← hblocks, length_map, hlen] at hroom
    exact absurd hroom (by decide)
  obtain ⟨hptr, hword⟩ := hk.headers l hlive
  obtain ⟨h', hcall, hd, harena⟩ := free_spec l.ptr hl
  rw [hblocks, hword] at hd
  change Describes h' (release l.block blocks) at hd
  have hperm : (p.lives.map Live.block).Perm (l.block :: (p.lives.erase l).map Live.block) :=
    (perm_cons_erase hlive).map Live.block
  have hapart : ∀ b ∈ blocks, b.stop ≤ l.block.base ∨ l.block.stop ≤ b.base := by
    intro b hb
    have hdisj := (pairwise_append.mp hk.pairwise).2.2 b hb l.block
      (mem_map_of_mem hlive)
    exact hdisj.apart (hk.separated.filled b hb) l.size_pos
  refine ⟨⟨h', p.lives.erase l⟩, _, ?_, hd, release_separated hk.separated l.size_pos hapart, ?_, ?_⟩
  · rw [step, hcall]
    rfl
  · intro a
    rw [← hk.tiled a, cover_append, cover_append, cover_release, cover_perm hperm, cover_cons,
      cover_cons]
    dsimp only
    omega
  · intro l' hl'
    rw [harena]
    exact hk.headers l' (mem_of_mem_erase hl')

theorem write_kept {l : Live} {addr : Nat} {byte : UInt8}
    (hlive : l ∈ p.lives) (hlow : l.ptr ≤ addr) (hhigh : addr < l.ptr + l.size) :
    ∃ p' blocks', step p (.write addr byte) = .ok p' ∧ Kept p' blocks' := by
  refine ⟨_, blocks, rfl, ?_, hk.separated, hk.tiled, ?_⟩
  · obtain ⟨frees, spares, hl, hblocks⟩ := hk.described
    exact ⟨frees, spares, hl.congr rfl rfl rfl, hblocks⟩
  · intro l' hl'
    obtain ⟨hptr, hword⟩ := hk.headers l' hl'
    refine ⟨hptr, ?_⟩
    rw [← hword]
    apply word_congr
    intro j hj
    apply update_of_ne
    rintro rfl
    by_cases hsame : l' = l
    · subst hsame
      omega
    · have hpairs := pairwise_map.mp (pairwise_append.mp hk.pairwise).2.1
      have hsymm : Std.Symm fun b c : Live => b.block.Disjoint c.block :=
        ⟨fun _ _ h a hc hb => h a hb hc⟩
      have hdisj := hpairs.forall hl' hlive hsame
      refine hdisj (l'.ptr - 8 + j) ?_ ?_
      all_goals simp only [Block.Covers, Live.block, reserved_eq]; omega

theorem step_kept {c : Call} (hallow : Allowed p c) :
    ∃ p' blocks', step p c = .ok p' ∧ Kept p' blocks' := by
  cases c with
  | malloc size => exact malloc_kept hk hallow
  | free l =>
    obtain ⟨hlive, hroom⟩ := hallow
    rw [hk.described.freeBlocks_eq] at hroom
    exact free_kept hk hlive hroom
  | write addr byte =>
    obtain ⟨l, hlive, hlow, hhigh⟩ := hallow
    exact write_kept hk hlive hlow hhigh

end

theorem reached_kept (h : Reaches step Allowed boot p) : ∃ blocks, Kept p blocks := by
  refine h.invariant (fun p => ∃ blocks, Kept p blocks) ⟨_, kept_boot⟩ ?_
  rintro p p' c ⟨blocks, hk⟩ hallow hstep
  obtain ⟨q, blocks', hq, hkept⟩ := step_kept hk hallow
  rw [hstep, Except.ok.injEq] at hq
  exact ⟨blocks', hq ▸ hkept⟩

/-- The free blocks are in order and not adjacent, they are with the blocks of the program the
heap, and each record is on one of the two lists.  The calls return; when all is freed there is
one free block. -/
theorem heap_tiled (h : Reaches step Allowed boot p) :
    Chain p.heap.next p.heap.frhead (freeRecords p.heap) ∧
      Chain p.heap.next p.heap.frecs (spareRecords p.heap) ∧
      (freeRecords p.heap ++ spareRecords p.heap).Perm (List.finRange maxblks) ∧
      (freeBlocks p.heap).Pairwise (fun b c => b.base < c.base) ∧
      (∀ b ∈ freeBlocks p.heap, ∀ c ∈ freeBlocks p.heap, b.stop ≠ c.base) ∧
      (freeBlocks p.heap ++ p.lives.map Live.block).Pairwise Block.Disjoint ∧
      (∀ a, (∃ b ∈ freeBlocks p.heap ++ p.lives.map Live.block, b.Covers a) ↔ a < 800000) ∧
      (p.lives = [] → freeBlocks p.heap = [⟨0, 800000⟩]) ∧
      ∀ c, Allowed p c → ∃ p', step p c = .ok p' := by
  obtain ⟨blocks, hk⟩ := reached_kept h
  obtain ⟨hfree, hspare, hall⟩ := hk.described.lists
  rw [hk.described.freeBlocks_eq]
  refine ⟨hfree, hspare, hall, ?_, ?_, hk.pairwise, ?_, ?_, ?_⟩
  · refine hk.separated.gaps.imp fun hgap => ?_
    exact Nat.lt_of_le_of_lt (Nat.le_add_right _ _) hgap
  · exact fun b hb c hc => hk.separated.not_adjacent hb hc
  · intro a
    rw [← cover_pos, hk.tiled a, heapSize]
    split <;> simp [*]
  · intro hnone
    refine eq_singleton_of_cover hk.separated (by decide) fun a => ?_
    have htiled := hk.tiled a
    rw [hnone, List.map_nil, List.append_nil] at htiled
    exact htiled
  · intro c hallowed
    obtain ⟨p', -, hstep, -⟩ := step_kept hk hallowed
    exact ⟨p', hstep⟩

def threeBlocks : List Call :=
  [.malloc 100, .malloc 0, .malloc 300, .write 8 255, .free ⟨8, 100⟩, .free ⟨138, 300⟩,
    .free ⟨123, 0⟩]

theorem heap_tiled_three_blocks : ∃ p, replay step Allowed boot threeBlocks = some p ∧
    p.lives = [] ∧ freeBlocks p.heap = [⟨0, 800000⟩] := by
  have hlives : (replay step Allowed boot threeBlocks).map (·.lives) = some [] := by
    decide +kernel
  obtain ⟨p, hrun, hnone⟩ := Option.map_eq_some_iff.mp hlives
  obtain ⟨-, -, -, -, -, -, -, hsingle, -⟩ := heap_tiled (Reaches.refl.replay hrun)
  exact ⟨p, hrun, hnone, hsingle hnone⟩

end Quest.Libc
