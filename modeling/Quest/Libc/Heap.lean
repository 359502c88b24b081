import Quest.Basic
import Quest.Lib.FreeList
import Quest.Lib.LinkedList
import Quest.Lib.Memory
import Quest.Lib.Reach

/-! The heap of the C library (`libc/src/stdio.c`): `malloc` is first fit on a list of records of
free blocks, `free` puts a block back and merges it.  Addresses are offsets into `arena`, whose
first 800000 bytes are the heap; the records lie behind them.  No `int` overflows. -/
namespace Quest.Libc

open Lib.LinkedList Lib.Memory Lib.Reach Lib.Tiling Lib.FreeList Function

abbrev maxblks : Nat := 128

def heapSize : Nat := 800000

def align : Nat := 8

/-- `ALIGN * ceil (size, ALIGN)`.  The macro has no parentheses, so that nothing is rounded. -/
def reserved (size : Nat) : Nat := align * (size + align - 1) / align

abbrev Frec := Fin maxblks

structure Heap where
  fbp : Frec → Nat
  size : Frec → Nat
  next : Frec → Option Frec
  frhead : Option Frec
  frecs : Option Frec
  arena : Nat → UInt8

local instance : NeZero maxblks := ⟨by decide⟩

def memInit : Heap where
  fbp _ := 0
  size frp := if frp = 0 then heapSize else 0
  next frp := if h : 0 < frp.val ∧ frp.val + 1 < maxblks then some ⟨frp.val + 1, h.2⟩ else none
  frhead := some 0
  frecs := some 1
  arena _ := 0

def delRecord (h : Heap) (prev frp : Frec) : Heap :=
  let h := if some frp = h.frhead then { h with frhead := h.next frp }
    else { h with next := update h.next prev (h.next frp) }
  { h with next := update h.next frp h.frecs, frecs := some frp }

def findFit (h : Heap) (need : Nat) : Nat → Frec → Option Frec → Except Fault (Option (Frec × Frec))
  | 0, _, _ => .error .diverges
  | _ + 1, _, none => .ok none
  | fuel + 1, prev, some frp =>
      if need ≤ h.size frp then .ok (some (prev, frp)) else findFit h need fuel frp (h.next frp)

def allocate (h : Heap) (frp : Frec) (size : Nat) : Heap :=
  { h with
    fbp := update h.fbp frp (h.fbp frp + reserved size)
    size := update h.size frp (h.size frp - reserved size)
    arena := setWord h.arena (h.fbp frp) size }

def malloc (h : Heap) (size : Nat) : Except Fault (Option Nat × Heap) :=
  let size := size + 8
  match h.frhead with
  | none => .ok (none, h)
  | some head => do
      let found ← findFit h (reserved size) (maxblks + 1) head (some head)
      match found with
      | none => .ok (none, h)
      | some (prev, frp) =>
          let frstart := h.fbp frp
          let h := allocate h frp size
          .ok (some (frstart + 8), if h.size frp ≠ 0 then h else delRecord h prev frp)

def absorb (h : Heap) (frp nextFrp : Frec) : Heap :=
  delRecord { h with size := update h.size frp (h.size frp + h.size nextFrp) } frp nextFrp

def mergeNext (h : Heap) (frp : Frec) : Heap :=
  match h.next frp with
  | none => h
  | some nextFrp =>
      if h.fbp frp + h.size frp = h.fbp nextFrp then absorb h frp nextFrp else h

def mergeRecords (h : Heap) (frp : Frec) : Heap :=
  match h.next frp with
  | none => h
  | some nextFrp =>
      if h.fbp frp + h.size frp = h.fbp nextFrp then mergeNext (absorb h frp nextFrp) frp
      else mergeNext h nextFrp

def lastBelow (h : Heap) (addr : Nat) : Nat → Frec → Option Frec → Except Fault Frec
  | 0, _, _ => .error .diverges
  | _ + 1, prev, none => .ok prev
  | fuel + 1, prev, some frp =>
      if h.fbp frp < addr then lastBelow h addr fuel frp (h.next frp) else .ok prev

def fillRecord (h : Heap) (newFrp : Frec) (addr size : Nat) : Heap :=
  { h with
    fbp := update h.fbp newFrp addr
    size := update h.size newFrp (reserved size)
    frecs := h.next newFrp }

def linkFirst (h : Heap) (newFrp : Frec) : Heap :=
  { h with next := update h.next newFrp h.frhead, frhead := some newFrp }

def linkBehind (h : Heap) (prev newFrp : Frec) : Heap :=
  { h with
    next := update (update h.next newFrp (h.next prev)) prev (some newFrp) }

/-- `free`.  Without a record for the block the program exits. -/
def free (h : Heap) (ptr : Nat) : Except Fault Heap :=
  let addr := ptr - 8
  let size := word h.arena addr
  match h.frecs with
  | none => .error (.panic "No free records.")
  | some newFrp =>
      let h := fillRecord h newFrp addr size
      match h.frhead with
      | none => .ok (mergeRecords (linkFirst h newFrp) newFrp)
      | some frp =>
          if addr ≤ h.fbp frp then .ok (mergeRecords (linkFirst h newFrp) newFrp)
          else do
            let prev ← lastBelow h addr (maxblks + 1) frp (some frp)
            .ok (mergeRecords (linkBehind h prev newFrp) prev)

structure Lists (h : Heap) (frees spares : List Frec) : Prop where
  free : Chain h.next h.frhead frees
  spare : Chain h.next h.frecs spares
  all : (frees ++ spares).Perm (List.finRange maxblks)

def Heap.block (h : Heap) (frp : Frec) : Block := ⟨h.fbp frp, h.size frp⟩

variable {h h' : Heap} {frees spares xs ys : List Frec} {frp prev nextFrp : Frec}

theorem Lists.nodup (hl : Lists h frees spares) : (frees ++ spares).Nodup :=
  hl.all.nodup_iff.mpr (List.nodup_finRange maxblks)

theorem Lists.congr (hl : Lists h frees spares) (hnext : h'.next = h.next)
    (hfrhead : h'.frhead = h.frhead) (hfrecs : h'.frecs = h.frecs) : Lists h' frees spares := by
  refine ⟨?_, ?_, hl.all⟩
  · rw [hnext, hfrhead]
    exact hl.free
  · rw [hnext, hfrecs]
    exact hl.spare

theorem lists_memInit : Lists memInit [0] ((List.finRange maxblks).tail) where
  free := ⟨rfl, rfl⟩
  spare := by decide +kernel
  all := by decide +kernel

def Before (xs : List Frec) (prev : Frec) : Prop := ∀ last ∈ xs.getLast?, last = prev

theorem delRecord_eq (hfree : Chain h.next h.frhead (xs ++ frp :: ys)) (hprev : Before xs prev) :
    delRecord h prev frp =
      let unlinked := store h.next h.frhead (linkAfter none xs) (h.next frp)
      { h with
        frhead := unlinked.1, next := update unlinked.2 frp h.frecs, frecs := some frp } := by
  cases xs with
  | nil =>
    have hhead : some frp = h.frhead := hfree.1.symm
    rw [delRecord, if_pos hhead]
    rfl
  | cons x xs =>
    have hne : ¬some frp = h.frhead := by
      rw [hfree.1, Option.some.injEq]
      rintro rfl
      exact (List.nodup_cons.mp hfree.nodup).1 (by simp)
    have hlink : linkAfter none (x :: xs) = some prev := by
      rw [linkAfter, List.getLast?_eq_some_getLast (by simp), Option.some_or]
      rw [hprev _ (List.getLast?_eq_some_getLast (by simp))]
    rw [delRecord, if_neg hne, hlink]
    rfl

theorem delRecord_lists (hl : Lists h (xs ++ frp :: ys) spares) (hprev : Before xs prev) :
    Lists (delRecord h prev frp) (xs ++ ys) (frp :: spares) := by
  have hnodup := hl.nodup
  rw [List.append_assoc, List.cons_append, List.nodup_middle, ← List.append_assoc] at hnodup
  obtain ⟨hfrp, hrest⟩ := List.nodup_cons.mp hnodup
  rw [List.mem_append, not_or] at hfrp
  rw [delRecord_eq hl.free hprev]
  refine ⟨hl.free.unlink.congr fun y hy => ?_, ⟨rfl, ?_⟩, ?_⟩
  · exact update_of_ne (ne_of_mem_of_not_mem hy hfrp.1) _ _
  · dsimp only
    rw [update_self]
    refine hl.spare.congr fun y hy => ?_
    rw [update_of_ne (ne_of_mem_of_not_mem hy hfrp.2)]
    refine store_frame _ _ _ _ fun hmem => ?_
    exact (List.nodup_append.mp hrest).2.2 y (by simp [hmem]) y hy rfl
  · have hmoved : (xs ++ ys ++ frp :: spares).Perm (xs ++ frp :: ys ++ spares) :=
      List.perm_middle.trans (List.perm_middle.append_right spares).symm
    exact hmoved.trans hl.all

@[simp] theorem delRecord_block : (delRecord h prev frp).block = h.block := by
  unfold delRecord
  split <;> rfl

@[simp] theorem delRecord_arena : (delRecord h prev frp).arena = h.arena := by
  unfold delRecord
  split <;> rfl

def Describes (h : Heap) (blocks : List Block) : Prop :=
  ∃ frees spares, Lists h frees spares ∧ frees.map h.block = blocks

theorem absorb_lists (hl : Lists h (xs ++ frp :: nextFrp :: ys) spares) :
    Lists (absorb h frp nextFrp) (xs ++ frp :: ys) (nextFrp :: spares) := by
  rw [List.append_cons] at hl ⊢
  refine delRecord_lists (hl.congr rfl rfl rfl) ?_
  intro last hlast
  rw [List.getLast?_concat, Option.mem_some_iff] at hlast
  exact hlast.symm

theorem absorb_block :
    (absorb h frp nextFrp).block =
      update h.block frp (join (h.block frp) (h.block nextFrp)) := by
  rw [absorb, delRecord_block]
  funext r
  by_cases hr : r = frp
  · subst hr
    simp [Heap.block, join]
  · simp [Heap.block, hr]

@[simp] theorem absorb_arena : (absorb h frp nextFrp).arena = h.arena := delRecord_arena

theorem map_update_block (blocks : Frec → Block) {b : Block} (hnodup : (xs ++ frp :: ys).Nodup) :
    xs.map (update blocks frp b) = xs.map blocks ∧
      ys.map (update blocks frp b) = ys.map blocks := by
  rw [List.nodup_middle, List.nodup_cons, List.mem_append, not_or] at hnodup
  obtain ⟨⟨hxs, hys⟩, -⟩ := hnodup
  constructor
  · exact List.map_congr_left fun r hr =>
      update_of_ne (ne_of_mem_of_not_mem hr hxs) _ _
  · exact List.map_congr_left fun r hr =>
      update_of_ne (ne_of_mem_of_not_mem hr hys) _ _

theorem mergeNext_describes (hl : Lists h (xs ++ frp :: ys) spares) :
    Describes (mergeNext h frp) (xs.map h.block ++ mergeOnce (h.block frp :: ys.map h.block)) := by
  have hnext := hl.free.of_mem
  unfold mergeNext
  cases ys with
  | nil =>
    rw [hnext]
    exact ⟨_, _, hl, by simp [mergeOnce]⟩
  | cons nextFrp ys =>
    rw [hnext.1, List.map_cons, mergeOnce]
    by_cases hadj : h.fbp frp + h.size frp = h.fbp nextFrp
    · have hjoin := absorb_lists hl
      obtain ⟨hxs, hys⟩ := map_update_block h.block hjoin.free.nodup
      rw [if_pos (show (h.block frp).stop = (h.block nextFrp).base from hadj)]
      dsimp only
      rw [if_pos hadj]
      refine ⟨_, _, hjoin, ?_⟩
      rw [absorb_block, List.map_append, List.map_cons, update_self, hxs, hys]
    · rw [if_neg (show ¬(h.block frp).stop = (h.block nextFrp).base from hadj)]
      dsimp only
      rw [if_neg hadj]
      exact ⟨_, _, hl, by simp⟩

theorem mergeRecords_describes (hl : Lists h (xs ++ frp :: ys) spares) :
    Describes (mergeRecords h frp) (xs.map h.block ++ merge (h.block frp :: ys.map h.block)) := by
  have hnext := hl.free.of_mem
  unfold mergeRecords
  cases ys with
  | nil =>
    rw [hnext]
    exact ⟨_, _, hl, by simp [merge]⟩
  | cons nextFrp ys =>
    rw [hnext.1, List.map_cons, merge]
    by_cases hadj : h.fbp frp + h.size frp = h.fbp nextFrp
    · have hjoin := absorb_lists hl
      obtain ⟨hxs, hys⟩ := map_update_block h.block hjoin.free.nodup
      have hmerged := mergeNext_describes hjoin
      rw [absorb_block, update_self, hxs, hys] at hmerged
      rw [if_pos (show (h.block frp).stop = (h.block nextFrp).base from hadj)]
      dsimp only
      rw [if_pos hadj]
      exact hmerged
    · rw [List.append_cons] at hl
      have hmerged := mergeNext_describes hl
      rw [List.map_append, List.append_assoc] at hmerged
      rw [if_neg (show ¬(h.block frp).stop = (h.block nextFrp).base from hadj)]
      dsimp only
      rw [if_neg hadj]
      exact hmerged

theorem mergeNext_arena : (mergeNext h frp).arena = h.arena := by
  unfold mergeNext
  split
  · rfl
  · split <;> simp

theorem mergeRecords_arena : (mergeRecords h frp).arena = h.arena := by
  unfold mergeRecords
  split
  · rfl
  · split <;> simp [mergeNext_arena]

variable {head : Option Frec} {nodes : List Frec}

theorem findFit_spec (need : Nat) (prev : Frec) {fuel : Nat} (hnodes : Chain h.next head nodes)
    (hfuel : nodes.length < fuel) :
    (findFit h need fuel prev head = .ok none ∧ ∀ r ∈ nodes, h.size r < need) ∨
      ∃ xs frp ys, nodes = xs ++ frp :: ys ∧
        findFit h need fuel prev head = .ok (some (xs.getLast?.getD prev, frp)) ∧
        (∀ r ∈ xs, h.size r < need) ∧ need ≤ h.size frp := by
  induction nodes generalizing head prev fuel with
  | nil =>
    obtain ⟨fuel, rfl⟩ := Nat.exists_eq_add_one.mpr hfuel
    rw [chain_nil] at hnodes
    subst hnodes
    exact .inl ⟨rfl, nofun⟩
  | cons frp nodes ih =>
    obtain ⟨fuel, rfl⟩ := Nat.exists_eq_add_one.mpr (Nat.zero_lt_of_lt hfuel)
    obtain ⟨rfl, hnodes⟩ := hnodes
    by_cases hfits : need ≤ h.size frp
    · refine .inr ⟨[], frp, nodes, rfl, ?_, nofun, hfits⟩
      rw [findFit, if_pos hfits]
      rfl
    · have hsmall := Nat.lt_of_not_le hfits
      rw [findFit, if_neg hfits]
      rcases ih frp hnodes (Nat.lt_of_succ_lt_succ hfuel) with
        ⟨hnone, hsizes⟩ | ⟨xs, found, ys, rfl, hfound, hsizes, hfits⟩
      · exact .inl ⟨hnone, List.forall_mem_cons.mpr ⟨hsmall, hsizes⟩⟩
      · refine .inr ⟨frp :: xs, found, ys, rfl, ?_, List.forall_mem_cons.mpr ⟨hsmall, hsizes⟩, hfits⟩
        rw [hfound, List.getLast?_cons]
        rfl

theorem before_last (xs : List Frec) (prev : Frec) : Before xs (xs.getLast?.getD prev) := by
  intro last hlast
  rw [Option.mem_def.mp hlast]
  rfl

theorem reserved_eq (size : Nat) : reserved size = size + 7 := by
  rw [reserved, align, Nat.mul_div_cancel_left _ (by decide)]
  rfl

variable {size : Nat}

theorem allocate_block : (allocate h frp size).block = update h.block frp
      ⟨h.fbp frp + reserved size, h.size frp - reserved size⟩ := by
  funext r
  by_cases hr : r = frp
  · subst hr
    simp [Heap.block, allocate]
  · simp [Heap.block, allocate, hr]

theorem allocate_describes (hl : Lists h (xs ++ frp :: ys) spares) (hprev : Before xs prev)
    (hsizes : ∀ r ∈ xs, h.size r < reserved size) (hfits : reserved size ≤ h.size frp) :
    ∃ blocks, carve (reserved size) ((xs ++ frp :: ys).map h.block) = some (h.fbp frp, blocks) ∧
      Describes (if (allocate h frp size).size frp ≠ 0 then allocate h frp size
        else delRecord (allocate h frp size) prev frp) blocks := by
  have htaken : Lists (allocate h frp size) (xs ++ frp :: ys) spares := hl.congr rfl rfl rfl
  have hleft : (allocate h frp size).size frp = h.size frp - reserved size :=
    update_self _ _ _
  obtain ⟨hxs, hys⟩ := map_update_block h.block hl.free.nodup
  have hsmall : ∀ b ∈ xs.map h.block, b.size < reserved size :=
    List.forall_mem_map.mpr hsizes
  rw [List.map_append, List.map_cons, carve_append hsmall, carve,
    if_pos (show reserved size ≤ (h.block frp).size from hfits), Option.map_some]
  refine ⟨_, rfl, ?_⟩
  dsimp only
  by_cases hall : h.size frp = reserved size
  · have hzero : ¬(allocate h frp size).size frp ≠ 0 := by omega
    rw [if_neg hzero, if_pos (show (h.block frp).size = reserved size from hall)]
    refine ⟨_, _, delRecord_lists htaken hprev, ?_⟩
    rw [delRecord_block, allocate_block, List.map_append, hxs, hys]
  · have hsome : (allocate h frp size).size frp ≠ 0 := by omega
    rw [if_pos hsome, if_neg (show ¬(h.block frp).size = reserved size from hall)]
    refine ⟨_, _, htaken, ?_⟩
    rw [allocate_block, List.map_append, List.map_cons, update_self, hxs, hys]
    rfl

theorem malloc_spec (size : Nat) (hl : Lists h frees spares) :
    (malloc h size = .ok (none, h) ∧ carve (reserved (size + 8)) (frees.map h.block) = none) ∨
      ∃ base blocks h', malloc h size = .ok (some (base + 8), h') ∧
        carve (reserved (size + 8)) (frees.map h.block) = some (base, blocks) ∧
        Describes h' blocks ∧ h'.arena = setWord h.arena base (size + 8) := by
  cases frees with
  | nil =>
    have hhead : h.frhead = none := hl.free
    refine .inl ⟨?_, rfl⟩
    rw [malloc, hhead]
  | cons first rest =>
    have hlen : (first :: rest).length < maxblks + 1 :=
      Nat.lt_succ_of_le hl.free.length_le_fin
    have hhead : h.frhead = some first := hl.free.1
    have hwalk := hl.free
    rw [hhead] at hwalk
    rw [malloc, hhead]
    dsimp only
    rcases findFit_spec (reserved (size + 8)) first hwalk hlen with
      ⟨hnone, hsizes⟩ | ⟨xs, frp, ys, hnodes, hfound, hsizes, hfits⟩
    · refine .inl ⟨?_, carve_none ?_⟩
      · rw [hnone]
        rfl
      · exact List.forall_mem_map.mpr hsizes
    · right
      rw [hnodes] at hl ⊢
      obtain ⟨blocks, hcarve, hblocks⟩ :=
        allocate_describes hl (before_last xs first) hsizes hfits
      refine ⟨_, blocks, _, ?_, hcarve, hblocks, ?_⟩
      · rw [hfound]
        rfl
      · split
        · rfl
        · exact delRecord_arena

theorem lastBelow_spec (addr : Nat) (prev : Frec) {fuel : Nat} (hnodes : Chain h.next head nodes)
    (hfuel : nodes.length < fuel) :
    ∃ xs ys, nodes = xs ++ ys ∧ lastBelow h addr fuel prev head = .ok (xs.getLast?.getD prev) ∧
      (∀ r ∈ xs, h.fbp r < addr) ∧ ∀ r ∈ ys.head?, addr ≤ h.fbp r := by
  induction nodes generalizing head prev fuel with
  | nil =>
    obtain ⟨fuel, rfl⟩ := Nat.exists_eq_add_one.mpr hfuel
    rw [chain_nil] at hnodes
    subst hnodes
    exact ⟨[], [], rfl, rfl, nofun, nofun⟩
  | cons frp nodes ih =>
    obtain ⟨fuel, rfl⟩ := Nat.exists_eq_add_one.mpr (Nat.zero_lt_of_lt hfuel)
    obtain ⟨rfl, hnodes⟩ := hnodes
    rw [lastBelow]
    split
    · rename_i hbelow
      obtain ⟨xs, ys, rfl, hlast, hxs, hys⟩ := ih frp hnodes (Nat.lt_of_succ_lt_succ hfuel)
      refine ⟨frp :: xs, ys, rfl, ?_, List.forall_mem_cons.mpr ⟨hbelow, hxs⟩, hys⟩
      rw [hlast, List.getLast?_cons]
      rfl
    · rename_i habove
      refine ⟨[], frp :: nodes, rfl, rfl, nofun, fun r hr => ?_⟩
      rw [List.head?_cons, Option.mem_some_iff] at hr
      exact hr ▸ Nat.le_of_not_lt habove

variable {newFrp : Frec}

theorem insert_lists (hl : Lists h (xs ++ ys) (newFrp :: spares))
    (hlink : store (update h.next newFrp (follow h.next h.frhead (linkAfter none xs))) h.frhead (linkAfter none xs) (some newFrp) = (h'.frhead, h'.next))
    (hfrecs : h'.frecs = h.next newFrp) : Lists h' (xs ++ newFrp :: ys) spares := by
  have hnodup := hl.nodup
  rw [List.nodup_middle] at hnodup
  obtain ⟨hnew, hrest⟩ := List.nodup_cons.mp hnodup
  rw [List.mem_append, not_or] at hnew
  have hfree := hl.free.insert hnew.1
  dsimp only at hfree
  rw [hlink] at hfree
  refine ⟨hfree, ?_, ?_⟩
  · rw [hfrecs]
    refine hl.spare.2.congr fun r hr => ?_
    have hxs : r ∉ xs := fun hmem =>
      (List.nodup_append.mp hrest).2.2 r (by simp [hmem]) r hr rfl
    have hnext := congrArg Prod.snd hlink
    dsimp only at hnext
    rw [← hnext, store_frame _ _ _ _ hxs]
    exact update_of_ne (ne_of_mem_of_not_mem hr hnew.2) _ _
  · have hmoved : (xs ++ newFrp :: ys ++ spares).Perm (xs ++ ys ++ newFrp :: spares) :=
      (List.perm_middle.append_right spares).trans List.perm_middle.symm
    exact hmoved.trans hl.all

variable {addr : Nat}

theorem fillRecord_block : (fillRecord h newFrp addr size).block =
      update h.block newFrp ⟨addr, reserved size⟩ := by
  funext r
  by_cases hr : r = newFrp
  · subst hr
    simp [Heap.block, fillRecord]
  · simp [Heap.block, fillRecord, hr]

theorem fillRecord_map (hnew : newFrp ∉ xs) :
    xs.map (fillRecord h newFrp addr size).block = xs.map h.block := by
  rw [fillRecord_block]
  exact List.map_congr_left fun r hr => update_of_ne (ne_of_mem_of_not_mem hr hnew) _ _

theorem free_first (hl : Lists h frees (newFrp :: spares)) (hnew : newFrp ∉ frees)
    (habove : ∀ d ∈ (frees.map h.block).head?, addr ≤ d.base) :
    Describes (mergeRecords (linkFirst (fillRecord h newFrp addr size) newFrp) newFrp)
      (release ⟨addr, reserved size⟩ (frees.map h.block)) := by
  have hlink : Lists (linkFirst (fillRecord h newFrp addr size) newFrp) ([] ++ newFrp :: frees)
      spares := insert_lists hl rfl rfl
  have hmerged := mergeRecords_describes hlink
  rw [show (linkFirst (fillRecord h newFrp addr size) newFrp).block =
    (fillRecord h newFrp addr size).block from rfl, fillRecord_map hnew, fillRecord_block,
    update_self] at hmerged
  rw [release_first habove]
  exact hmerged

theorem free_after (hl : Lists h (xs ++ prev :: ys) (newFrp :: spares))
    (hnew : newFrp ∉ xs ++ prev :: ys) (hbelow : ∀ d ∈ (xs ++ [prev]).map h.block, d.base < addr)
    (habove : ∀ d ∈ (ys.map h.block).head?, addr ≤ d.base) :
    Describes (mergeRecords (linkBehind (fillRecord h newFrp addr size) prev newFrp) prev)
      (release ⟨addr, reserved size⟩ ((xs ++ prev :: ys).map h.block)) := by
  have hlink : Lists (linkBehind (fillRecord h newFrp addr size) prev newFrp)
      (xs ++ prev :: newFrp :: ys) spares := by
    rw [List.append_cons] at hl ⊢
    apply insert_lists hl _ rfl
    simp [linkAfter, store, follow, linkBehind, fillRecord]
  have hmerged := mergeRecords_describes hlink
  rw [List.mem_append, List.mem_cons, not_or, not_or] at hnew
  obtain ⟨hxs, hprev, hys⟩ := hnew
  rw [show (linkBehind (fillRecord h newFrp addr size) prev newFrp).block =
    (fillRecord h newFrp addr size).block from rfl, fillRecord_map hxs, List.map_cons,
    fillRecord_map hys, fillRecord_block, update_self,
    update_of_ne (Ne.symm hprev)] at hmerged
  rw [List.map_append, List.map_cons, release_after _ habove]
  · exact hmerged
  · rw [← List.map_singleton, ← List.map_append]
    exact hbelow

theorem free_spec (ptr : Nat) (hl : Lists h frees (newFrp :: spares)) : ∃ h', free h ptr = .ok h' ∧
      Describes h' (release ⟨ptr - 8, reserved (word h.arena (ptr - 8))⟩ (frees.map h.block)) ∧
      h'.arena = h.arena := by
  have hfrecs : h.frecs = some newFrp := hl.spare.1
  have hnew : newFrp ∉ frees := fun hmem =>
    (List.nodup_append.mp hl.nodup).2.2 newFrp hmem newFrp (by simp) rfl
  unfold free
  rw [hfrecs]
  dsimp only
  set filled := fillRecord h newFrp (ptr - 8) (word h.arena (ptr - 8))
  have hmap : ∀ nodes : List Frec, (∀ r ∈ nodes, r ∈ frees) →
      nodes.map filled.block = nodes.map h.block :=
    fun nodes hsub => fillRecord_map fun hmem => hnew (hsub newFrp hmem)
  cases frees with
  | nil =>
    rw [show filled.frhead = none from hl.free]
    exact ⟨_, rfl, free_first hl hnew nofun, mergeRecords_arena⟩
  | cons frp rest =>
    have hhead : filled.frhead = some frp := hl.free.1
    have hlen : (frp :: rest).length < maxblks + 1 :=
      Nat.lt_succ_of_le hl.free.length_le_fin
    rw [hhead]
    dsimp only
    split
    · rename_i hle
      refine ⟨_, rfl, free_first hl hnew ?_, mergeRecords_arena⟩
      rw [← hmap _ fun r hr => hr]
      intro d hd
      rw [List.map_cons, List.head?_cons, Option.mem_some_iff] at hd
      exact hd ▸ hle
    · rename_i hlt
      have hwalk : Chain filled.next (some frp) (frp :: rest) := ⟨rfl, hl.free.2⟩
      obtain ⟨xs, ys, hnodes, hlast, hbelow, habove⟩ := lastBelow_spec (ptr - 8) frp hwalk hlen
      -- The first block starts below the one that is freed, so there is a last such block.
      obtain ⟨front, prev, rfl⟩ : ∃ front prev, xs = front ++ [prev] := by
        rcases List.eq_nil_or_concat xs with rfl | ⟨front, prev, rfl⟩
        · rw [List.nil_append] at hnodes
          exact absurd (habove frp (hnodes ▸ rfl)) hlt
        · exact ⟨front, prev, List.concat_eq_append⟩
      rw [List.getLast?_concat, Option.getD_some] at hlast
      rw [hnodes, List.append_assoc, List.singleton_append] at hl hnew hmap ⊢
      rw [hlast]
      refine ⟨_, rfl, free_after hl hnew ?_ ?_, mergeRecords_arena⟩
      · rw [List.append_cons] at hmap
        rw [← hmap (front ++ [prev]) fun r => List.mem_append_left ys]
        exact List.forall_mem_map.mpr hbelow
      · rw [← hmap ys (by simp +contextual), List.head?_map]
        intro d hd
        obtain ⟨r, hr, rfl⟩ := Option.mem_map.mp hd
        exact habove r hr

end Quest.Libc
