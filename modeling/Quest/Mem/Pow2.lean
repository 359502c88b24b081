import Quest.Basic
import Quest.Lib.Memory

/-! The power-of-two allocator, `kernel/mem/pow2.c`.  It may touch the pages that it was given. -/
namespace Quest.Mem.Pow2

open Quest.Lib Memory

def minPow : Nat := 5

def maxPow : Nat := 16

def minSize : Nat := 2 ^ minPow

def maxSize : Nat := 2 ^ maxPow

def tableLen : Nat := maxPow - minPow + 1

def maxPowFrames : Nat := 2 ^ (maxPow - 12)

def maskPow : Nat := 2 ^ minPow - 1

def maxCount : Nat := (0x1000 - 8) / 4

/-- What `map_virtual_page (alloc_phys_frame () | 3)` and its like return.  Without a frame the
mapper maps the frame `-1`, and shows no page of the allocator. -/
structure Grant where
  va : Nat
  fresh : Bool

/-- The suppliers' answers during a call: a page for a header, a region, the pages for a longer
used table, and whether `get_phys_addr` finds two kernel pages. -/
structure Supply where
  page : Grant
  region : Grant
  used : Grant
  window : Bool

/-- The allocator's variables and memory, with the pages it was given.  `regions` is not in the
code. -/
structure State where
  mem : Nat → UInt8
  pages : List Nat
  table : Nat → Nat
  usedTable : Nat
  usedCount : Nat
  usedTablePages : Nat
  regions : List Nat

namespace State

def pagesAt (va count : Nat) : List Nat := List.range' (va / 4096) count

def Mapped (s : State) (va count : Nat) : Prop :=
  count = 0 ∨ ∀ p ∈ pagesAt va ((va + count - 1) / 4096 - va / 4096 + 1), p ∈ s.pages

instance (s : State) (va count : Nat) : Decidable (s.Mapped va count) :=
  inferInstanceAs (Decidable (_ ∨ _))

def load32 (s : State) (va : Nat) : Except Fault Nat :=
  if s.Mapped va 4 then .ok (word s.mem va) else .error .outOfBounds

def store (s : State) (va : Nat) (bytes : Nat → UInt8) (count : Nat) : Except Fault State :=
  if s.Mapped va count then .ok { s with mem := blit s.mem va bytes count } else .error .outOfBounds

def store32 (s : State) (va value : Nat) : Except Fault State := s.store va (wordByte value) 4

def memset (s : State) (va : Nat) (byte : UInt8) (count : Nat) : Except Fault State :=
  s.store va (fun _ => byte) count

def memcpy (s : State) (dst src count : Nat) : Except Fault State :=
  if s.Mapped src count then s.store dst (fun j => s.mem (src + j)) count else .error .outOfBounds

def acquire (s : State) (grant : Grant) (count : Nat) : State :=
  if grant.fresh then { s with pages := s.pages ++ pagesAt grant.va count } else s

def release (s : State) (va count : Nat) : State :=
  { s with pages := s.pages.filter (· ∉ pagesAt va count) }

def getPhysAddr (supply : Supply) : Except Fault Unit :=
  if supply.window then .ok () else .error .nullDereference

def addToHeader (supply : Supply) (ptr : Nat) : Nat → Nat → State → Except Fault State
  | 0, _, _ => .error .diverges
  | fuel + 1, hdr, s => do
    let count ← s.load32 (hdr + 4)
    if count < maxCount then do
      let s ← s.store32 (hdr + 8 + 4 * count) ptr
      s.store32 (hdr + 4) (count + 1)
    else do
      let next ← s.load32 hdr
      if next ≠ 0 then
        addToHeader supply ptr fuel next s
      else do
        let s ← (s.acquire supply.page 1).store32 hdr supply.page.va
        let s ← s.memset supply.page.va 0 0x1000
        addToHeader supply ptr fuel supply.page.va s

def addFreeBlock (s : State) (supply : Supply) (ptr index : Nat) : Except Fault State :=
  if index < minPow ∨ maxPow < index then .error .outOfBounds
  else addToHeader supply ptr (s.pages.length + 2) (s.table (index - minPow)) s

/-- The loop of `pow2_get_free_block`: the header in front, the header that the code
stops at, and its count. -/
def findHeader (s : State) : Nat → Nat → Nat → Except Fault (Nat × Nat × Nat)
  | 0, _, _ => .error .diverges
  | fuel + 1, prev, hdr => do
    let count ← s.load32 (hdr + 4)
    if count = 0 then
      .ok (prev, hdr, 0)
    else do
      let next ← s.load32 hdr
      if count < maxCount ∨ next = 0 then
        .ok (prev, hdr, count)
      else
        s.findHeader fuel hdr next

def takeBlock (s : State) (supply : Supply) (prev hdr count : Nat) : Except Fault (Nat × State) := do
  let s ← s.store32 (hdr + 4) (count - 1)
  let ptr ← s.load32 (hdr + 8 + 4 * (count - 1))
  if prev ≠ 0 ∧ count - 1 = 0 then do
    getPhysAddr supply
    let s ← s.store32 prev 0
    .ok (ptr, s.release hdr 1)
  else
    .ok (ptr, s)

def getFreeBlock (supply : Supply) : Nat → State → Except Fault (Nat × State)
  | 0, s => do
    let (prev, hdr, count) ← s.findHeader (s.pages.length + 1) 0 (s.table (maxPow - minPow))
    if count = 0 then
      .ok (supply.region.va,
        { s.acquire supply.region maxPowFrames with regions := supply.region.va :: s.regions })
    else
      s.takeBlock supply prev hdr count
  | d + 1, s => do
    let index := maxPow - (d + 1)
    let (prev, hdr, count) ← s.findHeader (s.pages.length + 1) 0 (s.table (index - minPow))
    if count = 0 then do
      let (ptr1, s) ← getFreeBlock supply d s
      let s ← s.addFreeBlock supply ptr1 index
      .ok (ptr1 + 2 ^ index, s)
    else
      s.takeBlock supply prev hdr count

def growUsedTable (s : State) (supply : Supply) : Except Fault State := do
  let count := s.usedTablePages + 1
  let s ← (s.acquire supply.used count).memcpy supply.used.va s.usedTable (4 * s.usedCount)
  getPhysAddr supply
  .ok { s.release s.usedTable s.usedTablePages with
    usedTable := supply.used.va
    usedTablePages := count }

def ensureUsedTable (s : State) (supply : Supply) : Except Fault State :=
  if s.usedTablePages * 0x400 ≤ s.usedCount then s.growUsedTable supply else .ok s

def insertUsedTable (s : State) (supply : Supply) (ptr index : Nat) : Except Fault State := do
  let s ← s.ensureUsedTable supply
  let s ← s.store32 (s.usedTable + 4 * s.usedCount) (ptr ||| index)
  .ok { s with usedCount := s.usedCount + 1 }

def removeFrom (s : State) (ptr : Nat) : Nat → Nat → Except Fault (Option Nat × State)
  | 0, _ => .ok (none, s)
  | rounds + 1, i => do
    let e ← s.load32 (s.usedTable + 4 * i)
    if ptr = e - e % 2 ^ minPow then do
      let last ← s.load32 (s.usedTable + 4 * (s.usedCount - 1))
      let s ← s.store32 (s.usedTable + 4 * i) last
      let s ← s.store32 (s.usedTable + 4 * (s.usedCount - 1)) 0
      .ok (some (e &&& maskPow), { s with usedCount := s.usedCount - 1 })
    else
      s.removeFrom ptr rounds (i + 1)

def removeUsedTable (s : State) (ptr : Nat) : Except Fault (Option Nat × State) :=
  s.removeFrom ptr s.usedCount 0

end State

def computeIndex (size : Nat) : Nat :=
  if size ≤ minSize then minPow else if maxSize ≤ size then maxPow else Nat.log2 (size - 1) + 1

open State

def alloc (s : State) (supply : Supply) (size : Nat) : Except Fault ((Nat × Nat) × State) := do
  let index := computeIndex size
  let (ptr, s) ← getFreeBlock supply (maxPow - index) s
  let s ← s.insertUsedTable supply ptr index
  let s ← s.memset ptr 0 size
  .ok ((index, ptr), s)

def free (s : State) (supply : Supply) (ptr : Nat) : Except Fault State := do
  let (index, s) ← s.removeUsedTable ptr
  match index with
  | some index => s.addFreeBlock supply ptr index
  | none => .ok s

def initHeaders (headers : Nat → Grant) : Nat → Nat → State → Except Fault State
  | 0, _, s => .ok s
  | rounds + 1, i, s => do
    let s := s.acquire (headers i) 1
    let s ← { s with table := Function.update s.table i (headers i).va }.memset (headers i).va 0 0x1000
    initHeaders headers rounds (i + 1) s

def init (mem : Nat → UInt8) (headers : Nat → Grant) (used : Grant) : Except Fault State := do
  let s ← initHeaders headers tableLen 0 ⟨mem, [], fun _ => 0, 0, 0, 0, []⟩
  let s ← (s.acquire used 1).memset used.va 0 0x1000
  .ok { s with usedTable := used.va, usedCount := 0, usedTablePages := 1 }

end Quest.Mem.Pow2
