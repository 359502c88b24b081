import Quest.Mem.Virtual

/-! The `exec` system call: `_exec` of `kernel/interrupt_handler.c`.  Accesses through kernel
pages go to the frames that these show. -/
namespace Quest.Proc

open Quest.Lib Memory Quest.Mem Function

structure File where
  dir : Int
  read : Int
  bytes : Nat → UInt8

def File.size (file : File) : Nat := file.dir.toNat

def File.pages (file : File) : Nat := (file.size + 0xFFF) / 0x1000

def strncpyFrom (src : Nat → UInt8) : Nat → Nat → (Nat → UInt8) → Nat → UInt8
  | 0, i, dst => update dst (i - 1) 0
  | length + 1, i, dst =>
      if src i = 0 then update dst i 0
      else strncpyFrom src length (i + 1) (update dst i (src i))

def strncpy (dst src : Nat → UInt8) (length : Nat) : Nat → UInt8 := strncpyFrom src length 0 dst

def pe : Nat := 0xFF400000

def ptLoad : Nat := 1

/-! Accesses through windows of 1024 entries and to the file image. -/

def getEntry (m : Machine) (frame i : Nat) : Except Fault Nat :=
  if i < 1024 then .ok (entry m.mem frame i) else .error .outOfBounds

def setEntry (m : Machine) (frame i value : Nat) : Except Fault Machine :=
  if i < 1024 then .ok (m.writeWord (frame * 4096 + 4 * i) value) else .error .outOfBounds

def InFile (size va count : Nat) : Prop := pe ≤ va ∧ va + count ≤ pe + size

instance (size va count : Nat) : Decidable (InFile size va count) := inferInstanceAs (Decidable (_ ∧ _))

def fileWord (m : Machine) (size va : Nat) : Except Fault Nat :=
  if InFile size va 4 then m.load32 va else .error .outOfBounds

def load16 (m : Machine) (va : Nat) : Except Fault Nat := do
  let byte0 ← m.load8 va
  let byte1 ← m.load8 (va + 1)
  .ok (byte0.toNat + 2 ^ 8 * byte1.toNat)

def fileHalf (m : Machine) (size va : Nat) : Except Fault Nat :=
  if InFile size va 2 then load16 m va else .error .outOfBounds

def copyBytes (m : Machine) (frame va : Nat) : Nat → Except Fault Machine
  | 0 => .ok m
  | count + 1 => do
    let m ← copyBytes m frame va count
    let byte ← m.load8 (va + count)
    .ok (m.write (frame * 4096 + count) (fun _ => byte) 1)

def copyFile (m : Machine) (size frame va count : Nat) : Except Fault Machine :=
  if count = 0 ∨ InFile size va count then copyBytes m frame va count else .error .outOfBounds

def Freed (i j : Nat) : Prop := j < 0x200 ∨ j > 0x20F ∨ i ≠ 0

instance (i j : Nat) : Decidable (Freed i j) := inferInstanceAs (Decidable (_ ∨ _))

def dropPages (i table : Nat) : Nat → Nat → Machine → Machine
  | 0, _, m => m
  | rounds + 1, j, m =>
      let e := entry m.mem table j
      dropPages i table rounds (j + 1)
        (if e ≠ 0 ∧ Freed i j then (m.freePhysFrame e).writeWord (table * 4096 + 4 * j) 0 else m)

def dropTables : Nat → Nat → Machine → Machine
  | 0, _, m => m
  | rounds + 1, i, m =>
      let e := entry m.mem m.pdFrame i
      dropTables rounds (i + 1)
        (if e ≠ 0 then
          ((dropPages i (e / 4096) 1024 0 m).freePhysFrame e).writeWord (m.pdFrame * 4096 + 4 * i) 0
        else m)

def dropSpace (m : Machine) : Machine := dropTables 1019 0 m

def allocPages (framePtr : Nat) : Nat → Nat → Machine → Except Fault Machine
  | 0, _, m => .ok m
  | rounds + 1, i, m => do
    let (frame, m) ← m.allocPhysFrame
    let m ← setEntry m framePtr i (frame ||| 3)
    allocPages framePtr rounds (i + 1) m

structure Windows where
  table : Nat
  framePtr : Nat
  size : Nat

structure Loader where
  machine : Machine
  frameMap : Nat → Bool

/-- `((offset + size - 1) >> 12) - (offset >> 12) + 1` -/
def pageCount (offset size : Nat) : Int :=
  ((offset + size + (2 ^ 32 - 1)) % 2 ^ 32 / 4096 : Nat) - (offset / 4096 : Nat) + 1

def mapLastPage (w : Windows) (offset vaddr filesz j : Nat) (l : Loader) : Except Fault Loader := do
  let (frame, m) ← l.machine.allocPhysFrame
  let buf := (frame ||| 3) / 4096
  let rest := (offset + filesz) % 4096
  let m ← copyFile m w.size buf ((pe + offset / 4096 * 4096 + j <<< 12) % 2 ^ 32) rest
  let m := m.write (buf * 4096 + rest) (fun _ => 0) (0x1000 - rest)
  let m ← setEntry m w.table (vaddr / 4096 + j) (frame ||| 7)
  .ok { l with machine := m }

def mapFilePage (w : Windows) (offset vaddr j : Nat) (l : Loader) : Except Fault Loader := do
  let k := j + offset / 4096
  let e ← getEntry l.machine w.framePtr k
  let m ← setEntry l.machine w.table (vaddr / 4096 + j) (e ||| 7)
  .ok ⟨m, update l.frameMap k true⟩

def mapPage (w : Windows) (offset vaddr filesz c j : Nat) (l : Loader) : Except Fault Loader :=
  if j + 1 = c then mapLastPage w offset vaddr filesz j l else mapFilePage w offset vaddr j l

def mapPages (w : Windows) (offset vaddr filesz c : Nat) :
    Nat → Nat → Loader → Except Fault Loader
  | 0, _, l => .ok l
  | rounds + 1, j, l => do
    let l ← mapPage w offset vaddr filesz c j l
    mapPages w offset vaddr filesz c rounds (j + 1) l

def mapZeroPage (w : Windows) (vaddr j : Nat) (l : Loader) : Except Fault Loader := do
  let (frame, m) ← l.machine.allocPhysFrame
  let m ← setEntry m w.table (vaddr / 4096 + j) (frame ||| 7)
  .ok { l with machine := m.writePage ((frame ||| 3) / 4096) fun _ => 0 }

def mapZeroPages (w : Windows) (vaddr : Nat) : Nat → Nat → Loader → Except Fault Loader
  | 0, _, l => .ok l
  | rounds + 1, j, l => do
    let l ← mapZeroPage w vaddr j l
    mapZeroPages w vaddr rounds (j + 1) l

/-- The program header at `pph`, of type `PT_LOAD`. -/
def loadSegment (w : Windows) (pph : Nat) (l : Loader) : Except Fault Loader := do
  let offset ← fileWord l.machine w.size (pph + 4)
  let vaddr ← fileWord l.machine w.size (pph + 8)
  if offset % 4096 ≠ vaddr % 4096 then
    .error (.panic "Misalignment in program header")
  else do
    let filesz ← fileWord l.machine w.size (pph + 16)
    let c := (pageCount offset filesz).toNat
    let l ← mapPages w offset vaddr filesz c c 0 l
    let memsz ← fileWord l.machine w.size (pph + 20)
    mapZeroPages w vaddr ((pageCount offset memsz).toNat - c) c l

def loadHeader (w : Windows) (pph : Nat) (l : Loader) : Except Fault Loader := do
  let type ← fileWord l.machine w.size pph
  if type = ptLoad then loadSegment w pph l else .ok l

def walk (w : Windows) : Nat → Nat → Loader → Except Fault Loader
  | 0, _, l => .ok l
  | rounds + 1, pph, l => do
    let l ← loadHeader w pph l
    let phentsize ← fileHalf l.machine w.size (pe + 42)
    walk w rounds ((pph + phentsize) % 2 ^ 32) l

def freeUnused (w : Windows) (frameMap : Nat → Bool) : Nat → Nat → Machine → Except Fault Machine
  | 0, _, m => .ok m
  | rounds + 1, i, m => do
    let e ← getEntry m w.framePtr i
    freeUnused w frameMap rounds (i + 1) (if frameMap i then m else m.freePhysFrame e)

def mapVideo (table : Nat) : Nat → Nat → Machine → Machine
  | 0, _, m => m
  | rounds + 1, i, m =>
      mapVideo table rounds (i + 1)
        (m.writeWord (table * 4096 + 4 * (0x200 + i)) (0xA0000 ||| i <<< 12 ||| 7))

def mapStack (table : Nat) : Nat → Nat → Machine → Except Fault Machine
  | 0, _, m => .ok m
  | rounds + 1, i, m => do
    let (frame, m) ← m.allocPhysFrame
    mapStack table rounds (i + 1) (m.writeWord (table * 4096 + 4 * (1023 - i)) (frame ||| 7))

def pushArguments (m : Machine) (args : Nat → UInt8) : Except Fault Machine := do
  let m ← m.storeBytes (0x400000 - 80) args 80
  let m ← m.store32 (0x400000 - 84) 0
  let m ← m.store32 (0x400000 - 88) (0x400000 - 80)
  let m ← m.store32 (0x400000 - 92) (0x400000 - 88)
  let m ← m.store32 (0x400000 - 96) 1
  m.store32 (0x400000 - 100) 0

/-- What `_exec` returns, the machine, and the words it writes to `curr_stack`. -/
structure Outcome where
  ret : Int
  machine : Machine
  currStack : List Nat

/-- `_exec` up to the call of `vfs_read`.  `physAddr` is the entry of the page `frame_ptr`. -/
def prepare (m : Machine) (file : File) (physAddr : Nat) : Except Fault (Windows × Machine) := do
  let m := dropSpace m
  let (frame, m) ← m.allocPhysFrame
  let m := m.writeWord (m.pdFrame * 4096) (frame ||| 7)
  let w : Windows := ⟨(frame ||| 7) / 4096, physAddr / 4096, file.size⟩
  let m := m.writePage w.table fun _ => 0
  let m ← allocPages w.framePtr file.pages 0 m
  .ok (w, m.writeWord (m.pdFrame * 4096 + 4 * (pe / 2 ^ 22)) physAddr)

def readImage (m : Machine) (file : File) (physAddr : Nat) : Except Fault (Windows × Machine) := do
  let (w, m) ← prepare m file physAddr
  let m ← m.storeBytes pe file.bytes file.read.toNat
  if file.read ≠ file.dir then .error (.panic "File size mismatch on read") else .ok (w, m)

def loadImage (w : Windows) (m : Machine) : Except Fault (Nat × Loader) := do
  let phoff ← fileWord m w.size (pe + 28)
  let entryPoint ← fileWord m w.size (pe + 24)
  -- the loop reads `e_phnum` again in every round; the image does not change meanwhile
  let phnum ← fileHalf m w.size (pe + 44)
  let l ← walk w phnum ((pe + phoff) % 2 ^ 32) ⟨m, fun _ => false⟩
  .ok (entryPoint, l)

def finish (w : Windows) (file : File) (physAddr : Nat) (args : Nat → UInt8) (l : Loader) :
    Except Fault Machine := do
  let m ← freeUnused w l.frameMap file.pages 0 l.machine
  let m := mapVideo w.table 16 0 m
  let m ← mapStack w.table 16 0 m
  let m ← m.memset 0x3F0000 0 0x10000
  let m := (m.writeWord (m.pdFrame * 4096 + 4 * 1021) 0).freePhysFrame physAddr
  pushArguments m args

def replaceSpace (m : Machine) (file : File) (physAddr : Nat) (args : Nat → UInt8) :
    Except Fault Outcome := do
  let (w, m) ← readImage m file physAddr
  let (entryPoint, l) ← loadImage w m
  let m ← finish w file physAddr args l
  .ok ⟨0, m, [0x00230023, 0x00230023, entryPoint, 0x1B, 0x3202, 0x400000 - 100, 0x23]⟩

/-- `argv` is `none` for NULL or an empty vector; `stale` is what the stack holds where
`command_args` lies. -/
def exec (m : Machine) (file : File) (argv : Option (Nat → UInt8)) (stale : Nat → UInt8) :
    Except Fault Outcome := do
  let (frame, m) ← m.allocPhysFrame
  let physAddr := frame ||| 3
  match argv with
  | none => .ok ⟨-1, m.freePhysFrame physAddr, []⟩
  | some arg =>
    let commandArgs := strncpy stale arg 80
    if file.dir < 0 then .ok ⟨-1, m.freePhysFrame physAddr, []⟩
    else replaceSpace m file physAddr commandArgs

end Quest.Proc
