import Quest.Proc.Exec

/-! What an ELF file asks for, and what the loader makes of it page by page. -/
namespace Quest.Proc

open Quest.Lib Memory

structure Phdr where
  type : Nat
  offset : Nat
  vaddr : Nat
  filesz : Nat
  memsz : Nat
  deriving DecidableEq, Repr

namespace File

def half (file : File) (a : Nat) : Nat := (file.bytes a).toNat + 2 ^ 8 * (file.bytes (a + 1)).toNat

def phoff (file : File) : Nat := word file.bytes 28

def phentsize (file : File) : Nat := file.half 42

def phnum (file : File) : Nat := file.half 44

def phdr (file : File) (a : Nat) : Phdr :=
  ⟨word file.bytes a, word file.bytes (a + 4), word file.bytes (a + 8), word file.bytes (a + 16),
    word file.bytes (a + 20)⟩

def phdrs (file : File) : List Phdr :=
  (List.range file.phnum).map fun i => file.phdr (file.phoff + i * file.phentsize)

def segments (file : File) : List Phdr := file.phdrs.filter fun p => p.type = ptLoad

end File

/-- A page has the contents of a page of the file, its first `rest` bytes, or zeros. -/
inductive Source where
  | file (k : Nat)
  | tail (k rest : Nat)
  | zero
  deriving DecidableEq, Repr

def Source.byte (file : File) : Source → Nat → UInt8
  | .file k, o => file.bytes (k * 4096 + o)
  | .tail k rest, o => if o < rest then file.bytes (k * 4096 + o) else 0
  | .zero, _ => 0

namespace Phdr

def fileCount (p : Phdr) : Nat := (pageCount p.offset p.filesz).toNat

def memCount (p : Phdr) : Nat := (pageCount p.offset p.memsz).toNat

def rest (p : Phdr) : Nat := (p.offset + p.filesz) % 4096

def fileSource (p : Phdr) (j : Nat) : Source :=
  if j + 1 = p.fileCount then .tail (p.offset / 4096 + j) p.rest else .file (j + p.offset / 4096)

def placements (p : Phdr) : List (Nat × Source) :=
  (List.range p.fileCount).map (fun j => (p.vaddr / 4096 + j, p.fileSource j)) ++
    (List.range' p.fileCount (p.memCount - p.fileCount)).map fun j => (p.vaddr / 4096 + j, .zero)

/-- No index of the loader leaves the page table, the frame page, the frame map or the file. -/
def Fits (size : Nat) (p : Phdr) : Prop :=
  (p.fileCount ≠ 0 → p.vaddr / 4096 + p.fileCount ≤ 1024 ∧
    (2 ≤ p.fileCount → p.offset / 4096 + (p.fileCount - 1) ≤ 1024) ∧
    (p.rest = 0 ∨ (p.offset / 4096 + (p.fileCount - 1)) * 4096 + p.rest ≤ size)) ∧
  (p.fileCount < p.memCount → p.vaddr / 4096 + p.memCount ≤ 1024)

instance (size : Nat) (p : Phdr) : Decidable (p.Fits size) := inferInstanceAs (Decidable (_ ∧ _))

end Phdr

def layout (placed : List (Nat × Source)) : Nat → Option Source :=
  placed.foldl (fun lay p => Function.update lay p.1 (some p.2)) fun _ => none

namespace File

def image (file : File) : List (Nat × Source) := file.segments.flatMap Phdr.placements

/-- The headers from address `pph` on keep every access in bounds, up to the first
misaligned one, at which the loader panics. -/
def HeadersFit (file : File) : Nat → Nat → Prop
  | 0, _ => True
  | rounds + 1, pph =>
      let p := file.phdr (pph - pe)
      InFile file.size pph 4 ∧
      (p.type = ptLoad → InFile file.size (pph + 4) 8 ∧
        (p.offset % 4096 = p.vaddr % 4096 → InFile file.size (pph + 16) 8 ∧ p.Fits file.size)) ∧
      (¬(p.type = ptLoad ∧ p.offset % 4096 ≠ p.vaddr % 4096) →
        file.HeadersFit rounds ((pph + file.phentsize) % 2 ^ 32))

instance decidableHeadersFit (file : File) :
    (rounds pph : Nat) → Decidable (file.HeadersFit rounds pph)
  | 0, _ => isTrue trivial
  | rounds + 1, pph =>
      have : Decidable (file.HeadersFit rounds ((pph + file.phentsize) % 2 ^ 32)) :=
        decidableHeadersFit file rounds _
      inferInstanceAs (Decidable (_ ∧ (_ → _ ∧ (_ → _ ∧ _)) ∧ (¬(_ ∧ _) → _)))

def Fits (file : File) : Prop :=
  file.size ≤ 2 ^ 22 ∧
  (file.read = file.dir → 46 ≤ file.size ∧
    file.HeadersFit file.phnum ((pe + file.phoff) % 2 ^ 32))

instance (file : File) : Decidable file.Fits := inferInstanceAs (Decidable (_ ∧ _))

end File

end Quest.Proc
