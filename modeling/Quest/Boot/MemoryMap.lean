import Quest.Proc.Image

/-! The bitmap of physical frames as `init` sets it up from the multiboot information:
`boot/init.c`. -/
namespace Quest.Boot

open Quest.Lib Bitmap Reach Mem Proc

structure Region where
  baseAddrLow : Nat
  baseAddrHigh : Nat
  lengthLow : Nat
  lengthHigh : Nat
  type : Nat
  deriving DecidableEq, Repr

/-- `multiboot_module`: where the image is, and its program headers. -/
structure BootModule where
  pe : Nat
  headers : List Phdr
  deriving DecidableEq, Repr

/-- What `init` reads: the memory map, the modules, the address of the multiboot structure, the
pages of the kernel and the bootstrap code, and the page that `map_virtual_page` finds free. -/
structure Info where
  mmap : List Region
  mods : List BootModule
  pmb : Nat
  kernelPages : Nat
  window : Nat
  pmb_lt : pmb < 2 ^ 32

def Region.base (r : Region) : Nat := 2 ^ 32 * r.baseAddrHigh + r.baseAddrLow

def Region.length (r : Region) : Nat := 2 ^ 32 * r.lengthHigh + r.lengthLow

def Region.Available (r : Region) : Prop := r.type = 1 ∧ r.baseAddrHigh = 0

instance (r : Region) : Decidable r.Available := inferInstanceAs (Decidable (_ ∧ _))

def Region.first (r : Region) : Nat := r.baseAddrLow >>> 12

def Region.count (r : Region) : Nat := r.lengthLow >>> 12

def Region.raise (limit : Nat) (r : Region) : Nat :=
  if r.Available then max limit (r.first + r.count) else limit

def markRegion (f : Frames) (r : Region) : Except Fault Frames :=
  if r.Available then
    if h : r.first + r.count ≤ 32 * physIndexMax then
      .ok ⟨setRange f.mmTable r.first r.count, max f.mmLimit (r.first + r.count),
        Nat.max_le.mpr ⟨f.mmLimit_le, h⟩⟩
    else .error .outOfBounds
  else .ok f

def clearFrames (f : Frames) (i count : Nat) : Except Fault Frames :=
  if count = 0 ∨ i + count ≤ 32 * physIndexMax then .ok (f.clr i count) else .error .outOfBounds

def clearedFirst (window : Nat) (pph : Phdr) : Nat :=
  ((Machine.pageAddress window + pph.offset) % 2 ^ 32) >>> 12

def clearedCount (pph : Phdr) : Nat := ((pph.filesz + 0xFFF) % 2 ^ 32) >>> 12

def clearSegment (window : Nat) (f : Frames) (pph : Phdr) : Except Fault Frames :=
  if pph.type = ptLoad then clearFrames f (clearedFirst window pph) (clearedCount pph) else .ok f

def clearModule (window : Nat) (f : Frames) (mod : BootModule) : Except Fault Frames :=
  mod.headers.foldlM (clearSegment window) f

def initFrames (b : Info) : Except Fault Frames := do
  let f ← b.mmap.foldlM markRegion ⟨fun _ => 0, 0, Nat.zero_le _⟩
  let f ← clearFrames f 256 b.kernelPages
  let f ← b.mods.foldlM (clearModule b.window) f
  let f ← clearFrames f 0 256
  clearFrames f (b.pmb >>> 12) 1

namespace Info

variable (b : Info) (k : Nat)

def InRam : Prop :=
  ∃ r ∈ b.mmap, r.type = 1 ∧ r.base ≤ 4096 * k ∧ 4096 * (k + 1) ≤ r.base + r.length

def InKernel : Prop := 256 ≤ k ∧ k < 256 + b.kernelPages

def InMultiboot : Prop := b.pmb < 4096 * (k + 1) ∧ 4096 * k < b.pmb + 68

def InModule : Prop :=
  ∃ mod ∈ b.mods, ∃ pph ∈ mod.headers, pph.type = ptLoad ∧
    mod.pe + pph.offset < 4096 * (k + 1) ∧ 4096 * k < mod.pe + pph.offset + pph.filesz

def Usable : Prop :=
  b.InRam k ∧ 256 ≤ k ∧ ¬b.InKernel k ∧ ¬b.InMultiboot k ∧ ¬b.InModule k

def Marked : Prop := ∃ r ∈ b.mmap, r.Available ∧ r.first ≤ k ∧ k < r.first + r.count

def Cleared : Prop :=
  ∃ mod ∈ b.mods, ∃ pph ∈ mod.headers, pph.type = ptLoad ∧
    clearedFirst b.window pph ≤ k ∧ k < clearedFirst b.window pph + clearedCount pph

def InTable : Prop :=
  (∀ r ∈ b.mmap, r.Available → r.first + r.count ≤ 32 * physIndexMax) ∧
  256 + b.kernelPages ≤ 32 * physIndexMax ∧
  ∀ mod ∈ b.mods, ∀ pph ∈ mod.headers, pph.type = ptLoad →
    clearedCount pph = 0 ∨
      clearedFirst b.window pph + clearedCount pph ≤ 32 * physIndexMax

def limit : Nat := b.mmap.foldl Region.raise 0

end Info

structure Clears (f : Frames) (r : Except Fault Frames) (fits : Prop) (covers : Nat → Prop) :
    Prop where
  fails : ¬fits → ∃ fault, r = .error fault
  works : fits → ∃ f', r = .ok f' ∧ f'.mmLimit = f.mmLimit ∧
    ∀ k, f'.Free k ↔ f.Free k ∧ ¬covers k

theorem clearFrames_clears (f : Frames) (i count : Nat) :
    Clears f (clearFrames f i count) (count = 0 ∨ i + count ≤ 32 * physIndexMax)
      fun k => i ≤ k ∧ k < i + count where
  fails h := ⟨_, if_neg h⟩
  works h := ⟨_, if_pos h, rfl, fun _ => Frames.free_clr⟩

variable {f : Frames} {r : Except Fault Frames} {covers covers' : Nat → Prop}

theorem Clears.bind {fits fits' : Prop} {next : Frames → Except Fault Frames}
    (h : Clears f r fits covers) (hnext : ∀ f', Clears f' (next f') fits' covers') :
    Clears f (r >>= next) (fits ∧ fits') fun k => covers k ∨ covers' k := by
  constructor
  · intro hfits
    by_cases hfirst : fits
    · obtain ⟨f', hok, -, -⟩ := h.works hfirst
      rw [hok, ok_bind]
      exact (hnext f').fails fun hsecond => hfits ⟨hfirst, hsecond⟩
    · obtain ⟨fault, hfault⟩ := h.fails hfirst
      rw [hfault]
      exact ⟨fault, rfl⟩
  · rintro ⟨hfirst, hsecond⟩
    obtain ⟨f', hok, hlimit, hfree⟩ := h.works hfirst
    obtain ⟨f'', hok', hlimit', hfree'⟩ := (hnext f').works hsecond
    rw [hok, ok_bind]
    refine ⟨f'', hok', hlimit'.trans hlimit, fun k => ?_⟩
    rw [hfree', hfree, not_or, and_assoc]

theorem Clears.congr {fits fits' : Prop} (h : Clears f r fits covers) (hfits : fits ↔ fits')
    (hcovers : ∀ k, covers k ↔ covers' k) : Clears f r fits' covers' := by
  obtain rfl : fits = fits' := propext hfits
  obtain rfl : covers = covers' := funext fun k => propext (hcovers k)
  exact h

theorem foldlM_clears {α : Type} {body : Frames → α → Except Fault Frames} {fits : α → Prop}
    {covers : α → Nat → Prop} (hbody : ∀ f x, Clears f (body f x) (fits x) (covers x)) (f : Frames)
    (xs : List α) :
    Clears f (xs.foldlM body f) (∀ x ∈ xs, fits x) fun k => ∃ x ∈ xs, covers x k := by
  induction xs generalizing f with
  | nil => exact ⟨fun h => absurd nofun h, fun _ => ⟨f, rfl, rfl, by simp⟩⟩
  | cons x xs ih =>
    apply ((hbody f x).bind ih).congr
    · exact List.forall_mem_cons.symm
    · intro k
      rw [List.exists_mem_cons_iff]

theorem clearSegment_clears (window : Nat) (f : Frames) (pph : Phdr) :
    Clears f (clearSegment window f pph)
      (pph.type = ptLoad → clearedCount pph = 0 ∨
        clearedFirst window pph + clearedCount pph ≤ 32 * physIndexMax)
      fun k => pph.type = ptLoad ∧ clearedFirst window pph ≤ k ∧
        k < clearedFirst window pph + clearedCount pph := by
  rw [clearSegment]
  by_cases hload : pph.type = ptLoad
  · rw [if_pos hload]
    apply (clearFrames_clears f _ _).congr
    · rw [forall_prop_of_true hload]
    · intro k
      rw [and_iff_right hload]
  · rw [if_neg hload]
    exact ⟨fun h => absurd (fun hload' => absurd hload' hload) h,
      fun _ => ⟨f, rfl, rfl, fun k => by simp [hload]⟩⟩

theorem reserve_clears (b : Info) (f : Frames) :
    Clears f (do
      let f ← clearFrames f 256 b.kernelPages
      let f ← b.mods.foldlM (clearModule b.window) f
      let f ← clearFrames f 0 256
      clearFrames f (b.pmb >>> 12) 1)
      (256 + b.kernelPages ≤ 32 * physIndexMax ∧ ∀ mod ∈ b.mods, ∀ pph ∈ mod.headers,
        pph.type = ptLoad → clearedCount pph = 0 ∨
          clearedFirst b.window pph + clearedCount pph ≤ 32 * physIndexMax)
      fun k => b.InKernel k ∨ b.Cleared k ∨ k < 256 ∨ k = b.pmb >>> 12 := by
  have hpmb : b.pmb >>> 12 + 1 ≤ 32 * physIndexMax := by
    have := b.pmb_lt
    rw [tableBits_eq, Nat.shiftRight_eq_div_pow]
    omega
  have hmods := foldlM_clears fun f (mod : BootModule) =>
    foldlM_clears (clearSegment_clears b.window) f mod.headers
  have hlast : ∀ f, Clears f (clearFrames f 0 256 >>= fun f => clearFrames f (b.pmb >>> 12) 1) _ _ :=
    fun f => (clearFrames_clears f 0 256).bind fun f => clearFrames_clears f (b.pmb >>> 12) 1
  apply ((clearFrames_clears f 256 b.kernelPages).bind fun f => (hmods f b.mods).bind hlast).congr
  · rw [tableBits_eq] at *
    constructor
    · rintro ⟨hkern, hfits, -⟩
      exact ⟨by omega, hfits⟩
    · rintro ⟨hkern, hfits⟩
      exact ⟨.inr hkern, hfits, .inr (by norm_num), .inr hpmb⟩
  · intro k
    apply or_congr_right
    apply or_congr_right
    omega

theorem markRegion_fails {r : Region} (f : Frames) (havail : r.Available)
    (h : ¬r.first + r.count ≤ 32 * physIndexMax) : markRegion f r = .error .outOfBounds := by
  rw [markRegion, if_pos havail, dif_neg h]

theorem markRegion_works {r : Region} (f : Frames)
    (h : r.Available → r.first + r.count ≤ 32 * physIndexMax) :
    ∃ f', markRegion f r = .ok f' ∧ f'.mmLimit = r.raise f.mmLimit ∧
      ∀ k, f'.Free k ↔ f.Free k ∨ (r.Available ∧ r.first ≤ k ∧ k < r.first + r.count) := by
  rw [markRegion, Region.raise]
  by_cases havail : r.Available
  · rw [if_pos havail, if_pos havail, dif_pos (h havail)]
    refine ⟨_, rfl, rfl, fun k => ?_⟩
    rw [and_iff_right havail, or_comm]
    exact test_setRange
  · rw [if_neg havail, if_neg havail]
    exact ⟨f, rfl, rfl, fun k => by simp [havail]⟩

variable {regions : List Region}

theorem markRegions_fails (f : Frames)
    (h : ¬∀ r ∈ regions, r.Available → r.first + r.count ≤ 32 * physIndexMax) :
    ∃ fault, regions.foldlM markRegion f = .error fault := by
  induction regions generalizing f with
  | nil => exact absurd nofun h
  | cons r regions ih =>
    rw [List.forall_mem_cons, not_and_or] at h
    rw [List.foldlM_cons]
    by_cases hfits : r.Available → r.first + r.count ≤ 32 * physIndexMax
    · obtain ⟨f', hok, -, -⟩ := markRegion_works f hfits
      rw [hok, ok_bind]
      exact ih f' (h.resolve_left (not_not_intro hfits))
    · obtain ⟨havail, hlong⟩ := Classical.not_imp.mp hfits
      rw [markRegion_fails f havail hlong]
      exact ⟨_, rfl⟩

theorem markRegions_works (f : Frames)
    (h : ∀ r ∈ regions, r.Available → r.first + r.count ≤ 32 * physIndexMax) :
    ∃ f', regions.foldlM markRegion f = .ok f' ∧
      f'.mmLimit = regions.foldl Region.raise f.mmLimit ∧
      ∀ k, f'.Free k ↔ f.Free k ∨
        ∃ r ∈ regions, r.Available ∧ r.first ≤ k ∧ k < r.first + r.count := by
  induction regions generalizing f with
  | nil => exact ⟨f, rfl, rfl, by simp⟩
  | cons r regions ih =>
    obtain ⟨hfits, hrest⟩ := List.forall_mem_cons.mp h
    obtain ⟨f', hok, hlimit, hfree⟩ := markRegion_works f hfits
    obtain ⟨f'', hok', hlimit', hfree'⟩ := ih f' hrest
    rw [List.foldlM_cons, hok, ok_bind, List.foldl_cons, ← hlimit]
    refine ⟨f'', hok', hlimit', fun k => ?_⟩
    rw [hfree', hfree, List.exists_mem_cons_iff, or_assoc]

theorem initFrames_fails {b : Info} (h : ¬b.InTable) : ∃ fault, initFrames b = .error fault := by
  rw [Info.InTable, not_and_or] at h
  rw [initFrames]
  by_cases hmmap : ∀ r ∈ b.mmap, r.Available → r.first + r.count ≤ 32 * physIndexMax
  · obtain ⟨f, hok, -, -⟩ := markRegions_works ⟨fun _ => 0, 0, Nat.zero_le _⟩ hmmap
    rw [hok, ok_bind]
    exact (reserve_clears b f).fails (h.resolve_left (not_not_intro hmmap))
  · obtain ⟨fault, hfault⟩ := markRegions_fails ⟨fun _ => 0, 0, Nat.zero_le _⟩ hmmap
    rw [hfault]
    exact ⟨fault, rfl⟩

theorem initFrames_works {b : Info} (h : b.InTable) :
    ∃ f, initFrames b = .ok f ∧ f.mmLimit = b.limit ∧ ∀ k, f.Free k ↔
      b.Marked k ∧ ¬(b.InKernel k ∨ b.Cleared k ∨ k < 256 ∨ k = b.pmb >>> 12) := by
  obtain ⟨hmmap, hreserve⟩ := h
  obtain ⟨f, hok, hlimit, hfree⟩ := markRegions_works ⟨fun _ => 0, 0, Nat.zero_le _⟩ hmmap
  obtain ⟨f', hok', hlimit', hfree'⟩ := (reserve_clears b f).works hreserve
  refine ⟨f', ?_, hlimit'.trans hlimit, fun k => ?_⟩
  · rw [initFrames, hok, ok_bind]
    exact hok'
  · have hempty : ¬Frames.Free ⟨fun _ => 0, 0, Nat.zero_le _⟩ k := by
      simp [Frames.Free, test_eq]
    rw [hfree', hfree, or_iff_right hempty]
    rfl

theorem handed_out_usable {b : Info} {p : Pool} {a : Nat × Nat} {k : Nat}
    (hfree : ∀ k < f.mmLimit, (f.Free k ↔ b.Usable k))
    (hp : Reaches Pool.step Pool.Allows ⟨f, []⟩ p) (ha : a ∈ p.live) (hk : Covers a k) :
    b.Usable k := by
  have haccounts := Pool.accounts_of_reaches hp
  have hin := haccounts.inside a ha
  have hlt : k < f.mmLimit := lt_of_lt_of_le hk.2 hin
  exact (hfree k hlt).mp (haccounts.taken a ha k hk)

/-- Above the first megabyte and the kernel, each frame is treated as the map and the modules ask
for. -/
def Info.Agrees (b : Info) : Prop :=
  ∀ k < b.limit, 256 ≤ k → ¬b.InKernel k →
    ((b.Marked k ∧ ¬b.Cleared k ∧ k ≠ b.pmb >>> 12) ↔
      (b.InRam k ∧ ¬b.InMultiboot k ∧ ¬b.InModule k))

theorem free_iff_usable_iff {b : Info} {k : Nat} :
    ((b.Marked k ∧ ¬(b.InKernel k ∨ b.Cleared k ∨ k < 256 ∨ k = b.pmb >>> 12)) ↔ b.Usable k) ↔
      (256 ≤ k → ¬b.InKernel k →
        ((b.Marked k ∧ ¬b.Cleared k ∧ k ≠ b.pmb >>> 12) ↔
          (b.InRam k ∧ ¬b.InMultiboot k ∧ ¬b.InModule k))) := by
  have hlow : k < 256 ↔ ¬256 ≤ k := Nat.not_le.symm
  rw [Info.Usable, hlow]
  by_cases hhigh : 256 ≤ k <;> by_cases hkern : b.InKernel k <;> simp [hhigh, hkern]

def moduleBehindKernel : Info where
  mmap := [⟨0x100000, 0, 0x10000, 0, 1⟩]
  mods := [⟨0x102000, [⟨ptLoad, 0, 0, 0x1000, 0x1000⟩]⟩]
  pmb := 0x9000
  kernelPages := 2
  window := 1
  pmb_lt := by decide

end Quest.Boot
