import Quest.Proc.Loaded

/-! Two runs of `_exec` on the same file and argument: what the memory of the new program
depends on. -/
namespace Quest.Proc

open Quest.Lib Memory Quest.Mem Machine Function

/-- The states differ in the contents of free frames only. -/
structure Agree (m m' : Machine) : Prop where
  frames : m'.frames = m.frames
  pdFrame : m'.pdFrame = m.pdFrame
  kernFrame : m'.kernFrame = m.kernFrame
  mem : ∀ a, ¬m.frames.Free (a / 4096) → m'.mem a = m.mem a

def SameString (arg arg' : Nat → UInt8) : Prop := ∀ i, (∀ j < i, arg j ≠ 0) → arg' i = arg i

def UserEntry (e : Nat) : Prop := Present e ∧ e / 4 % 2 = 1

def UserAccessible (m : Machine) (va : Nat) : Prop :=
  let e := entry m.mem m.pdFrame (va / 2 ^ 22)
  UserEntry e ∧ (BigPage e ∨ UserEntry (entry m.mem (e / 4096) (va / 4096 % 1024)))

/-- The programs see the same pages with the same contents, video memory apart. -/
def SameMemory (m m' : Machine) : Prop :=
  ∀ va < 2 ^ 32, ¬Video (va / 4096) →
    (UserAccessible m va ↔ UserAccessible m' va) ∧
    (UserAccessible m va → m.load8 va = m'.load8 va)

def KernelEntries (m : Machine) : Prop :=
  ∀ i, 1019 ≤ i → i < 1024 → ¬UserEntry (entry m.mem m.pdFrame i)

variable {m m' m1 m1' : Machine} {file : File} {arg arg' args args' stale stale' dst src : Nat → UInt8}
  {i k n length table table' v va x : Nat}

theorem strncpyFrom_full (h : ∀ j, i ≤ j → j < i + length → src j ≠ 0) (hpos : 0 < i + length) :
    strncpyFrom src length i dst k =
      if k = i + length - 1 then 0 else if i ≤ k ∧ k < i + length then src k else dst k := by
  induction length generalizing i dst with
  | zero =>
    rw [strncpyFrom, update_apply, if_neg (show ¬(i ≤ k ∧ k < i + 0) by omega)]
    rfl
  | succ length ih =>
    rw [strncpyFrom, if_neg (h i le_rfl (by omega)),
      ih (fun j hle hlt => h j (by omega) (by omega)) (by omega), update_apply,
      show i + 1 + length = i + (length + 1) by omega]
    by_cases hk : k = i
    · simp only [hk, if_pos]
      split_ifs <;> first | rfl | omega
    · simp only [hk, if_neg, not_false_eq_true]
      split_ifs <;> first | rfl | omega

theorem strncpyFrom_stop (h : ∀ j, i ≤ j → j < n → src j ≠ 0) (hn : src n = 0) (hle : i ≤ n)
    (hlt : n < i + length) :
    strncpyFrom src length i dst k =
      if k = n then 0 else if i ≤ k ∧ k < n then src k else dst k := by
  induction length generalizing i dst with
  | zero => omega
  | succ length ih =>
    rw [strncpyFrom]
    obtain rfl | hne := eq_or_ne i n
    · rw [if_pos hn, update_apply, if_neg (show ¬(i ≤ k ∧ k < i) by omega)]
    · rw [if_neg (h i le_rfl (by omega)),
        ih (fun j hle hlt => h j (by omega) hlt) (by omega) (by omega), update_apply]
      by_cases hk : k = i
      · rw [if_neg (show k ≠ n by omega), if_neg (show k ≠ n by omega),
          if_neg (show ¬(i + 1 ≤ k ∧ k < n) by omega), if_pos hk,
          if_pos (show i ≤ k ∧ k < n by omega), hk]
      · rw [if_neg hk]
        exact if_congr Iff.rfl rfl (if_congr (by omega) rfl rfl)

theorem strncpy_long (h : ∀ i < 79, arg i ≠ 0) (hk : k < 80) :
    strncpy stale arg 80 k = if k = 79 then 0 else arg k := by
  rw [strncpy]
  by_cases hlast : arg 79 = 0
  · rw [strncpyFrom_stop (fun j _ hj => h j hj) hlast (by omega) (by omega)]
    split_ifs <;> first | rfl | omega
  · have hfull : ∀ j, 0 ≤ j → j < 0 + 80 → arg j ≠ 0 := by
      intro j _ hj
      obtain rfl | hne := eq_or_ne j 79
      · exact hlast
      · exact h j (by omega)
    rw [strncpyFrom_full hfull (by omega)]
    split_ifs <;> first | rfl | omega

theorem strncpy_short (h : ¬∀ i < 79, arg i ≠ 0) : strncpy stale arg 80 79 = stale 79 := by
  have hex : ∃ n, n < 79 ∧ arg n = 0 := by simpa using h
  obtain ⟨hlt, hn⟩ := Nat.find_spec hex
  have hbefore : ∀ j, 0 ≤ j → j < Nat.find hex → arg j ≠ 0 := by
    intro j _ hj hzero
    exact Nat.find_min hex hj ⟨by omega, hzero⟩
  rw [strncpy, strncpyFrom_stop hbefore hn (Nat.zero_le _) (by omega), if_neg (by omega),
    if_neg (by omega)]

theorem stackImage_congr (h : ∀ i < 80, args' i = args i) : stackImage args' = stackImage args := by
  have hblit : blit (fun _ => 0) (0x400000 - 80) args' 80 =
      blit (fun _ => 0) (0x400000 - 80) args 80 := by
    funext a
    exact blit_congr rfl h
  rw [stackImage, stackImage, hblit]

theorem stackImage_last : stackImage args 0x3FFFFF = args 79 := by
  rw [stackImage, setWord, setWord, setWord, setWord, setWord]
  rw [blit_outside (by omega), blit_outside (by omega), blit_outside (by omega),
    blit_outside (by omega), blit_outside (by omega), blit_inside (by omega) (by omega)]

section

variable (h : Agree m m')
include h

theorem Agree.entry_eq {f : Nat} (hf : ¬m.frames.Free f) (hi : i < 1024) :
    entry m'.mem f i = entry m.mem f i := by
  apply entry_congr _ hi
  intro a ha
  exact h.mem a (ha ▸ hf)

theorem Agree.dir_eq (hready : Ready m) (hi : i < 1024) :
    entry m'.mem m'.pdFrame i = entry m.mem m.pdFrame i := by
  rw [h.pdFrame, h.entry_eq hready.dir hi]

theorem Agree.tableDropped (hready : Ready m) (hi : i < 1019) :
    TableDropped m' i k ↔ TableDropped m i k := by
  have hdir := h.dir_eq hready (show i < 1024 by omega)
  have htable : tableAt m' i = tableAt m i := by rw [tableAt, tableAt, hdir]
  rw [TableDropped, TableDropped, htable, hdir]
  apply and_congr_right
  intro hne
  apply or_congr_right
  apply exists_congr
  intro j
  apply and_congr_right
  intro hj
  rw [PageDropped, PageDropped, h.entry_eq (hready.used i hi _ ⟨hne, .inl rfl⟩).1 hj]

theorem Agree.ready (hready : Ready m) : Ready m' := by
  refine ⟨h.frames ▸ hready.limit, ?_, ?_, ⟨fun i _ hi hne => ?_, ?_⟩, fun i hi k hk => ?_⟩
  · rw [h.pdFrame, h.frames]
    exact hready.below
  · rw [h.pdFrame, h.frames]
    exact hready.dir
  · rw [h.dir_eq hready (by omega)] at hne
    rw [tableAt, h.dir_eq hready (by omega), h.pdFrame]
    exact hready.apart.dir i (Nat.zero_le i) hi hne
  · intro i i' _ hi _ hi' hne hne'
    rw [h.dir_eq hready (by omega)] at hne hne'
    rw [tableAt, tableAt, h.dir_eq hready (by omega), h.dir_eq hready (by omega)]
    exact hready.apart.inj i i' (Nat.zero_le i) hi (Nat.zero_le i') hi' hne hne'
  · rw [h.pdFrame, h.frames]
    exact hready.used i hi k ((h.tableDropped hready hi).mp hk)

theorem Agree.roomy (hready : Ready m) (hroomy : Roomy m file) : Roomy m' file := by
  have havail : (dropSpace m').frames.available = (dropSpace m).frames.available := by
    apply Frames.available_congr
    · rw [hready.dropSpace.limit, (h.ready hready).dropSpace.limit, h.frames]
    · intro k
      rw [(h.ready hready).free, hready.free, h.frames]
      apply or_congr_right
      apply exists_congr
      intro i
      exact and_congr_right fun hi => h.tableDropped hready hi
  rw [Roomy, havail, h.frames]
  exact hroomy

end

theorem userEntry_seven (f : Nat) : UserEntry (f * 4096 + 7) := by
  rw [UserEntry, Present]
  omega

theorem not_userEntry_zero : ¬UserEntry 0 := by
  rw [UserEntry, Present]
  omega

theorem Executed.accessible (h : Executed m m' file args table) (hkern : KernelEntries m)
    (hva : va < 2 ^ 32) :
    UserAccessible m' va ↔ va < 2 ^ 22 ∧ UserEntry (entry m'.mem table (va / 4096)) := by
  have hi : va / 2 ^ 22 < 1024 := by omega
  rw [UserAccessible, h.pdFrame, h.dir _ hi]
  by_cases hlow : va < 2 ^ 22
  · have hbig : ¬BigPage (table * 4096 + 7) := by
      rw [BigPage]
      omega
    rw [if_pos (by omega), and_iff_right (userEntry_seven table), or_iff_right hbig,
      and_iff_right hlow, show (table * 4096 + 7) / 4096 = table by omega,
      show va / 4096 % 1024 = va / 4096 by omega]
  · rw [if_neg (by omega)]
    refine iff_of_false (fun hnot => ?_) fun hnot => hlow hnot.1
    split at hnot
    · exact not_userEntry_zero hnot.1
    · exact hkern _ (by omega) hi hnot.1

def pageBytes (file : File) (args : Nat → UInt8) (v : Nat) : Option (Nat → UInt8) :=
  if 1008 ≤ v then some fun o => stackImage args (v * 4096 + o)
  else (layout file.image v).map (Source.byte file)

theorem Executed.page (h : Executed m m' file args table) (hv : v < 1024) (hvideo : ¬Video v) :
    match pageBytes file args v with
    | none => entry m'.mem table v = 0
    | some bytes => Holds m' table v bytes := by
  rw [pageBytes]
  split_ifs with hstack
  · exact h.stack v hstack hv
  · have hpage := h.pages v (by omega) hvideo
    cases hlayout : layout file.image v with
    | none => rwa [hlayout] at hpage
    | some src => rwa [hlayout] at hpage

theorem Holds.userEntry {bytes : Nat → UInt8} (h : Holds m table v bytes) :
    UserEntry (entry m.mem table v) := by
  obtain ⟨f, hentry, _⟩ := h
  rw [hentry]
  exact userEntry_seven f

theorem Executed.sameMemory (h : Executed m1 m file args table) (h' : Executed m1' m' file args' table')
    (hkern : KernelEntries m1) (hkern' : KernelEntries m1') (hargs : ∀ i < 80, args' i = args i) :
    SameMemory m m' := by
  intro va hva hvideo
  rw [h.accessible hkern hva, h'.accessible hkern' hva]
  by_cases hlow : va < 2 ^ 22
  · have hpage := h.page (show va / 4096 < 1024 by omega) hvideo
    have hpage' := h'.page (show va / 4096 < 1024 by omega) hvideo
    have hbytes : pageBytes file args' (va / 4096) = pageBytes file args (va / 4096) := by
      rw [pageBytes, pageBytes, stackImage_congr hargs]
    rw [hbytes] at hpage'
    cases hcase : pageBytes file args (va / 4096) with
    | none =>
      rw [hcase] at hpage hpage'
      rw [hpage, hpage']
      exact ⟨Iff.rfl, fun hnot => absurd hnot.2 not_userEntry_zero⟩
    | some bytes =>
      rw [hcase] at hpage hpage'
      refine ⟨and_congr_right' (iff_of_true hpage.userEntry hpage'.userEntry), fun _ => ?_⟩
      rw [h.load8 hlow hpage, h'.load8 hlow hpage']
  · exact ⟨iff_of_false (fun hnot => hlow hnot.1) fun hnot => hlow hnot.1,
      fun hnot => absurd hnot.1 hlow⟩

theorem Executed.lastByte (h : Executed m m' file args table) : m'.load8 0x3FFFFF = .ok (args 79) := by
  rw [h.load8 (by omega) (h.stack (0x3FFFFF / 4096) (by omega) (by omega))]
  exact congrArg Except.ok stackImage_last

theorem Executed.lastByte_accessible (h : Executed m m' file args table)
    (hkern : KernelEntries m) : UserAccessible m' 0x3FFFFF := by
  rw [h.accessible hkern (by omega)]
  exact ⟨by omega, (h.stack (0x3FFFFF / 4096) (by omega) (by omega)).userEntry⟩

/-- The memory of a new program is a function of its file and its argument if and only if the
argument has at least 79 characters: the buffer for it is copied whole. -/
theorem exec_memory_determined_iff (m : Machine) (file : File) (arg : Nat → UInt8) (hready : Ready m)
    (hroomy : Roomy m file) (hkernel : KernelEntries m) (hfile : file.Inside)
    (hread : file.read = file.dir) (hsucceeds : ∃ stale out, exec m file (some arg) stale = .ok out) :
    (∀ m' arg' stale stale' out out', Agree m m' → SameString arg arg' →
      exec m file (some arg) stale = .ok out → exec m' file (some arg') stale' = .ok out' →
      SameMemory out.machine out'.machine) ↔ ∀ i < 79, arg i ≠ 0 := by
  obtain ⟨stale0, out0, hret0⟩ := hsucceeds
  have hloads := hfile.loads (hfile.segments_fit_of_exec hready hroomy hread hret0)
  have hdir := hfile.dir_nonneg
  constructor
  · intro hsame
    by_contra hshort
    obtain ⟨m1, table, hret, h⟩ := exec_executed arg (fun _ => 0) hready hroomy hloads hdir hread
    obtain ⟨m2, table', hret', h'⟩ := exec_executed arg (fun _ => 1) hready hroomy hloads hdir hread
    have hmemory := hsame m arg _ _ _ _ ⟨rfl, rfl, rfl, fun _ _ => rfl⟩ (fun _ _ => rfl) hret hret'
    have hbyte := (hmemory 0x3FFFFF (by omega) (by decide)).2 (h.lastByte_accessible hkernel)
    rw [h.lastByte, h'.lastByte, strncpy_short hshort, strncpy_short hshort] at hbyte
    exact absurd (Except.ok.inj hbyte) (by decide)
  · intro hlong m' arg' stale stale' out out' hagree hstring hret hret'
    obtain ⟨m1, table, hret1, h⟩ := exec_executed arg stale hready hroomy hloads hdir hread
    obtain ⟨m2, table', hret2, h'⟩ := exec_executed arg' stale' (hagree.ready hready)
      (hagree.roomy hready hroomy) hloads hdir hread
    cases hret.symm.trans hret1
    cases hret'.symm.trans hret2
    have harg : ∀ i < 79, arg' i = arg i := fun i hi => hstring i fun j hj => hlong j (by omega)
    have hlong' : ∀ i < 79, arg' i ≠ 0 := fun i hi => harg i hi ▸ hlong i hi
    have hkernel' : KernelEntries m' := by
      intro i hle hi
      rw [hagree.dir_eq hready hi]
      exact hkernel i hle hi
    refine h.sameMemory h' hkernel hkernel' fun i hi => ?_
    rw [strncpy_long hlong hi, strncpy_long hlong' hi]
    by_cases hlast : i = 79
    · rw [if_pos hlast, if_pos hlast]
    · rw [if_neg hlast, if_neg hlast, harg i (by omega)]

theorem wholeFile_84_loads : (wholeFile 84).Loads := by
  apply wholeFile_84_valid.loads
  rw [show (wholeFile 84).segments = [⟨1, 0, 0, 84, 84⟩] by decide +kernel]
  simp [Phdr.Counts]

theorem exec_small (arg stale : Nat → UInt8) :
    ∃ out table, exec bare (wholeFile 84) (some arg) stale = .ok out ∧
      Executed bare out.machine (wholeFile 84) (strncpy stale arg 80) table := by
  obtain ⟨m', table, hret, h⟩ := exec_executed arg stale bare_ready
    (roomy_bare (by decide +kernel)) wholeFile_84_loads (by decide) rfl
  exact ⟨_, table, hret, h⟩

theorem kernelEntries_bare : KernelEntries bare := by
  intro i _ _
  exact not_userEntry_zero

theorem exec_memory_determined_iff_letters :
    (∀ m' arg' stale stale' out out', Agree bare m' → SameString (fun _ => 65) arg' →
      exec bare (wholeFile 84) (some fun _ => 65) stale = .ok out →
      exec m' (wholeFile 84) (some arg') stale' = .ok out' →
      SameMemory out.machine out'.machine) ↔ ∀ i < 79, (fun _ => 65 : Nat → UInt8) i ≠ 0 :=
  exec_memory_determined_iff bare (wholeFile 84) (fun _ => 65) bare_ready
    (roomy_bare (by decide +kernel)) kernelEntries_bare wholeFile_84_valid.toInside rfl
    ⟨fun _ => 0, (exec_small (fun _ => 65) fun _ => 0).imp fun _ ⟨_, hret, _⟩ => hret⟩

theorem exec_shows_stale_byte :
    ∃ out out', exec bare (wholeFile 84) (some fun _ => 0) (fun _ => 0) = .ok out ∧
      exec bare (wholeFile 84) (some fun _ => 0) (fun _ => 1) = .ok out' ∧
      UserAccessible out.machine 0x3FFFFF ∧ out.machine.load8 0x3FFFFF = .ok 0 ∧
      out'.machine.load8 0x3FFFFF = .ok 1 := by
  obtain ⟨out, table, hret, h⟩ := exec_small (fun _ => 0) fun _ => 0
  obtain ⟨out', table', hret', h'⟩ := exec_small (fun _ => 0) fun _ => 1
  refine ⟨out, out', hret, hret', h.lastByte_accessible kernelEntries_bare, ?_, ?_⟩
  · rw [h.lastByte, strncpy_short fun hnot => hnot 0 (by omega) rfl]
  · rw [h'.lastByte, strncpy_short fun hnot => hnot 0 (by omega) rfl]

end Quest.Proc
