import Quest.Basic

/-! The redirection entries of the IO-APICs, `smp/apic.c`. -/
namespace Quest.Smp.Ioapic

open Function BitVec

abbrev Addr := BitVec 32
abbrev Reg := BitVec 8

structure Info where
  id : BitVec 8
  address : Addr
  startGSI : BitVec 32
  numGSIs : BitVec 32
  deriving DecidableEq, Repr

structure Override where
  srcBus : BitVec 32
  srcIRQ : BitVec 32
  destGSI : BitVec 32
  deriving DecidableEq, Repr

/-- What the parsing code leaves in `mp_ISA_PC`, `mp_IOAPICs`, `mp_overrides` and
`mp_ISA_bus_id`. -/
structure Config where
  isaPC : Bool
  ioapics : List Info
  overrides : List Override
  isaBusId : BitVec 32
  deriving DecidableEq, Repr

/-- `mp_IOAPIC_addr`, and the registers of the controllers with the index that was selected
last. -/
structure State where
  addr : Addr
  regsel : Addr → Reg
  regs : Addr → Reg → BitVec 32

def State.select (s : State) (address : Addr) : State := { s with addr := address }

inductive Write where
  | regsel (reg : Reg)
  | rw (value : BitVec 32)
  deriving DecidableEq, Repr

/-- `MP_IOAPIC_WRITE` -/
def State.write (s : State) : Write → State
  | .regsel reg => { s with regsel := update s.regsel s.addr reg }
  | .rw value =>
      let chip := update (s.regs s.addr) (s.regsel s.addr) value
      { s with regs := update s.regs s.addr chip }

def State.readRw (s : State) : BitVec 32 := s.regs s.addr (s.regsel s.addr)

def ioapicRead64 (s : State) (reg : Reg) : BitVec 64 × State :=
  let s := s.write (.regsel (reg + 1))
  let high := s.readRw
  let s := s.write (.regsel reg)
  (high.setWidth 64 <<< 32 ||| s.readRw.setWidth 64, s)

/-- The register writes of `IOAPIC_write64`: the first value sets the mask bit. -/
def writes64 (reg : Reg) (v : BitVec 64) : List Write :=
  [.regsel reg, .rw 0x10000, .regsel (reg + 1), .rw ((v >>> 32).setWidth 32),
    .regsel reg, .rw ((v &&& 0xFFFFFFFF).setWidth 32)]

def ioapicWrite64 (s : State) (reg : Reg) (v : BitVec 64) : State :=
  (writes64 reg v).foldl State.write s

def ioapicNumEntries (s : State) : BitVec 32 × State :=
  let s := s.write (.regsel 1)
  ((s.readRw >>> 16 &&& 0xFF) + 1, s)

/-- The register of an entry, as it is narrowed to `uint8`. -/
def redir (entry : BitVec 32) : Reg := (0x10 + entry * 2).setWidth 8

/-- The loops that look for the IO-APIC of a GSI; the sum is a `uint32`. -/
def Config.lookup (c : Config) (gsi : BitVec 32) : Option Info :=
  c.ioapics.find? fun io => io.startGSI ≤ gsi ∧ gsi < io.startGSI + io.numGSIs

/-- The result, and the state after.  `mp_IOAPIC_addr` is changed before the test of `old_addr`. -/
def ioapicMapGSI (c : Config) (s : State) (gsi : BitVec 32) (vector : BitVec 8)
    (flags : BitVec 64) : Int × State :=
  if c.isaPC then (-1, s)
  else
    match c.lookup gsi with
    | none => (-1, s)
    | some io =>
        let oldAddr := s.addr
        let s := s.select io.address
        if oldAddr = 0 then (-1, s)
        else
          let gsi := gsi - io.startGSI
          let s := ioapicWrite64 s (redir gsi) (flags ||| vector.setWidth 64)
          (gsi.toInt, s.select oldAddr)

/-- The result with the vector and the flags that are stored, and the state after. -/
def ioapicGetGSIMapping (c : Config) (s : State) (gsi : BitVec 32) :
    (Int × Option (BitVec 8 × BitVec 64)) × State :=
  if c.isaPC then ((-1, none), s)
  else
    match c.lookup gsi with
    | none => ((-1, none), s)
    | some io =>
        let oldAddr := s.addr
        let s := s.select io.address
        if oldAddr = 0 then ((-1, none), s)
        else
          let gsi := gsi - io.startGSI
          let (entry, s) := ioapicRead64 s (redir gsi)
          ((gsi.toInt, some ((entry &&& 0xFF).setWidth 8, entry &&& ~~~0xFF)), s.select oldAddr)

def irqToGSI (c : Config) (srcBus srcIrq : BitVec 32) : Except Fault (BitVec 32) :=
  match c.overrides.find? fun o => srcBus = o.srcBus ∧ srcIrq = o.srcIRQ with
  | some o => .ok o.destGSI
  | none =>
      if srcBus ≠ c.isaBusId then .error (.panic "IRQ_to_GSI only implemented for ISA bus.")
      else .ok srcIrq

/-- The redirection entries of one round of the loop: the base address is not that of the IO-APIC. -/
def disableEntries (s : State) (io : Info) : State :=
  (List.range io.numGSIs.toNat).foldl (fun s j => ioapicWrite64 s (redir (.ofNat 32 j)) 0x10000) s

def ioapicInit (c : Config) (s : State) : Except Fault State := do
  let s := c.ioapics.foldl disableEntries s
  let gsi ← irqToGSI c c.isaBusId 0
  return (ioapicMapGSI c s gsi 0x20 0xFF00000000000800).2

def State.entry (s : State) (address : Addr) (reg : Reg) : BitVec 64 :=
  (s.regs address (reg + 1)).setWidth 64 <<< 32 ||| (s.regs address reg).setWidth 64

def State.Masked (s : State) (address : Addr) (reg : Reg) : Prop :=
  (s.regs address reg).getLsbD 16 = true

def Info.Has (io : Info) (gsi : BitVec 32) : Prop :=
  io.startGSI.toNat ≤ gsi.toNat ∧ gsi.toNat < io.startGSI.toNat + io.numGSIs.toNat

/-- The end of the range is a `uint32`. -/
def Info.Ends (io : Info) : Prop := io.startGSI.toNat + io.numGSIs.toNat < 2 ^ 32

structure Config.Valid (c : Config) : Prop where
  apic : c.isaPC = false
  addresses : (c.ioapics.map Info.address).Nodup
  nonzero : ∀ io ∈ c.ioapics, io.address ≠ 0
  entries : ∀ io ∈ c.ioapics, io.numGSIs.toNat ≤ 120
  disjoint : ∀ io ∈ c.ioapics, ∀ io' ∈ c.ioapics, ∀ gsi, io.Has gsi → io'.Has gsi → io = io'

structure RoundTrip (c : Config) (s : State) (gsi : BitVec 32) (vector : BitVec 8)
    (flags : BitVec 64) : Prop where
  own : (ioapicGetGSIMapping c (ioapicMapGSI c s gsi vector flags).2 gsi).1.2 =
    some (vector, flags &&& ~~~0xFF)
  others : ∀ g, g ≠ gsi → (ioapicGetGSIMapping c (ioapicMapGSI c s gsi vector flags).2 g).1 =
    (ioapicGetGSIMapping c s g).1
  addr : (ioapicMapGSI c s gsi vector flags).2.addr = s.addr
  /-- from the first write to the data register up to the last one -/
  masked : ∀ io, c.lookup gsi = some io → ∀ k, 2 ≤ k → k < 6 →
    (((writes64 (redir (gsi - io.startGSI)) (flags ||| vector.setWidth 64)).take k).foldl
      State.write (s.select io.address)).Masked io.address (redir (gsi - io.startGSI))

variable {c : Config} {s : State} {io : Info} {gsi : BitVec 32} {reg r : Reg} {a : Addr}
  {v : BitVec 64}

theorem entry_select (s : State) (address a : Addr) (reg : Reg) :
    (s.select address).entry a reg = s.entry a reg := rfl

theorem ioapicRead64_fst : (ioapicRead64 s reg).1 = s.entry s.addr reg := by
  simp [ioapicRead64, State.write, State.readRw, State.entry]

theorem reg_ne_succ (reg : Reg) : reg ≠ reg + 1 := by
  revert reg
  decide +kernel

theorem regs_ioapicWrite64 :
    (ioapicWrite64 s reg v).regs a r =
      if a = s.addr ∧ r = reg then (v &&& 0xFFFFFFFF).setWidth 32
      else if a = s.addr ∧ r = reg + 1 then (v >>> 32).setWidth 32 else s.regs a r := by
  have hne := reg_ne_succ reg
  simp only [ioapicWrite64, writes64, List.foldl_cons, List.foldl_nil, State.write,
    update_self]
  by_cases ha : a = s.addr
  · subst ha
    simp only [update_self, update_apply, true_and]
    grind
  · simp [ha]

theorem joined_halves (v : BitVec 64) :
    ((v >>> 32).setWidth 32).setWidth 64 <<< 32 ||| ((v &&& 0xFFFFFFFF).setWidth 32).setWidth 64 =
      v := by
  have hlow : (v &&& 0xFFFFFFFF).setWidth 32 = v.setWidth 32 := by
    rw [setWidth_and]
    exact and_allOnes
  rw [hlow]
  apply eq_of_getLsbD_eq
  intro i hi
  simp only [getLsbD_or, getLsbD_shiftLeft, getLsbD_setWidth,
    getLsbD_ushiftRight]
  by_cases h : i < 32
  · simp [h, hi]
  · rw [Nat.add_sub_cancel' (Nat.not_lt.mp h)]
    simp [h, hi, show i - 32 < 32 by omega, show i - 32 < 64 by omega]

theorem entry_ioapicWrite64_self : (ioapicWrite64 s reg v).entry s.addr reg = v := by
  rw [State.entry, regs_ioapicWrite64, if_neg fun h => reg_ne_succ reg h.2.symm,
    if_pos ⟨rfl, rfl⟩, regs_ioapicWrite64, if_pos ⟨rfl, rfl⟩, joined_halves]

theorem toNat_redir (entry : BitVec 32) : (redir entry).toNat = (16 + 2 * entry.toNat) % 256 := by
  simp only [redir, toNat_setWidth, BitVec.toNat_add, toNat_mul,
    BitVec.ofNat_eq_ofNat, BitVec.toNat_ofNat]
  omega

theorem redir_ne_succ (e e' : BitVec 32) : redir e ≠ redir e' + 1 := by
  intro h
  have := congrArg BitVec.toNat h
  simp only [BitVec.toNat_add, toNat_redir, BitVec.ofNat_eq_ofNat, BitVec.toNat_ofNat,
    Nat.reducePow, Nat.reduceMod] at this
  omega

theorem entry_ioapicWrite64_of_ne {e e' : BitVec 32} (h : a ≠ s.addr ∨ redir e' ≠ redir e) :
    (ioapicWrite64 s (redir e) v).entry a (redir e') = s.entry a (redir e') := by
  have hsucc := redir_ne_succ e' e
  have hsucc' := redir_ne_succ e e'
  rw [State.entry, regs_ioapicWrite64, regs_ioapicWrite64, State.entry]
  grind

theorem test_iff : (io.startGSI ≤ gsi ∧ gsi < io.startGSI + io.numGSIs) ↔ io.Has gsi ∧ io.Ends := by
  rw [le_def, lt_def, BitVec.toNat_add, Info.Has, Info.Ends]
  omega

theorem mem_of_lookup (h : c.lookup gsi = some io) : io ∈ c.ioapics ∧ io.Has gsi ∧ io.Ends :=
  ⟨List.mem_of_find?_eq_some h, test_iff.mp (by simpa using List.find?_some h)⟩

theorem Config.Valid.lookup_eq_some_iff (h : c.Valid) (hmem : io ∈ c.ioapics) (hhas : io.Has gsi) :
    c.lookup gsi = some io ↔ io.Ends := by
  refine ⟨fun hfind => (mem_of_lookup hfind).2.2, fun hends => ?_⟩
  cases hfind : c.lookup gsi with
  | none =>
    have := List.find?_eq_none.mp hfind io hmem
    exact absurd (test_iff.mpr ⟨hhas, hends⟩) (by simpa using this)
  | some io' =>
    obtain ⟨hmem', hhas', -⟩ := mem_of_lookup hfind
    rw [h.disjoint io' hmem' io hmem gsi hhas' hhas]

theorem toNat_sub_startGSI (hhas : io.Has gsi) :
    (gsi - io.startGSI).toNat = gsi.toNat - io.startGSI.toNat :=
  toNat_sub_of_le (le_def.mpr hhas.1)

theorem Config.Valid.place_ne (h : c.Valid) {io' : Info} {g : BitVec 32}
    (hfind' : c.lookup g = some io') (hfind : c.lookup gsi = some io) (hne : g ≠ gsi) :
    io'.address ≠ io.address ∨ redir (g - io'.startGSI) ≠ redir (gsi - io.startGSI) := by
  obtain ⟨hmem, hhas, -⟩ := mem_of_lookup hfind
  obtain ⟨hmem', hhas', -⟩ := mem_of_lookup hfind'
  refine or_iff_not_imp_left.mpr fun haddr hredir => hne (BitVec.eq_of_toNat_eq ?_)
  obtain rfl : io' = io := List.inj_on_of_nodup_map h.addresses hmem' hmem (not_not.mp haddr)
  have hentries := h.entries io' hmem
  have := congrArg BitVec.toNat hredir
  rw [toNat_redir, toNat_redir, toNat_sub_startGSI hhas, toNat_sub_startGSI hhas'] at this
  rw [Info.Has] at hhas hhas'
  omega

theorem ioapicMapGSI_of_lookup (hapic : c.isaPC = false) (haddr : s.addr ≠ 0)
    (hfind : c.lookup gsi = some io) (vector : BitVec 8) (flags : BitVec 64) :
    (ioapicMapGSI c s gsi vector flags).2 =
      (ioapicWrite64 (s.select io.address) (redir (gsi - io.startGSI))
        (flags ||| vector.setWidth 64)).select s.addr := by
  rw [ioapicMapGSI, if_neg (by simp [hapic]), hfind]
  dsimp only
  rw [if_neg haddr]

theorem ioapicMapGSI_of_none (hfind : c.lookup gsi = none) (vector : BitVec 8) (flags : BitVec 64) :
    ioapicMapGSI c s gsi vector flags = (-1, s) := by
  simp [ioapicMapGSI, hfind]

theorem ioapicGetGSIMapping_fst (hapic : c.isaPC = false) (haddr : s.addr ≠ 0) :
    (ioapicGetGSIMapping c s gsi).1 = match c.lookup gsi with
      | none => (-1, none)
      | some io =>
          let entry := s.entry io.address (redir (gsi - io.startGSI))
          ((gsi - io.startGSI).toInt, some ((entry &&& 0xFF).setWidth 8, entry &&& ~~~0xFF)) := by
  rw [ioapicGetGSIMapping, if_neg (by simp [hapic])]
  split
  · rfl
  · rw [if_neg haddr]
    dsimp only
    rw [ioapicRead64_fst]
    rfl

theorem vector_flags (vector : BitVec 8) (flags : BitVec 64)
    (hflags : flags &&& 0xFF = 0 ∨ flags &&& 0xFF = vector.setWidth 64) :
    ((flags ||| vector.setWidth 64) &&& 0xFF).setWidth 8 = vector ∧
      (flags ||| vector.setWidth 64) &&& ~~~0xFF = flags &&& ~~~0xFF := by
  have hlow : ∀ b : BitVec 8, b.setWidth 64 &&& (0xFF : BitVec 64) = b.setWidth 64 := by decide +kernel
  have hhigh : ∀ b : BitVec 8, b.setWidth 64 &&& ~~~(0xFF : BitVec 64) = 0 := by decide +kernel
  have hback : ∀ b : BitVec 8, (b.setWidth 64).setWidth 8 = b := by decide +kernel
  rw [and_or_distrib_right, and_or_distrib_right, hlow, hhigh]
  refine ⟨?_, or_zero⟩
  rcases hflags with h | h
  · rw [h]
    exact (congrArg (setWidth 8) zero_or).trans (hback vector)
  · rw [h, BitVec.or_self, hback]

theorem masked_between (h : s.addr = a) {k : Nat} (hk : 2 ≤ k) (hlt : k < 6) :
    (((writes64 reg v).take k).foldl State.write s).Masked a reg := by
  subst h
  obtain rfl | rfl | rfl | rfl : k = 2 ∨ k = 3 ∨ k = 4 ∨ k = 5 := by omega
  all_goals simp [writes64, State.write, State.Masked]

theorem Config.Valid.roundTrip (h : c.Valid) (haddr : s.addr ≠ 0) (hfind : c.lookup gsi = some io)
    {vector : BitVec 8} {flags : BitVec 64}
    (hflags : flags &&& 0xFF = 0 ∨ flags &&& 0xFF = vector.setWidth 64) :
    RoundTrip c s gsi vector flags := by
  have hmap := ioapicMapGSI_of_lookup h.apic haddr hfind vector flags
  obtain ⟨hvector, hrest⟩ := vector_flags vector flags hflags
  constructor
  case own =>
    have hentry : (ioapicWrite64 (s.select io.address) (redir (gsi - io.startGSI))
        (flags ||| vector.setWidth 64)).entry io.address (redir (gsi - io.startGSI)) = _ :=
      entry_ioapicWrite64_self
    rw [hmap, ioapicGetGSIMapping_fst h.apic (by exact haddr), hfind]
    dsimp only
    rw [entry_select, hentry, hvector, hrest]
  case others =>
    intro g hne
    rw [hmap, ioapicGetGSIMapping_fst h.apic (by exact haddr), ioapicGetGSIMapping_fst h.apic haddr]
    cases hother : c.lookup g with
    | none => rfl
    | some io' =>
      have hplace : io'.address ≠ io.address ∨ redir (g - io'.startGSI) ≠ redir (gsi - io.startGSI) :=
        h.place_ne hother hfind hne
      have hentry := entry_ioapicWrite64_of_ne (s := s.select io.address)
        (v := flags ||| vector.setWidth 64) hplace
      dsimp only
      rw [entry_select, hentry, entry_select]
  case addr =>
    rw [hmap]
    rfl
  case masked =>
    intro io' _ k hk hlt
    exact masked_between rfl hk hlt

/-- The vector and the flags of a GSI are read back, and nothing else changes, if and only if the
end of the range of its IO-APIC is a `uint32`. -/
theorem gsi_roundTrip_iff (c : Config) (hvalid : c.Valid) (s : State) (haddr : s.addr ≠ 0)
    (gsi : BitVec 32) (vector : BitVec 8) (flags : BitVec 64)
    (hflags : flags &&& 0xFF = 0 ∨ flags &&& 0xFF = vector.setWidth 64) :
    (∀ io ∈ c.ioapics, io.Has gsi → (RoundTrip c s gsi vector flags ↔ io.Ends)) ∧
    ((∀ io ∈ c.ioapics, ¬io.Has gsi) → ioapicMapGSI c s gsi vector flags = (-1, s)) := by
  refine ⟨fun io hmem hhas => ⟨fun htrip => ?_, fun hends => ?_⟩, fun hnone => ?_⟩
  · rw [← hvalid.lookup_eq_some_iff hmem hhas]
    cases hfind : c.lookup gsi with
    | none =>
      have hown := htrip.own
      rw [ioapicMapGSI_of_none hfind, ioapicGetGSIMapping_fst hvalid.apic haddr, hfind] at hown
      cases hown
    | some io' =>
      obtain ⟨hmem', hhas', -⟩ := mem_of_lookup hfind
      rw [hvalid.disjoint io' hmem' io hmem gsi hhas' hhas]
  · exact hvalid.roundTrip haddr ((hvalid.lookup_eq_some_iff hmem hhas).mpr hends) hflags
  · refine ioapicMapGSI_of_none ?_ _ _
    cases hfind : c.lookup gsi with
    | none => rfl
    | some io => exact absurd (mem_of_lookup hfind).2.1 (hnone io (mem_of_lookup hfind).1)

def oneIoapic (startGSI numGSIs : BitVec 32) : Config :=
  ⟨false, [⟨2, 0xFEC00000, startGSI, numGSIs⟩], [], 0⟩

theorem oneIoapic_valid {startGSI numGSIs : BitVec 32} (h : numGSIs.toNat ≤ 120) :
    (oneIoapic startGSI numGSIs).Valid := by
  constructor <;> simp [oneIoapic, h]

def cleared (addr : Addr) : State := ⟨addr, fun _ => 0, fun _ _ => 0⟩

theorem gsi_roundTrip_iff_timer :
    RoundTrip (oneIoapic 0 24) (cleared 0xFEC00000) 2 0x20 0xFF00000000000800 :=
  ((gsi_roundTrip_iff _ (oneIoapic_valid (by decide)) (cleared 0xFEC00000) (by decide) 2 0x20 _
    (.inl (by decide))).1 _ (List.mem_singleton_self _) ⟨by decide, by decide⟩).mpr
      (show 0 + 24 < 2 ^ 32 by decide)

/-- The range ends with the last GSI: the sum that the code compares with is 0. -/
theorem last_range_is_not_found :
    let c := oneIoapic 0xFFFFFFF8 8
    c.Valid ∧ (∃ io ∈ c.ioapics, io.Has 0xFFFFFFFF) ∧
      (ioapicMapGSI c (cleared 0xFEC00000) 0xFFFFFFFF 0x31 0).1 = -1 := by
  refine ⟨oneIoapic_valid (by decide), ⟨_, List.mem_singleton_self _, ⟨by decide, by decide⟩⟩, ?_⟩
  decide

/-! `IOAPIC_init`, after the entries of the MADT were parsed. -/

structure MadtIoapic where
  id : BitVec 8
  address : Addr
  globalIrqBase : BitVec 32
  deriving DecidableEq, Repr

def addIoapic (parsed : List Info × State) (sub : MadtIoapic) : Except Fault (List Info × State) :=
  if parsed.1.length = 8 then .error (.panic "Too many IO-APICs.")
  else
    let (numGSIs, s) := ioapicNumEntries (parsed.2.select sub.address)
    .ok (parsed.1 ++ [⟨sub.id, sub.address, sub.globalIrqBase, numGSIs⟩], s)

def Config.timerGSI (c : Config) : BitVec 32 :=
  match c.overrides.find? fun o => c.isaBusId = o.srcBus ∧ 0 = o.srcIRQ with
  | some o => o.destGSI
  | none => 0

def Config.timerPlace (c : Config) : Option (Addr × Reg) :=
  if c.isaPC then none
  else (c.lookup c.timerGSI).map fun io => (io.address, redir (c.timerGSI - io.startGSI))

def timerEntry : BitVec 64 := 0xFF00000000000820

structure Initialised (c : Config) (s : State) : Prop where
  masked : ∀ io ∈ c.ioapics, ∀ j < io.numGSIs.toNat,
    c.timerPlace ≠ some (io.address, redir (.ofNat 32 j)) → s.Masked io.address (redir (.ofNat 32 j))
  timer : ∀ place, c.timerPlace = some place → s.entry place.1 place.2 = timerEntry

/-- The IO-APICs that `mp_IOAPIC_addr` does not point to are masked already; and if it is 0, the
timer is routed already, too. -/
structure Prepared (c : Config) (s : State) : Prop where
  masked : ∀ io ∈ c.ioapics, io.address ≠ s.addr → ∀ j < io.numGSIs.toNat,
    c.timerPlace ≠ some (io.address, redir (.ofNat 32 j)) → s.Masked io.address (redir (.ofNat 32 j))
  timer : ∀ place, c.timerPlace = some place → s.addr = 0 →
    place.1 ≠ 0 ∧ s.entry place.1 place.2 = timerEntry

/-- What the loops do: the entries `done` of the IO-APIC at `mp_IOAPIC_addr` are masked. -/
structure Disabled (s s' : State) (done : Reg → Prop) : Prop where
  addr : s'.addr = s.addr
  others : ∀ a, a ≠ s.addr → s'.regs a = s.regs a
  masked : ∀ e, done (redir e) ∨ s.Masked s.addr (redir e) → s'.Masked s.addr (redir e)

theorem disabled_write (s : State) (e : BitVec 32) :
    Disabled s (ioapicWrite64 s (redir e) 0x10000) (· = redir e) := by
  refine ⟨rfl, fun a ha => funext fun r => ?_, fun e' h => ?_⟩
  · rw [regs_ioapicWrite64, if_neg fun h => ha h.1, if_neg fun h => ha h.1]
  · rw [State.Masked, regs_ioapicWrite64]
    split
    · rfl
    · rename_i hne
      rw [if_neg fun h => redir_ne_succ e' e h.2]
      exact h.resolve_left fun heq => hne ⟨rfl, heq⟩

theorem disabled_foldl {α : Type} {f : State → α → State} {done : α → Reg → Prop}
    (h : ∀ s x, Disabled s (f s x) (done x)) (xs : List α) (s : State) :
    Disabled s (xs.foldl f s) fun r => ∃ x ∈ xs, done x r := by
  induction xs generalizing s with
  | nil => exact ⟨rfl, fun _ _ => rfl, fun e h => h.resolve_left (by simp)⟩
  | cons x xs ih =>
    obtain ⟨haddr, hothers, hmask⟩ := h s x
    obtain ⟨haddr', hothers', hmask'⟩ := ih (f s x)
    rw [haddr] at haddr' hothers' hmask'
    refine ⟨haddr', fun a ha => (hothers' a ha).trans (hothers a ha), fun e he => ?_⟩
    rcases he with ⟨y, hy, he⟩ | he
    · rcases List.mem_cons.mp hy with rfl | hy
      · exact hmask' e (.inr (hmask e (.inl he)))
      · exact hmask' e (.inl ⟨y, hy, he⟩)
    · exact hmask' e (.inr (hmask e (.inr he)))

theorem disabled_disableEntries (s : State) (ioapics : List Info) :
    Disabled s (ioapics.foldl disableEntries s) fun r =>
      ∃ io ∈ ioapics, ∃ j ∈ List.range io.numGSIs.toNat, r = redir (.ofNat 32 j) :=
  disabled_foldl (fun s io => disabled_foldl (fun s j => disabled_write s (.ofNat 32 j))
    (List.range io.numGSIs.toNat) s) ioapics s

/-- After the loops exactly the entries at `mp_IOAPIC_addr` have become masked. -/
theorem masked_disableEntries {j : Nat} (hmem : io ∈ c.ioapics) (hj : j < io.numGSIs.toNat) :
    (c.ioapics.foldl disableEntries s).Masked io.address (redir (.ofNat 32 j)) ↔
      io.address = s.addr ∨ s.Masked io.address (redir (.ofNat 32 j)) := by
  obtain ⟨-, hothers, hmask⟩ := disabled_disableEntries s c.ioapics
  by_cases haddr : io.address = s.addr
  · rw [haddr]
    exact iff_of_true (hmask _ (.inl ⟨io, hmem, j, List.mem_range.mpr hj, rfl⟩)) (.inl rfl)
  · rw [State.Masked, State.Masked, or_iff_right haddr, hothers _ haddr]

theorem irqToGSI_timer (c : Config) : irqToGSI c c.isaBusId 0 = .ok c.timerGSI := by
  rw [irqToGSI, Config.timerGSI]
  split <;> simp

theorem timerPlace_eq_some {place : Addr × Reg} (h : c.timerPlace = some place) :
    c.isaPC = false ∧ ∃ io, c.lookup c.timerGSI = some io ∧
      place = (io.address, redir (c.timerGSI - io.startGSI)) := by
  rw [Config.timerPlace] at h
  split at h
  · cases h
  · rename_i hisa
    obtain ⟨io, hfind, rfl⟩ := Option.map_eq_some_iff.mp h
    exact ⟨by simpa using hisa, io, hfind, rfl⟩

theorem regs_map_timer_of_none (h : c.timerPlace = none ∨ s.addr = 0) :
    (ioapicMapGSI c s c.timerGSI 0x20 0xFF00000000000800).2.regs = s.regs := by
  rw [ioapicMapGSI]
  split
  · rfl
  · rename_i hisa
    split
    · rfl
    · rename_i io hfind
      have hplace : c.timerPlace ≠ none := by simp [Config.timerPlace, hisa, hfind]
      rw [if_pos (h.resolve_left hplace)]
      rfl

theorem regs_map_timer {place : Addr × Reg} (h : c.timerPlace = some place) (haddr : s.addr ≠ 0) :
    (ioapicMapGSI c s c.timerGSI 0x20 0xFF00000000000800).2.regs =
      (ioapicWrite64 (s.select place.1) place.2 timerEntry).regs := by
  obtain ⟨hisa, io, hfind, rfl⟩ := timerPlace_eq_some h
  rw [ioapicMapGSI_of_lookup hisa haddr hfind]
  rfl

theorem masked_map_timer {e : BitVec 32} (h : c.timerPlace ≠ some (a, redir e)) :
    (ioapicMapGSI c s c.timerGSI 0x20 0xFF00000000000800).2.Masked a (redir e) ↔
      s.Masked a (redir e) := by
  rw [State.Masked, State.Masked]
  by_cases hnone : c.timerPlace = none ∨ s.addr = 0
  · rw [regs_map_timer_of_none hnone]
  · obtain ⟨hplace, haddr⟩ := not_or.mp hnone
    obtain ⟨place, hplace⟩ := Option.ne_none_iff_exists'.mp hplace
    obtain ⟨-, io, -, rfl⟩ := timerPlace_eq_some hplace
    rw [regs_map_timer hplace haddr, regs_ioapicWrite64, if_neg, if_neg]
    · rfl
    · exact fun h => redir_ne_succ _ _ h.2
    · rintro ⟨rfl, hreg⟩
      exact h (hplace.trans (by rw [hreg]; rfl))

theorem not_masked_timerEntry (h : s.entry a reg = timerEntry) : ¬s.Masked a reg := by
  have hbit := congrArg (fun v => getLsbD v 16) h
  simp only [State.entry, getLsbD_or, getLsbD_shiftLeft, getLsbD_setWidth] at hbit
  simpa [State.Masked, timerEntry] using hbit

theorem timer_iff_prepared {place : Addr × Reg} (h : c.timerPlace = some place) :
    (ioapicMapGSI c (c.ioapics.foldl disableEntries s) c.timerGSI 0x20
        0xFF00000000000800).2.entry place.1 place.2 = timerEntry ↔
      (s.addr = 0 → place.1 ≠ 0 ∧ s.entry place.1 place.2 = timerEntry) := by
  obtain ⟨haddr, hothers, -⟩ := disabled_disableEntries s c.ioapics
  by_cases hzero : s.addr = 0
  · rw [State.entry, regs_map_timer_of_none (.inr (haddr.trans hzero)), ← State.entry]
    rw [hzero] at hothers
    by_cases hplace : place.1 = 0
    · refine iff_of_false (fun hentry => not_masked_timerEntry hentry ?_) (by simp [hzero, hplace])
      obtain ⟨-, io, hfind, rfl⟩ := timerPlace_eq_some h
      obtain ⟨hmem, hhas, -⟩ := mem_of_lookup hfind
      have hj : (c.timerGSI - io.startGSI).toNat < io.numGSIs.toNat := by
        rw [toNat_sub_startGSI hhas]
        exact Nat.sub_lt_left_of_lt_add hhas.1 hhas.2
      have hmask := (masked_disableEntries (s := s) hmem hj).mpr (.inl (hplace.trans hzero.symm))
      rwa [ofNat_toNat, setWidth_eq] at hmask
    · rw [State.entry, hothers _ hplace]
      exact ⟨fun hentry _ => ⟨hplace, hentry⟩, fun hprepared => (hprepared hzero).2⟩
  · rw [State.entry, regs_map_timer h (by rwa [haddr]), ← State.entry]
    exact iff_of_true entry_ioapicWrite64_self fun h => absurd h hzero

theorem initialised_iff_prepared :
    Initialised c (ioapicMapGSI c (c.ioapics.foldl disableEntries s) c.timerGSI 0x20
      0xFF00000000000800).2 ↔ Prepared c s := by
  constructor
  · rintro ⟨hmask, htimer⟩
    refine ⟨fun io hmem haddr j hj hplace => ?_, fun place h => (timer_iff_prepared h).mp (htimer place h)⟩
    have := (masked_map_timer hplace).mp (hmask io hmem j hj hplace)
    exact ((masked_disableEntries hmem hj).mp this).resolve_left haddr
  · rintro ⟨hmask, htimer⟩
    refine ⟨fun io hmem j hj hplace => ?_, fun place h => (timer_iff_prepared h).mpr (htimer place h)⟩
    rw [masked_map_timer hplace, masked_disableEntries hmem hj]
    exact or_iff_not_imp_left.mpr fun haddr => hmask io hmem haddr j hj hplace

/-- `IOAPIC_init` masks all entries but the one of the timer if and only if those that
`mp_IOAPIC_addr`, the address of the last IO-APIC that was parsed, does not lead to are masked
before. -/
theorem ioapicInit_initialised_iff (subs : List MadtIoapic) (s0 s : State) (c : Config)
    (hparse : subs.foldlM addIoapic ([], s0) = .ok (c.ioapics, s)) :
    (∀ sub, subs.getLast? = some sub → s.addr = sub.address) ∧
    ∃ s', ioapicInit c s = .ok s' ∧ (Initialised c s' ↔ Prepared c s) := by
  have hinit : ioapicInit c s = .ok (ioapicMapGSI c (c.ioapics.foldl disableEntries s) c.timerGSI
      0x20 0xFF00000000000800).2 := by
    rw [ioapicInit, irqToGSI_timer]
    rfl
  refine ⟨fun sub hlast => ?_, _, hinit, initialised_iff_prepared⟩
  · obtain ⟨before, rfl⟩ := List.getLast?_eq_some_iff.mp hlast
    rw [List.foldlM_append] at hparse
    obtain ⟨⟨ioapics, s1⟩, -, hsub⟩ := bind_eq_ok.mp hparse
    obtain ⟨parsed, hsub, hdone⟩ := bind_eq_ok.mp hsub
    cases hdone
    rw [addIoapic] at hsub
    split at hsub
    · cases hsub
    · obtain ⟨-, hsub⟩ := Prod.mk.inj (Except.ok.inj hsub)
      rw [← hsub]
      rfl

def unmasked (addr : Addr) : State :=
  ⟨addr, fun _ => 1, fun _ reg => if reg = 1 then 0x00170011 else 0⟩

theorem ioapicInit_initialised_iff_one :
    ∃ s s', [MadtIoapic.mk 2 0xFEC00000 0].foldlM addIoapic ([], unmasked 0) =
        .ok ((oneIoapic 0 24).ioapics, s) ∧
      ioapicInit (oneIoapic 0 24) s = .ok s' ∧ Initialised (oneIoapic 0 24) s' := by
  have hparse : [MadtIoapic.mk 2 0xFEC00000 0].foldlM addIoapic ([], unmasked 0) =
    .ok ((oneIoapic 0 24).ioapics, (unmasked 0xFEC00000).write (.regsel 1)) := rfl
  obtain ⟨-, s', hinit, hiff⟩ := ioapicInit_initialised_iff _ _ _ (oneIoapic 0 24) hparse
  refine ⟨_, s', hparse, hinit, hiff.mpr ⟨fun io hmem haddr => ?_, fun place _ hzero => ?_⟩⟩
  · rw [List.mem_singleton.mp hmem] at haddr
    exact absurd rfl haddr
  · exact absurd hzero (by decide)

def twoIoapics : Config :=
  ⟨false, [⟨2, 0xFEC00000, 0, 24⟩, ⟨3, 0xFEC10000, 24, 24⟩], [⟨0, 0, 2⟩], 0⟩

/-- Entry 5 of the first of two IO-APICs stays as it is. -/
theorem first_ioapic_stays_unmasked :
    ∃ s s', [⟨2, 0xFEC00000, 0⟩, ⟨3, 0xFEC10000, 24⟩].foldlM addIoapic ([], unmasked 0) =
        .ok (twoIoapics.ioapics, s) ∧
      ioapicInit twoIoapics s = .ok s' ∧ ¬s'.Masked 0xFEC00000 (redir 5) := by
  refine ⟨_, (ioapicMapGSI twoIoapics (twoIoapics.ioapics.foldl disableEntries _)
    twoIoapics.timerGSI 0x20 0xFF00000000000800).2, rfl, rfl, ?_⟩
  have hplace : twoIoapics.timerPlace ≠ some (0xFEC00000, redir (.ofNat 32 5)) := by decide
  have hfirst : (⟨2, 0xFEC00000, 0, 24⟩ : Info) ∈ twoIoapics.ioapics := List.mem_cons_self
  intro h
  have hmasked := (masked_disableEntries hfirst (by decide)).mp ((masked_map_timer hplace).mp h)
  exact absurd hmasked (not_or.mpr ⟨by decide, nofun⟩)

end Quest.Smp.Ioapic
