import Quest.Mem.Pow2Runs

/-! The power-of-two allocator when the suppliers of frames and windows fail. -/
namespace Quest.Mem.Pow2

open Quest.Lib Memory State

structure Grant.Fails (g : Grant) (s : State) : Prop where
  fresh : g.fresh = false
  outside : g.va / 4096 ∉ s.pages

def Answered (s : State) (c : Call × Supply) : Prop :=
  match c.1 with
  | .alloc size =>
      (s.NeedsRegion (computeIndex size) →
        c.2.region.Fresh s maxPowFrames ∨ c.2.region.Fails s) ∧
      (s.NeedsTable → c.2.used.Fresh s (s.usedTablePages + 1) ∨ c.2.used.Fails s) ∧
      (s.NeedsRegion (computeIndex size) → s.NeedsTable →
        c.2.region.va + 4096 * maxPowFrames ≤ c.2.used.va ∨
          c.2.used.va + 4096 * (s.usedTablePages + 1) ≤ c.2.region.va)
  | .free ptr => s.NeedsPage ptr → c.2.page.Fresh s 1 ∨ c.2.page.Fails s

def Starved (s : State) (c : Call × Supply) : Prop :=
  match c.1 with
  | .alloc size =>
      s.NeedsRegion (computeIndex size) ∧ c.2.region.Fails s ∨
      s.NeedsTable ∧ c.2.used.Fails s ∨
      (s.NeedsTable ∨ s.Releases (computeIndex size)) ∧ c.2.window = false
  | .free ptr => s.NeedsPage ptr ∧ c.2.page.Fails s

/-- The call stays in the allocator's memory, and an allocation that a supplier fails
returns NULL with the bookkeeping unchanged. -/
def Handles (s : State) (c : Call × Supply) : Prop :=
  match c.1 with
  | .alloc size => ∃ index ptr s', alloc s c.2 size = .ok ((index, ptr), s') ∧
      (Starved s c → ptr = 0 ∧ s'.freeBlocks = s.freeBlocks ∧ s'.usedBlocks = s.usedBlocks)
  | .free ptr => ∃ s', free s c.2 ptr = .ok s'

/-- All that the call clears in the end is the allocator's. -/
def ClearsOwn (s : State) (c : Call × Supply) : Prop :=
  match c.1 with
  | .alloc size => ∀ ptr s₁ s₂, getFreeBlock c.2 (maxPow - computeIndex size) s = .ok (ptr, s₁) →
      s₁.insertUsedTable c.2 ptr (computeIndex size) = .ok s₂ → s₂.Mapped ptr size
  | .free _ => True

variable {s s' : State} {c : Call × Supply} {supply : Supply} {ptr size fuel h n : Nat}

/-! No call on the free blocks touches the count of used blocks. -/

theorem store_keeps {va : Nat} {bytes : Nat → UInt8} (hok : s.store va bytes n = .ok s') :
    s'.usedCount = s.usedCount ∧ s'.pages = s.pages ∧ s'.table = s.table := by
  rw [store] at hok
  split at hok
  · cases hok
    exact ⟨rfl, rfl, rfl⟩
  · cases hok

theorem acquire_usedCount (g : Grant) : (s.acquire g n).usedCount = s.usedCount := by
  rw [acquire]
  split
  · rfl
  · rfl

theorem addToHeader_usedCount (hok : addToHeader supply ptr fuel h s = .ok s') :
    s'.usedCount = s.usedCount := by
  induction fuel generalizing h s with
  | zero => cases hok
  | succ fuel ih =>
    obtain ⟨count, _, hok⟩ := bind_eq_ok.mp hok
    split at hok
    · obtain ⟨s1, hptr, hcount⟩ := bind_eq_ok.mp hok
      rw [(store_keeps hcount).1, (store_keeps hptr).1]
    · obtain ⟨next, _, hok⟩ := bind_eq_ok.mp hok
      split at hok
      · exact ih hok
      · obtain ⟨s1, hnext, hok⟩ := bind_eq_ok.mp hok
        obtain ⟨s2, hclear, hok⟩ := bind_eq_ok.mp hok
        rw [ih hok, (store_keeps hclear).1, (store_keeps hnext).1, acquire_usedCount]

theorem addFreeBlock_eq_ok {index : Nat} (hok : s.addFreeBlock supply ptr index = .ok s') :
    addToHeader supply ptr (s.pages.length + 2) (s.table (index - minPow)) s = .ok s' := by
  rw [addFreeBlock] at hok
  split at hok
  · cases hok
  · exact hok

theorem takeBlock_usedCount {prev hdr count : Nat}
    (hok : s.takeBlock supply prev hdr count = .ok (ptr, s')) : s'.usedCount = s.usedCount := by
  obtain ⟨s1, hcount, hok⟩ := bind_eq_ok.mp hok
  obtain ⟨p, _, hok⟩ := bind_eq_ok.mp hok
  split at hok
  · obtain ⟨_, _, hok⟩ := bind_eq_ok.mp hok
    obtain ⟨s2, hprev, hok⟩ := bind_eq_ok.mp hok
    cases hok
    show s2.usedCount = s.usedCount
    rw [(store_keeps hprev).1, (store_keeps hcount).1]
  · cases hok
    exact (store_keeps hcount).1

theorem getFreeBlock_usedCount {d : Nat} (hok : getFreeBlock supply d s = .ok (ptr, s')) :
    s'.usedCount = s.usedCount := by
  induction d generalizing s s' ptr with
  | zero =>
    obtain ⟨⟨prev, hdr, count⟩, _, hok⟩ := bind_eq_ok.mp hok
    dsimp only at hok
    split at hok
    · cases hok
      exact acquire_usedCount supply.region
    · exact takeBlock_usedCount hok
  | succ d ih =>
    obtain ⟨⟨prev, hdr, count⟩, _, hok⟩ := bind_eq_ok.mp hok
    dsimp only at hok
    split at hok
    · obtain ⟨⟨ptr1, s1⟩, hget, hok⟩ := bind_eq_ok.mp hok
      obtain ⟨s2, hadd, hok⟩ := bind_eq_ok.mp hok
      cases hok
      rw [addToHeader_usedCount (addFreeBlock_eq_ok hadd), ih hget]
    · exact takeBlock_usedCount hok

theorem ensureUsedTable_usedCount (hok : s.ensureUsedTable supply = .ok s') :
    s'.usedCount = s.usedCount := by
  rw [ensureUsedTable] at hok
  split at hok
  · obtain ⟨s1, hcopy, hok⟩ := bind_eq_ok.mp hok
    obtain ⟨_, _, hok⟩ := bind_eq_ok.mp hok
    cases hok
    rw [memcpy] at hcopy
    split at hcopy
    · show s1.usedCount = s.usedCount
      rw [(store_keeps hcopy).1, acquire_usedCount]
    · cases hcopy
  · cases hok
    rfl

theorem alloc_usedCount {r : Nat × Nat} (hok : alloc s supply size = .ok (r, s')) :
    s'.usedCount = s.usedCount + 1 := by
  obtain ⟨⟨ptr, s1⟩, hget, hok⟩ := bind_eq_ok.mp hok
  obtain ⟨s2, hins, hok⟩ := bind_eq_ok.mp hok
  obtain ⟨s3, hclear, hok⟩ := bind_eq_ok.mp hok
  cases hok
  obtain ⟨s4, hensure, hins⟩ := bind_eq_ok.mp hins
  obtain ⟨s5, hentry, hins⟩ := bind_eq_ok.mp hins
  cases hins
  have hcount : s5.usedCount = s.usedCount := by
    rw [(store_keeps hentry).1, ensureUsedTable_usedCount hensure, getFreeBlock_usedCount hget]
  rw [(store_keeps hclear).1]
  rw [hcount]

theorem removeFrom_pages {rounds i : Nat} {r : Option Nat}
    (hok : s.removeFrom ptr rounds i = .ok (r, s')) : s'.pages = s.pages := by
  induction rounds generalizing i with
  | zero =>
    cases hok
    rfl
  | succ rounds ih =>
    obtain ⟨e, _, hok⟩ := bind_eq_ok.mp hok
    split at hok
    · obtain ⟨last, _, hok⟩ := bind_eq_ok.mp hok
      obtain ⟨s1, hmove, hok⟩ := bind_eq_ok.mp hok
      obtain ⟨s2, hclear, hok⟩ := bind_eq_ok.mp hok
      cases hok
      rw [(store_keeps hclear).2.1, (store_keeps hmove).2.1]
    · exact ih hok

theorem memset_outside (hout : h / 4096 ∉ s.pages) (hn : 0 < n) (byte : UInt8) :
    s.memset h byte n ≠ .ok s' := by
  intro hok
  rw [memset, store] at hok
  split at hok
  · rename_i hmap
    rcases hmap with hzero | hpages
    · omega
    · exact hout (hpages _ (by rw [pagesAt, List.mem_range'_1]; omega))
  · cases hok

theorem load32_eq_ok {va v : Nat} (hok : s.load32 va = .ok v) : v = word s.mem va := by
  rw [load32] at hok
  split at hok
  · cases hok
    rfl
  · cases hok

theorem addToHeader_starved (hfull : s.fullFrom n h = true) (hpage : supply.page.Fails s) :
    addToHeader supply ptr fuel h s ≠ .ok s' := by
  induction n generalizing h fuel with
  | zero => cases hfull
  | succ n ih =>
    cases fuel with
    | zero => nofun
    | succ fuel =>
      intro hok
      rw [State.fullFrom, Bool.and_eq_true, Bool.or_eq_true, decide_eq_true_iff,
        decide_eq_true_iff] at hfull
      obtain ⟨hcount, hnext⟩ := hfull
      obtain ⟨count, hload, hok⟩ := bind_eq_ok.mp hok
      rw [load32_eq_ok hload, if_neg (not_lt.mpr hcount)] at hok
      obtain ⟨next, hload, hok⟩ := bind_eq_ok.mp hok
      rw [load32_eq_ok hload] at hok
      split at hok
      · rename_i hne
        exact ih (hnext.resolve_left hne) hok
      · obtain ⟨s1, hstore, hok⟩ := bind_eq_ok.mp hok
        obtain ⟨s2, hclear, _⟩ := bind_eq_ok.mp hok
        rw [acquire, if_neg (by simp [hpage.fresh])] at hstore
        refine memset_outside ?_ (by omega) 0 hclear
        rw [(store_keeps hstore).2.1]
        exact hpage.outside

theorem free_starved (hpage : s.NeedsPage ptr) (hfails : supply.page.Fails s) :
    free s supply ptr ≠ .ok s' := by
  obtain ⟨index, s1, hrem, hfull⟩ := hpage
  intro hok
  rw [free, hrem, ok_bind] at hok
  refine addToHeader_starved hfull ⟨hfails.fresh, ?_⟩ (addFreeBlock_eq_ok hok)
  rw [removeFrom_pages hrem]
  exact hfails.outside

theorem not_handles_of_starved (hstarve : Starved s c) : ¬Handles s c := by
  obtain ⟨call, supply⟩ := c
  cases call with
  | alloc size =>
    rintro ⟨index, ptr, s', hok, hreported⟩
    have hlen := congrArg List.length (hreported hstarve).2.2
    rw [usedBlocks, usedBlocks, List.length_map, List.length_map, List.length_range,
      List.length_range, alloc_usedCount hok] at hlen
    omega
  | free ptr =>
    rintro ⟨s', hok⟩
    exact free_starved hstarve.1 hstarve.2 hok

theorem supplied_of_answered (hanswered : Answered s c) (hfed : ¬Starved s c) : Supplied s c := by
  obtain ⟨call, supply⟩ := c
  cases call with
  | alloc size =>
    obtain ⟨hreg, htable, hapart⟩ := hanswered
    refine ⟨fun hneeds => ?_, fun hneeds => ?_, fun hneeds => ?_, hapart⟩
    · by_contra hwindow
      exact hfed (.inr (.inr ⟨hneeds, by simpa using hwindow⟩))
    · exact (hreg hneeds).resolve_right fun hfails => hfed (.inl ⟨hneeds, hfails⟩)
    · exact (htable hneeds).resolve_right fun hfails => hfed (.inr (.inl ⟨hneeds, hfails⟩))
  | free ptr => exact fun hneeds => (hanswered hneeds).resolve_right fun hfails => hfed ⟨hneeds, hfails⟩

theorem State.Valid.clearsOwn (h : s.Valid) (hsup : Supplied s c) (hfits : c.1.Fits) :
    ClearsOwn s c := by
  obtain ⟨call, supply⟩ := c
  cases call with
  | free ptr => trivial
  | alloc size =>
    intro ptr s1 s2 hget hins
    obtain ⟨own, hs, used, hinv⟩ := h
    obtain ⟨ptr', s1', s2', own2, hs2, hget', hins', hinv2, _⟩ := hinv.reserve hsup
    rw [hget] at hget'
    cases hget'
    rw [hins] at hins'
    cases hins'
    exact hinv2.mapped_used (b := (ptr, computeIndex size)) (by simp) (le_computeIndex hfits)

theorem State.Valid.handles (h : s.Valid) (hsup : Supplied s c) (hclears : ClearsOwn s c)
    (hfed : ¬Starved s c) : Handles s c := by
  obtain ⟨own, hs, used, hinv⟩ := h
  obtain ⟨call, supply⟩ := c
  cases call with
  | alloc size =>
    obtain ⟨ptr, s1, s2, _, _, hget, hins, _⟩ := hinv.reserve hsup
    have hmap := hclears ptr s1 s2 hget hins
    have hok : alloc s supply size =
        .ok ((computeIndex size, ptr), s2.setMem (blit s2.mem ptr (fun _ => 0) size)) := by
      rw [alloc_of_reserved hget hins, memset, store_mapped hmap]
      rfl
    exact ⟨computeIndex size, ptr, _, hok, fun hstarve => absurd hstarve hfed⟩
  | free ptr =>
    obtain ⟨s', _, _, _, hok, _⟩ := hinv.free_spec hsup
    exact ⟨s', hok⟩

/-- A call is handled if and only if no supplier that it turns to fails and what it clears
is the allocator's, as it is for every request of at most 64 KiB. -/
theorem pow2_handles_exhaustion (hvalid : s.Valid) (hanswered : Answered s c) :
    (Handles s c ↔ ¬Starved s c ∧ ClearsOwn s c) ∧
    (c.1.Fits → ¬Starved s c → ClearsOwn s c) := by
  refine ⟨⟨fun hhandles => ⟨fun hstarved => not_handles_of_starved hstarved hhandles, ?_⟩, ?_⟩, ?_⟩
  · obtain ⟨call, supply⟩ := c
    cases call with
    | free ptr => trivial
    | alloc size =>
      intro ptr s₁ s₂ hget hinsert
      obtain ⟨index, p, s', hok, _⟩ := hhandles
      rw [alloc_of_reserved hget hinsert, memset, store] at hok
      split at hok
      · assumption
      · cases hok
  · rintro ⟨hfed, hclears⟩
    exact hvalid.handles (supplied_of_answered hanswered hfed) hclears hfed
  · intro hfits hfed
    exact hvalid.clearsOwn (supplied_of_answered hanswered hfed) hfits

theorem booted_valid : booted.Valid := valid_of_init boot_grants init_booted

theorem booted_roomy : ¬booted.NeedsTable := by
  rw [NeedsTable]
  decide +kernel

theorem pow2_handles_exhaustion_first_alloc : Handles booted (.alloc 100, bootSupply) := by
  have hsupplied := supplied_booted 100
  have hanswered : Answered booted (.alloc 100, bootSupply) :=
    ⟨fun hneeds => .inl (hsupplied.2.1 hneeds), fun hneeds => absurd hneeds booted_roomy,
      hsupplied.2.2.2⟩
  have hfed : ¬Starved booted (.alloc 100, bootSupply) := by
    rintro (⟨_, hfails⟩ | ⟨hneeds, _⟩ | ⟨_, hwindow⟩)
    · exact absurd hfails.fresh (by decide)
    · exact booted_roomy hneeds
    · exact absurd hwindow (by decide)
  obtain ⟨hiff, hclears⟩ := pow2_handles_exhaustion booted_valid hanswered
  exact hiff.mpr ⟨hfed, hclears (show 100 ≤ maxSize by decide) hfed⟩

def noSupply : Supply := ⟨⟨0, false⟩, ⟨0, false⟩, ⟨0, false⟩, false⟩

/-- The first allocation without memory clears foreign bytes; one of no bytes records a block
of the NULL region. -/
theorem pow2_alloc_records_null_block :
    booted.Valid ∧ Starved booted (.alloc 100, noSupply) ∧ Answered booted (.alloc 100, noSupply) ∧
    alloc booted noSupply 100 = .error .outOfBounds ∧ ¬Handles booted (.alloc 100, noSupply) ∧
    (alloc booted noSupply 0).toOption.map (fun r => (r.1, r.2.usedBlocks)) =
      some ((5, 0xFFE0), [⟨0xFFE0, 32⟩]) := by
  have hneeds : booted.NeedsRegion (computeIndex 100) := by
    rw [NeedsRegion]
    decide +kernel
  have hfails : noSupply.region.Fails booted := by
    refine ⟨rfl, ?_⟩
    rw [booted_pages]
    decide
  have hstarved : Starved booted (.alloc 100, noSupply) := .inl ⟨hneeds, hfails⟩
  have hfault : (match alloc booted noSupply 100 with
      | .error fault => decide (fault = .outOfBounds)
      | .ok _ => false) = true := by decide +kernel
  refine ⟨booted_valid, hstarved, ⟨fun _ => .inr hfails, fun h => absurd h booted_roomy,
    fun _ h => absurd h booted_roomy⟩, ?_, not_handles_of_starved hstarved, by decide +kernel⟩
  split at hfault
  · rename_i fault hcall
    rw [hcall, of_decide_eq_true hfault]
  · cases hfault

end Quest.Mem.Pow2
