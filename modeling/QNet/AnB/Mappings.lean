import QNet.AnB.Buffers

/-!
# The DMA mappings of the AnB driver

`replay` keeps the books of the mapping of a device: it follows the calls of the driver, and stops
where a second bus address is mapped, where an address is unmapped that is not mapped, and where the
buffer or the array of a mapped address is freed.

A session is a device under calls of the driver in any order. `lawful_iff` says that its calls obey
these rules, that a failed `change_buffer` leaves the ring as it was and that nothing stays mapped
after `unregister_dma`, if and only if `set_buffer` gets memory for a new ring only while nothing is
mapped, and no mapping of the new ring fails while there was an old one.
-/

namespace QNet.AnB

/-- A bus address that the board may use, with the blocks it depends on. -/
structure Mapping where
  kernel : Block
  array : Block
  bus : UInt64
  deriving DecidableEq

/-- One call, if it obeys the rules. -/
def account (live : Option Mapping) : KernelCall → Option (Option Mapping)
  | .mapSingle kernel array _ _ bus =>
      if live.isSome then none else some (some ⟨kernel, array, bus⟩)
  | .unmapSingle bus _ => if live.any (fun m ↦ m.bus = bus) then some none else none
  | .kfree block =>
      if live.any (fun m ↦ m.kernel = block ∨ m.array = block) then none else some live
  | _ => some live

def replay (live : Option Mapping) (calls : List KernelCall) : Option (Option Mapping) :=
  calls.foldlM account live

inductive DmaCall
  | register (line : UInt32) (answers : Answers)
  | change (count : UInt32) (answers : Answers)
  | enable (bus : UInt64)
  | disable
  | interrupt (found dma : Bool) (bus : UInt64)
  | unregister
  deriving DecidableEq

/-- One call of the driver, its calls to the kernel and the board, and what it returns. -/
def Card.call (c : Card) : DmaCall → Card × List KernelCall × ℤ
  | .register line answers => c.registerDma line answers
  | .change count answers => c.changeBuffer count answers
  | .enable bus =>
      let enabled := c.dma.enableDma bus
      ({ c with dma := enabled.1 }, enabled.2)
  | .disable =>
      let disabled := c.dma.disableDma
      ({ c with dma := disabled.1 }, disabled.2)
  | .interrupt found dma bus =>
      let handled := c.dma.deviceHandler found dma bus
      ({ c with dma := handled.1 }, handled.2, 0)
  | .unregister =>
      let unregistered := c.dma.unregisterDma
      ({ c with dma := unregistered.1 }, unregistered.2, 0)

/-- A device and the books of its mapping; `none` where the rules have been broken. -/
structure Session where
  card : Card
  ledger : Option (Option Mapping)
  deriving DecidableEq

namespace Session

def next (s : Session) (e : DmaCall) : Session :=
  let called := s.card.call e
  ⟨called.1, s.ledger.bind (replay · called.2.1)⟩

/-- A device whose `dma_struct` has just been allocated. -/
def start : Session := ⟨⟨.zeroed, 0⟩, some none⟩

end Session

/-- The rules of the mapping, for one call of the driver. -/
structure Lawful (s : Session) (e : DmaCall) : Prop where
  /-- At most one address is mapped, every address is unmapped once, and before its blocks are
  freed. -/
  obeys : (s.next e).ledger.isSome = true
  /-- A failed `change_buffer` leaves the buffers, their sizes and the mapping. -/
  keeps : ∀ count answers, e = .change count answers → (s.card.call e).2.2 ≠ 0 →
    (s.next e).card.dma.region = s.card.dma.region
  released : e = .unregister → (s.next e).ledger = some none

/-- The mapped addresses in the array. -/
def Region.mappings (r : Region) : List Mapping :=
  (r.entries.filter (· ≠ 0)).map fun bus ↦ ⟨r.addressKernel, r.addressDma, bus⟩

def DmaStruct.mappings (s : DmaStruct) : List Mapping := s.region.elim [] Region.mappings

/-- A new ring is set up only while nothing is mapped, and its first buffer can be mapped if there
was a ring before. -/
def Replaceable (c : Card) : DmaCall → Prop
  | .register _ answers => c.Allocates anbBuffers answers → c.dma.mappings = []
  | .change count answers => c.Allocates count answers →
      c.dma.mappings = [] ∧ (answers.bus ≠ 0 ∨ c.dma.region = none)
  | _ => True

/-! ## The books follow the array -/

theorem replay_append (live : Option Mapping) (first second : List KernelCall) :
    replay live (first ++ second) = (replay live first).bind (replay · second) :=
  List.foldlM_append

/-- Blocks that no mapped address depends on may be freed. -/
theorem account_kfree {live : Option Mapping} {block : Block}
    (h : ∀ m ∈ live, m.kernel ≠ block ∧ m.array ≠ block) :
    account live (.kfree block) = some live := by
  have hfree : live.any (fun m ↦ m.kernel = block ∨ m.array = block) = false := by
    cases live with
    | none => rfl
    | some m => simpa using h m rfl
  rw [account, hfree]
  rfl

theorem Region.mappings_fresh (addressKernel : Block) (size : UInt32) (addressDma : Block)
    (buffers : UInt32) : (fresh addressKernel size addressDma buffers).mappings = [] := by
  rw [mappings, fresh, filter_replicate_zero]
  rfl

theorem Region.mappings_setEntry {r : Region} {active : UInt32} {bus : UInt64}
    (hactive : active < r.buffers) :
    (r.cleared.setEntry active bus).mappings =
      if bus = 0 then [] else [⟨r.addressKernel, r.addressDma, bus⟩] := by
  rw [mappings, filter_setEntry hactive]
  split <;> rfl

/-- The mapped address is the one in the array, and the blocks of the ring are old ones. -/
structure Tracks (region : Option Region) (allocated : ℕ) (live : Option Mapping) : Prop where
  mappings_eq : region.elim [] Region.mappings = live.toList
  kernel_lt : ∀ r ∈ region, r.addressKernel.id < allocated
  array_lt : ∀ r ∈ region, r.addressDma.id < allocated

/-- The calls obey the rules, and the books follow the array behind them. -/
def Accounts (live : Option Mapping) (calls : List KernelCall) (region : Option Region)
    (allocated : ℕ) : Prop :=
  ∃ after, replay live calls = some after ∧ Tracks region allocated after

section

variable {region region' : Option Region} {allocated allocated' : ℕ} {live : Option Mapping}
  {first second : List KernelCall}

theorem Accounts.append (hfirst : Accounts live first region allocated)
    (hsecond : ∀ after, Tracks region allocated after →
      Accounts after second region' allocated') :
    Accounts live (first ++ second) region' allocated' := by
  obtain ⟨middle, hreplay, htracks⟩ := hfirst
  obtain ⟨after, hreplay', htracks'⟩ := hsecond middle htracks
  refine ⟨after, ?_, htracks'⟩
  rw [replay_append, hreplay]
  exact hreplay'

namespace Tracks

theorem none (allocated : ℕ) : Tracks none allocated none := ⟨rfl, nofun, nofun⟩

theorem some {r : Region} (hmappings : r.mappings = live.toList)
    (hkernel : r.addressKernel.id < allocated) (harray : r.addressDma.id < allocated) :
    Tracks (.some r) allocated live := by
  refine ⟨hmappings, fun r' hr' ↦ ?_, fun r' hr' ↦ ?_⟩
  · rwa [← Option.mem_some.mp hr']
  · rwa [← Option.mem_some.mp hr']

theorem mono (h : Tracks region allocated live) (hle : allocated ≤ allocated') :
    Tracks region allocated' live where
  mappings_eq := h.mappings_eq
  kernel_lt r hr := (h.kernel_lt r hr).trans_le hle
  array_lt r hr := (h.array_lt r hr).trans_le hle

/-- The mapped address depends on the blocks of the ring. -/
theorem eq_of_some {m : Mapping} (h : Tracks region allocated (.some m)) :
    ∃ r, region = .some r ∧ r.mappings = [m] ∧ m.kernel = r.addressKernel ∧
      m.array = r.addressDma := by
  cases region with
  | none => exact absurd h.mappings_eq (List.cons_ne_nil _ _).symm
  | some r =>
    have hmappings : r.mappings = [m] := h.mappings_eq
    have hmem : m ∈ r.mappings := hmappings ▸ List.mem_singleton_self m
    obtain ⟨bus, _, rfl⟩ := List.mem_map.mp hmem
    exact ⟨r, rfl, hmappings, rfl, rfl⟩

/-- `unmap_all` unmaps the mapped address, if there is one. -/
theorem replay_unmaps {r : Region} (h : Tracks (.some r) allocated live) :
    replay live r.unmaps = .some Option.none := by
  have hunmaps : r.unmaps = r.mappings.map fun m ↦ .unmapSingle m.bus r.size := by
    rw [Region.unmaps, Region.mappings, List.map_map]
    rfl
  have hmappings : r.mappings = live.toList := h.mappings_eq
  rw [hunmaps, hmappings]
  cases live with
  | none => rfl
  | some m => simp [replay, account]

theorem setEntry {r : Region} (h : Tracks (.some r) allocated live) {active : UInt32}
    (bus : UInt64) (hactive : active < r.buffers) :
    Tracks (.some (r.cleared.setEntry active bus)) allocated
      (if bus = 0 then Option.none else .some ⟨r.addressKernel, r.addressDma, bus⟩) := by
  refine Tracks.some ?_ (h.kernel_lt r rfl) (h.array_lt r rfl)
  rw [Region.mappings_setEntry hactive]
  split <;> rfl

/-- A block that has just been allocated may be freed. -/
theorem account_kfree_new (h : Tracks region allocated live) (block : Block)
    (hblock : allocated ≤ block.id) : account live (.kfree block) = .some live := by
  apply account_kfree
  intro m hm
  obtain rfl := Option.mem_def.mp hm
  obtain ⟨r, hregion, _, hkernel, harray⟩ := h.eq_of_some
  have hkernelLt := h.kernel_lt r hregion
  have harrayLt := h.array_lt r hregion
  constructor
  · rintro rfl
    rw [← hkernel] at hkernelLt
    omega
  · rintro rfl
    rw [← harray] at harrayLt
    omega

end Tracks

/-! ## One function after the other -/

theorem mapActive_accounts (s : DmaStruct) (h : Tracks s.region allocated live) (active : UInt32)
    (bus : UInt64) :
    Accounts live (s.mapActive active bus).2.1 (s.mapActive active bus).1.region allocated := by
  by_cases hactive : active.toNat < 2 ^ 31 ∧ active < s.buffers
  · cases hregion : s.region with
    | none =>
      rw [DmaStruct.buffers, hregion] at hactive
      exact absurd hactive.2 UInt32.not_lt_zero
    | some r =>
      have hin : active.toNat < 2 ^ 31 ∧ active < r.buffers := by
        rwa [DmaStruct.buffers, hregion] at hactive
      rw [hregion] at h
      rw [s.mapActive_of_lt bus hregion hin]
      refine ⟨_, ?_, h.setEntry bus hin.2⟩
      rw [replay_append, h.replay_unmaps]
      split <;> rfl
  · rw [DmaStruct.mapActive_of_ge hactive]
    exact ⟨live, rfl, h⟩

/-- `unmap_all` and `unset_buffer` leave neither a mapping nor a ring. -/
theorem releases (s : DmaStruct) (h : Tracks s.region allocated live) :
    replay live (s.unmapAll.2 ++ s.unmapAll.1.unsetBuffer.2) = some none ∧
      s.unmapAll.1.unsetBuffer.1.region = none := by
  rw [replay_append, DmaStruct.unmapAll_eq, DmaStruct.unsetBuffer_eq]
  refine ⟨?_, rfl⟩
  cases hregion : s.region with
  | none =>
    rw [hregion] at h
    obtain rfl : live = none := Option.toList_eq_nil_iff.mp h.mappings_eq.symm
    rw [DmaStruct.unmaps, hregion]
    rfl
  | some r =>
    rw [hregion] at h
    rw [DmaStruct.unmaps, hregion, Option.elim_some, h.replay_unmaps]
    rfl

theorem deviceHandler_accounts {s : DmaStruct} (h : Tracks s.region allocated live)
    (found dma : Bool) (bus : UInt64) :
    Accounts live (s.deviceHandler found dma bus).2 (s.deviceHandler found dma bus).1.region
      allocated := by
  unfold DmaStruct.deviceHandler
  split
  · dsimp only
    split
    · split
      · exact ⟨live, rfl, h⟩
      · refine Accounts.append (mapActive_accounts _ ?_ _ bus)
          fun after hafter ↦ ⟨after, rfl, hafter⟩
        exact h
    · exact ⟨live, rfl, h⟩
  · exact ⟨live, rfl, h⟩

theorem enableDma_accounts {s : DmaStruct} (h : Tracks s.region allocated live) (bus : UInt64) :
    Accounts live (s.enableDma bus).2.1 (s.enableDma bus).1.region allocated := by
  unfold DmaStruct.enableDma
  split
  · exact ⟨live, rfl, h⟩
  · have hboards : Accounts live [.board .irq, .board (.enabled false)] s.region allocated :=
      ⟨live, rfl, h⟩
    have hmapped := Accounts.append hboards fun after hafter ↦
      mapActive_accounts { s with activeRead := 0 } hafter 0 bus
    exact Accounts.append hmapped fun after hafter ↦ ⟨after, rfl, hafter⟩

theorem disableDma_accounts {s : DmaStruct} (h : Tracks s.region allocated live) :
    Accounts live s.disableDma.2.1 s.disableDma.1.region allocated := by
  unfold DmaStruct.disableDma
  split
  · exact ⟨live, rfl, h⟩
  · exact ⟨live, rfl, h⟩

theorem unregisterDma_releases {s : DmaStruct} (h : Tracks s.region allocated live) :
    replay live s.unregisterDma.2 = some none ∧ s.unregisterDma.1.region = none := by
  obtain ⟨middle, hreplay, hmiddle⟩ := disableDma_accounts h
  unfold DmaStruct.unregisterDma
  dsimp only
  split
  · have hreleases := releases { s.disableDma.1 with irq := -1 } hmiddle
    refine ⟨?_, hreleases.2⟩
    rw [List.append_assoc, List.append_assoc, replay_append, hreplay]
    exact hreleases.1
  · have hreleases := releases s.disableDma.1 hmiddle
    refine ⟨?_, hreleases.2⟩
    rw [List.append_assoc, replay_append, List.append_nil, hreplay]
    exact hreleases.1

section SetBuffer

variable {c : Card} {size count : UInt32} {answers : Answers}

theorem setBuffer_refused (size : UInt32) (h : Tracks c.dma.region c.allocated live)
    (hallocates : ¬ c.Allocates count answers) :
    Accounts live (c.setBuffer size count answers).2.1 (c.setBuffer size count answers).1.dma.region
      (c.setBuffer size count answers).1.allocated := by
  obtain ⟨allocated', calls, retval, heq, _, _, hle, hcalls⟩ :=
    Card.setBuffer_of_not_allocates size hallocates
  rw [heq]
  refine ⟨live, ?_, h.mono hle⟩
  rcases hcalls with rfl | rfl
  · rfl
  · have hfree := h.account_kfree_new (c.newKernel size count) le_rfl
    rw [replay, List.foldlM_cons]
    change (account live (.kfree (c.newKernel size count))).bind _ = _
    rw [hfree]
    rfl

theorem setBuffer_accounts (hsize : size ≠ 0) (hallocates : c.Allocates count answers) :
    Accounts none (c.setBuffer size count answers).2.1 (c.setBuffer size count answers).1.dma.region
      (c.setBuffer size count answers).1.allocated := by
  have hreplace : replay none (c.replaceCalls size count) = some none := by
    rw [Card.replaceCalls, DmaStruct.frees]
    cases c.dma.region <;> rfl
  have hfirst : 0 < (c.newRegion size count).buffers :=
    UInt32.lt_of_lt_of_le (by decide) hallocates.2.1
  rw [Card.setBuffer_of_allocates hsize hallocates]
  split
  · refine ⟨none, ?_, .none _⟩
    rw [replay_append, hreplace]
    rfl
  · have hnew : Tracks (some (c.newRegion size count)) (c.allocated + 2) none :=
      .some (Region.mappings_fresh ..) (Nat.lt_succ_of_lt (Nat.lt_succ_self _)) (Nat.lt_succ_self _)
    rename_i hbus
    have htracks := hnew.setEntry answers.bus hfirst
    rw [if_neg hbus] at htracks
    refine ⟨_, ?_, htracks⟩
    rw [replay_append, hreplace]
    rfl

/-- A ring of which a buffer is mapped must not be replaced. -/
theorem setBuffer_breaks (hsize : size ≠ 0) {m : Mapping}
    (h : Tracks c.dma.region c.allocated (some m)) (hallocates : c.Allocates count answers) :
    replay (some m) (c.setBuffer size count answers).2.1 = none := by
  obtain ⟨r, hregion, _, hkernel, _⟩ := h.eq_of_some
  have hbroken : replay (some m) (c.replaceCalls size count) = none := by
    rw [Card.replaceCalls, DmaStruct.frees, hregion]
    simp [replay, account, hkernel]
  rw [Card.setBuffer_of_allocates hsize hallocates]
  split
  · rw [replay_append, hbroken]
    rfl
  · rw [replay_append, hbroken]
    rfl

/-- `register_dma` goes on from where `set_buffer` has left off. -/
theorem registerDma_accounts (line : UInt32)
    (h : Accounts live (c.registerSet answers).2.1 (c.registerSet answers).1.dma.region
      (c.registerSet answers).1.allocated) :
    Accounts live (c.registerDma line answers).2.1 (c.registerDma line answers).1.dma.region
      (c.registerDma line answers).1.allocated := by
  by_cases hset : (c.registerSet answers).2.2 = 0
  · rw [Card.registerDma_of_set hset]
    dsimp only
    split
    · rw [List.append_assoc]
      refine Accounts.append h fun after hafter ↦ ?_
      obtain ⟨hreplay, hnone⟩ := releases _ hafter
      refine ⟨none, hreplay, ?_⟩
      rw [hnone]
      exact .none _
    · exact Accounts.append h fun after hafter ↦ ⟨after, rfl, hafter⟩
  · rw [Card.registerDma_of_refused hset]
    exact h

theorem registerDma_breaks (line : UInt32)
    (h : replay live (c.registerSet answers).2.1 = none) :
    replay live (c.registerDma line answers).2.1 = none := by
  by_cases hset : (c.registerSet answers).2.2 = 0
  · rw [Card.registerDma_of_set hset]
    dsimp only
    split
    · rw [List.append_assoc, replay_append, h]
      rfl
    · rw [replay_append, h]
      rfl
  · rw [Card.registerDma_of_refused hset]
    exact h

end SetBuffer

end

/-! ## Sessions -/

namespace Session

variable {s : Session} {e : DmaCall}

/-- The rules have been obeyed so far. -/
def Kept (s : Session) : Prop :=
  ∃ live, s.ledger = some live ∧ Tracks s.card.dma.region s.card.allocated live

theorem kept_start : start.Kept := ⟨none, rfl, .none 0⟩

theorem kept_next {live : Option Mapping} (hledger : s.ledger = some live)
    (h : Accounts live (s.card.call e).2.1 (s.card.call e).1.dma.region
      (s.card.call e).1.allocated) : (s.next e).Kept := by
  obtain ⟨after, hreplay, htracks⟩ := h
  refine ⟨after, ?_, htracks⟩
  rw [next, hledger]
  exact hreplay

theorem Kept.next (hs : s.Kept) (h : Replaceable s.card e) : (s.next e).Kept := by
  obtain ⟨live, hledger, htracks⟩ := hs
  have hidle (hmappings : s.card.dma.mappings = []) : live = none :=
    Option.toList_eq_nil_iff.mp (htracks.mappings_eq.symm.trans hmappings)
  have hsize : bufferMinSize ≠ 0 := by decide
  apply kept_next hledger
  cases e with
  | register line answers =>
    apply registerDma_accounts
    by_cases hallocates : s.card.Allocates anbBuffers answers
    · obtain rfl := hidle (h hallocates)
      exact setBuffer_accounts hsize hallocates
    · exact setBuffer_refused (c := { s.card with dma.irq := -1 }) bufferMinSize htracks hallocates
  | change count answers =>
    by_cases hallocates : s.card.Allocates count answers
    · obtain rfl := hidle (h hallocates).1
      exact setBuffer_accounts hsize hallocates
    · exact setBuffer_refused bufferMinSize htracks hallocates
  | enable bus => exact enableDma_accounts htracks bus
  | disable => exact disableDma_accounts htracks
  | interrupt found dma bus => exact deviceHandler_accounts htracks found dma bus
  | unregister =>
    obtain ⟨hreplay, hnone⟩ := unregisterDma_releases htracks
    refine ⟨none, hreplay, ?_⟩
    rw [Card.call, hnone]
    exact .none _

/-- A `change_buffer` that gets its blocks fails only where the mapping of the new ring fails, and
then there is no ring. -/
theorem changeBuffer_fails {c : Card} {count : UInt32} {answers : Answers}
    (hallocates : c.Allocates count answers) :
    ((c.changeBuffer count answers).2.2 ≠ 0 ↔ answers.bus = 0) ∧
      (answers.bus = 0 → (c.changeBuffer count answers).1.dma.region = none) := by
  have hsize : bufferMinSize ≠ 0 := by decide
  have hdone : (c.changeBuffer count answers).2.2 = 0 ↔ answers.bus ≠ 0 :=
    (Card.setBuffer_done_iff hsize).trans (and_iff_right hallocates)
  refine ⟨hdone.not.trans not_not, fun hbus ↦ ?_⟩
  rw [Card.changeBuffer, Card.setBuffer_of_allocates hsize hallocates, if_pos hbus]

theorem lawful_of_replaceable (hs : s.Kept) (h : Replaceable s.card e) : Lawful s e := by
  obtain ⟨after, hafter, _⟩ := hs.next h
  obtain ⟨live, hledger, htracks⟩ := hs
  refine ⟨by rw [hafter]; rfl, ?_, ?_⟩
  · rintro count answers rfl hfails
    by_cases hallocates : s.card.Allocates count answers
    · have hbus := (changeBuffer_fails hallocates).1.mp hfails
      have hnone := (h hallocates).2.resolve_left (not_not.mpr hbus)
      exact ((changeBuffer_fails hallocates).2 hbus).trans hnone.symm
    · obtain ⟨_, _, _, heq, _⟩ := Card.setBuffer_of_not_allocates bufferMinSize hallocates
      exact congrArg (fun result ↦ result.1.dma.region) heq
  · rintro rfl
    rw [next, hledger]
    exact (unregisterDma_releases htracks).1

theorem replaceable_of_lawful (hs : s.Kept) (h : Lawful s e) : Replaceable s.card e := by
  obtain ⟨live, hledger, htracks⟩ := hs
  have hsize : bufferMinSize ≠ 0 := by decide
  have hobeys : (replay live (s.card.call e).2.1).isSome = true := by
    have hledger' := h.obeys
    rwa [next, hledger] at hledger'
  have hidle (hbreaks : ∀ m, live = some m → replay live (s.card.call e).2.1 = none) :
      s.card.dma.mappings = [] := by
    cases live with
    | none => exact htracks.mappings_eq
    | some m =>
      rw [hbreaks m rfl] at hobeys
      exact absurd hobeys Bool.false_ne_true
  cases e with
  | register line answers =>
    intro hallocates
    apply hidle
    rintro m rfl
    apply registerDma_breaks
    exact setBuffer_breaks hsize htracks hallocates
  | change count answers =>
    intro hallocates
    refine ⟨hidle ?_, ?_⟩
    · rintro m rfl
      exact setBuffer_breaks hsize htracks hallocates
    · by_cases hbus : answers.bus = 0
      · have hkept := h.keeps count answers rfl ((changeBuffer_fails hallocates).1.mpr hbus)
        exact .inr (hkept.symm.trans ((changeBuffer_fails hallocates).2 hbus))
      · exact .inl hbus
  | enable bus => trivial
  | disable => trivial
  | interrupt found dma bus => trivial
  | unregister => trivial

/-- The mapping is handled by the rules in a session if and only if a new ring is set up only while
nothing is mapped, and none fails to be mapped that replaces another. -/
theorem lawful_iff (calls : List DmaCall) :
    (∀ before e, before ++ [e] <+: calls → Lawful (before.foldl next start) e) ↔
      ∀ before e, before ++ [e] <+: calls → Replaceable (before.foldl next start).card e :=
  foldl_steps_iff (C := fun s e ↦ Replaceable s.card e) kept_start
    (fun _ _ hs ↦ ⟨replaceable_of_lawful hs, lawful_of_replaceable hs⟩)
    (fun _ _ hs h ↦ hs.next h) calls

/-- `DMASetBufferSize` on a registered device frees the buffer that is mapped. -/
theorem not_lawful_change :
    ¬ ∀ calls before e, before ++ [e] <+: calls → Lawful (before.foldl next start) e := by
  intro hall
  let answers : Answers := ⟨true, true, 4096, 0⟩
  have h := (hall [.register 16 answers, .change 4 answers] [.register 16 answers]
    (.change 4 answers) (List.prefix_refl _)).obeys
  exact absurd h (by decide)

end Session

end QNet.AnB
