import QNet.Lib.Machine
import QNet.Lib.RingIndex

/-!
# The DMA ring of the AnB driver

The board fills the buffers of a ring one after the other; a completion interrupt makes the driver
go on to the next buffer, and the user takes a full buffer with `DMARollBuffer`. `active_write` is
the buffer the board fills and `active_read` the one the user takes next; the user waits while they
are equal.

An interrupt may arrive while a call of `DMARollBuffer` is behind its loop and has not moved
`active_read` yet, so the call is two steps here. All calls but the interrupt hold the semaphore.

When the last free buffer has been filled the indices are equal, so a full ring passes for an empty
one, and the flag `dma_suspended` is never cleared. `protocol_iff` says that the driver counts its
buffers correctly if and only if this does not happen.
-/

namespace QNet.AnB

open RingIndex

/-- `struct dma_struct`. -/
structure Dma where
  buffers : ℕ
  activeWrite : ℕ
  activeRead : ℕ
  dmaSuspended : Bool
  dmaStarted : Bool
  handled : UInt32
  suspended : UInt32
  deriving DecidableEq

/-- What the driver does besides its variables. -/
inductive Effect
  /-- The address and size of a buffer in `RegAddr_l`, `RegAddr_h` and `RegSize`. -/
  | address (buffer : ℕ)
  /-- The interrupt is acknowledged in `RegIRQ`. -/
  | irq
  /-- `RegDMA`. -/
  | enabled (on : Bool)
  | wakeUp
  deriving DecidableEq

/-- `map_active`, when the bus address of the buffer can be had. -/
def mapActive (s : Dma) (active : ℕ) : Dma × List Effect :=
  if active < s.buffers then ({ s with activeWrite := active }, [.address active]) else (s, [])

/-- `set_buffer` on the zeroed structure. -/
def setBuffer (buffers : ℕ) : Dma :=
  (mapActive ⟨buffers, 0, 0, false, false, 0, 0⟩ 0).1

/-- `DeviceHandler`; `dma` is the bit of `RegIRQ`. -/
def deviceHandler (s : Dma) (dma : Bool) : Dma × List Effect :=
  if dma && s.dmaStarted then
    let s := { s with handled := s.handled + 1 }
    if !s.dmaSuspended then
      let s := { s with activeWrite := nextPlace s.buffers s.activeWrite }
      if s.activeWrite = s.activeRead then ({ s with dmaSuspended := true }, [])
      else
        let mapped := mapActive s s.activeWrite
        (mapped.1, mapped.2 ++ [.irq, .enabled false, .enabled true, .wakeUp])
    else ({ s with suspended := s.suspended + 1 }, [])
  else (s, [])

/-- `enable_dma`; `none` is `-EINVAL`. -/
def enableDma (s : Dma) : Option (Dma × List Effect) :=
  if s.dmaStarted then none
  else
    let mapped := mapActive { s with activeRead := 0 } 0
    some ({ mapped.1 with dmaStarted := true },
      [.irq, .enabled false] ++ mapped.2 ++ [.enabled true])

/-- `disable_dma`; `none` is `-EINVAL`. -/
def disableDma (s : Dma) : Option (Dma × List Effect) :=
  if !s.dmaStarted then none else some ({ s with dmaStarted := false }, [.enabled false])

/-- The condition of the loop in `DMARollBuffer`. -/
def rollWaits (s : Dma) : Bool := s.activeRead == s.activeWrite

/-- `DMARollBuffer` behind its loop. -/
def rollBuffer (s : Dma) : Dma :=
  { s with activeRead := nextPlace s.buffers s.activeRead, suspended := 0 }

/-- Whether `poll` reports the device readable. -/
def pollReadable (s : Dma) : Bool := s.activeRead != s.activeWrite

/-! ## Runs -/

/-- The device, whether a call of `DMARollBuffer` is behind its loop, and since `DMAEnable` the
completion interrupts that moved `active_write` and the completed rolls. -/
structure Driver where
  dma : Dma
  rolling : Bool
  advanced : ℕ
  rolled : ℕ
  deriving DecidableEq

inductive Event
  | interrupt (dma : Bool)
  | rollCheck
  | rollAdvance
  | enable
  | disable
  deriving DecidableEq

namespace Driver

def filled (s : Driver) : ℤ := s.advanced - s.rolled

def interrupt (s : Driver) (dma : Bool) : Driver :=
  let handled := (deviceHandler s.dma dma).1
  { s with
    dma := handled
    advanced := if handled.activeWrite = s.dma.activeWrite then s.advanced else s.advanced + 1 }

def enable (s : Driver) : Driver :=
  match enableDma s.dma with
  | none => s
  | some enabled => { s with dma := enabled.1, advanced := 0, rolled := 0 }

def disable (s : Driver) : Driver :=
  match disableDma s.dma with
  | none => s
  | some disabled => { s with dma := disabled.1 }

/-- One event. A call that waits, for the semaphore or for a buffer, changes nothing. -/
def next (s : Driver) : Event → Driver
  | .interrupt dma => s.interrupt dma
  | .rollCheck => if s.rolling || rollWaits s.dma then s else { s with rolling := true }
  | .rollAdvance =>
      if s.rolling then
        { s with dma := rollBuffer s.dma, rolling := false, rolled := s.rolled + 1 }
      else s
  | .enable => if s.rolling then s else s.enable
  | .disable => if s.rolling then s else s.disable

/-- The driver after `DMAEnable`. -/
def start (buffers : ℕ) : Driver := enable ⟨setBuffer buffers, false, 0, 0⟩

end Driver

/-- The ring as its user counts it. -/
structure Protocol (s : Driver) : Prop where
  filled_nonneg : 0 ≤ s.filled
  filled_le : s.filled ≤ s.dma.buffers
  proceeds_iff : rollWaits s.dma = false ↔ 0 < s.filled
  readable_iff : pollReadable s.dma = true ↔ 0 < s.filled
  /-- While a buffer is free the next completion interrupt goes on to the next buffer, and with a
  further one free the board gets its address and is started again. -/
  accepts : s.dma.dmaStarted = true → s.filled < s.dma.buffers →
    let handled := deviceHandler s.dma true
    handled.1.activeWrite = nextPlace s.dma.buffers s.dma.activeWrite ∧
      (s.filled + 1 < s.dma.buffers → handled.2 =
        [.address handled.1.activeWrite, .irq, .enabled false, .enabled true, .wakeUp])

/-- A completion interrupt that arrives while a single buffer is free. -/
def FillsLast (s : Driver) (e : Event) : Prop :=
  e = .interrupt true ∧ s.dma.dmaStarted = true ∧ s.filled + 1 = s.dma.buffers

instance decidableFillsLast (s : Driver) (e : Event) : Decidable (FillsLast s e) :=
  inferInstanceAs (Decidable (_ ∧ _))

/-! ## The ring as long as it is not full -/

/-- The indices count the filled buffers, and the driver is not suspended. -/
structure Driver.Counts (buffers : ℕ) (s : Driver) : Prop where
  buffers_eq : s.dma.buffers = buffers
  rolled_le : s.rolled ≤ s.advanced
  lead : Lead buffers s.dma.activeRead s.dma.activeWrite (s.advanced - s.rolled)
  active : s.dma.dmaSuspended = false
  rolling : s.rolling = true → s.rolled < s.advanced

variable {buffers : ℕ} {s : Driver}

theorem deviceHandler_of_ignored {s : Dma} {dma : Bool} (h : (dma && s.dmaStarted) = false) :
    deviceHandler s dma = (s, []) := by
  rw [deviceHandler, h]
  rfl

theorem deviceHandler_of_free {s : Dma} (hstarted : s.dmaStarted = true)
    (hactive : s.dmaSuspended = false) (hwrite : nextPlace s.buffers s.activeWrite < s.buffers)
    (hfree : nextPlace s.buffers s.activeWrite ≠ s.activeRead) :
    deviceHandler s true =
      ({ s with handled := s.handled + 1, activeWrite := nextPlace s.buffers s.activeWrite },
        [.address (nextPlace s.buffers s.activeWrite), .irq, .enabled false, .enabled true,
          .wakeUp]) := by
  unfold deviceHandler mapActive
  simp only [hstarted, hactive, Bool.and_self, Bool.not_false, if_true, if_neg hfree,
    if_pos hwrite, List.singleton_append]

theorem deviceHandler_of_last {s : Dma} (hstarted : s.dmaStarted = true)
    (hactive : s.dmaSuspended = false) (hlast : nextPlace s.buffers s.activeWrite = s.activeRead) :
    deviceHandler s true =
      ({ s with
          handled := s.handled + 1
          activeWrite := nextPlace s.buffers s.activeWrite
          dmaSuspended := true }, []) := by
  unfold deviceHandler
  simp only [hstarted, hactive, Bool.and_self, Bool.not_false, if_true, if_pos hlast]

namespace Driver.Counts

theorem filled_eq (h : s.Counts buffers) : s.filled = (s.advanced - s.rolled : ℕ) := by
  rw [Driver.filled, Int.ofNat_sub h.rolled_le]

theorem start (hbuffers : 2 ≤ buffers) : (Driver.start buffers).Counts buffers := by
  have hpos : 0 < buffers := by omega
  have hstart : Driver.start buffers =
      ⟨⟨buffers, 0, 0, false, true, 0, 0⟩, false, 0, 0⟩ := by
    simp only [Driver.start, Driver.enable, enableDma, setBuffer, mapActive, if_pos hpos]
    rfl
  rw [hstart]
  exact ⟨rfl, le_rfl, .start hpos, rfl, nofun⟩

theorem fillsLast_iff (h : s.Counts buffers) :
    FillsLast s (.interrupt true) ↔
      s.dma.dmaStarted = true ∧ s.advanced - s.rolled + 1 = buffers := by
  have hcast : s.filled + 1 = s.dma.buffers ↔ s.advanced - s.rolled + 1 = buffers := by
    rw [h.filled_eq, h.buffers_eq]
    omega
  rw [FillsLast, hcast]
  exact ⟨fun hlast ↦ hlast.2, fun hlast ↦ ⟨rfl, hlast⟩⟩

/-- With a further free buffer the handler goes on to the next one. -/
theorem deviceHandler_of_lt (h : s.Counts buffers) (hstarted : s.dma.dmaStarted = true)
    (hlead : s.advanced - s.rolled + 1 < buffers) :
    deviceHandler s.dma true =
      ({ s.dma with
          handled := s.dma.handled + 1
          activeWrite := nextPlace s.dma.buffers s.dma.activeWrite },
        [.address (nextPlace s.dma.buffers s.dma.activeWrite), .irq, .enabled false, .enabled true,
          .wakeUp]) := by
  have hnext := h.lead.next_write hlead
  have hne : nextPlace buffers s.dma.activeWrite ≠ s.dma.activeRead := fun heq ↦
    Nat.succ_ne_zero _ (hnext.eq_iff.mp heq.symm)
  obtain rfl := h.buffers_eq
  exact deviceHandler_of_free hstarted h.active hnext.write_lt hne

/-- With the last free buffer the indices become equal and the handler stops. -/
theorem deviceHandler_of_eq (h : s.Counts buffers) (hstarted : s.dma.dmaStarted = true)
    (hlead : s.advanced - s.rolled + 1 = buffers) :
    deviceHandler s.dma true =
      ({ s.dma with
          handled := s.dma.handled + 1
          activeWrite := s.dma.activeRead
          dmaSuspended := true }, []) := by
  have hread := h.lead.next_write_of_last hlead
  obtain rfl := h.buffers_eq
  rw [deviceHandler_of_last hstarted h.active hread, hread]

theorem interrupt (h : s.Counts buffers) (hbuffers : 2 ≤ buffers) {dma : Bool}
    (hfree : ¬ FillsLast s (.interrupt dma)) : (s.interrupt dma).Counts buffers := by
  cases hdma : dma && s.dma.dmaStarted with
  | false =>
    rw [Driver.interrupt, deviceHandler_of_ignored hdma]
    simp only [if_true]
    exact h
  | true =>
    obtain ⟨rfl, hstarted⟩ := Bool.and_eq_true_iff.mp hdma
    have hlead : s.advanced - s.rolled + 1 < buffers := by
      have hne : s.advanced - s.rolled + 1 ≠ buffers := fun hlast ↦
        hfree (h.fillsLast_iff.mpr ⟨hstarted, hlast⟩)
      exact Nat.lt_of_le_of_ne h.lead.lead_lt hne
    have hcount : s.advanced + 1 - s.rolled = s.advanced - s.rolled + 1 :=
      Nat.sub_add_comm h.rolled_le
    have hnext := h.lead.next_write hlead
    have hmoved : nextPlace buffers s.dma.activeWrite ≠ s.dma.activeWrite := nextPlace_ne hbuffers
    rw [Driver.interrupt, h.deviceHandler_of_lt hstarted hlead]
    obtain rfl := h.buffers_eq
    simp only [if_neg hmoved]
    exact ⟨rfl, Nat.le_succ_of_le h.rolled_le, hcount ▸ hnext, h.active,
      fun hrolling ↦ Nat.lt_succ_of_lt (h.rolling hrolling)⟩

theorem rollCheck (h : s.Counts buffers) : (s.next .rollCheck).Counts buffers := by
  unfold Driver.next
  dsimp only
  split
  · exact h
  · rename_i hcheck
    have hne : s.dma.activeRead ≠ s.dma.activeWrite := by
      simpa [rollWaits] using (Bool.or_eq_false_iff.mp (Bool.eq_false_iff.mpr hcheck)).2
    have hlead : s.advanced - s.rolled ≠ 0 := fun hzero ↦ hne (h.lead.eq_iff.mpr hzero)
    have hrolled : s.rolled < s.advanced := by omega
    exact ⟨h.buffers_eq, h.rolled_le, h.lead, h.active, fun _ ↦ hrolled⟩

theorem rollAdvance (h : s.Counts buffers) : (s.next .rollAdvance).Counts buffers := by
  unfold Driver.next
  dsimp only
  split
  · rename_i hrolling
    have hlt := h.rolling hrolling
    obtain ⟨lead, hlead⟩ : ∃ lead, s.advanced - s.rolled = lead + 1 :=
      ⟨s.advanced - s.rolled - 1, by omega⟩
    have hcount : s.advanced - (s.rolled + 1) = lead := by omega
    have hread := (hlead ▸ h.lead).next_read
    obtain rfl := h.buffers_eq
    exact ⟨rfl, hlt, hcount ▸ hread, h.active, nofun⟩
  · exact h

/-- `DMAEnable` starts with an empty ring. -/
theorem enable (h : s.Counts buffers) (hbuffers : 0 < buffers) (hrolling : s.rolling = false) :
    s.enable.Counts buffers := by
  have hpos : 0 < s.dma.buffers := h.buffers_eq ▸ hbuffers
  unfold Driver.enable enableDma mapActive
  cases hstarted : s.dma.dmaStarted with
  | true => exact h
  | false =>
    simp only [if_pos hpos]
    exact ⟨h.buffers_eq, le_rfl, .start hbuffers, h.active,
      fun hrolls ↦ absurd (hrolling.symm.trans hrolls) Bool.false_ne_true⟩

theorem disable (h : s.Counts buffers) : s.disable.Counts buffers := by
  unfold Driver.disable disableDma
  cases hstarted : s.dma.dmaStarted with
  | false => exact h
  | true => exact ⟨h.buffers_eq, h.rolled_le, h.lead, h.active, h.rolling⟩

theorem next (h : s.Counts buffers) (hbuffers : 2 ≤ buffers) {e : Event}
    (hfree : ¬ FillsLast s e) : (s.next e).Counts buffers := by
  cases e with
  | interrupt dma => exact h.interrupt hbuffers hfree
  | rollCheck => exact h.rollCheck
  | rollAdvance => exact h.rollAdvance
  | enable =>
    unfold Driver.next
    cases hrolling : s.rolling with
    | true => exact h
    | false => exact h.enable (by omega) hrolling
  | disable =>
    unfold Driver.next
    cases s.rolling with
    | true => exact h
    | false => exact h.disable

theorem protocol (h : s.Counts buffers) : Protocol s := by
  have hlt := h.lead.lead_lt
  have hfilled := h.filled_eq
  have hequal : s.dma.activeRead = s.dma.activeWrite ↔ ¬ 0 < s.filled := by
    rw [h.lead.eq_iff, hfilled]
    omega
  refine ⟨by omega, by rw [hfilled, h.buffers_eq]; omega, ?_, ?_, ?_⟩
  · rw [rollWaits, beq_eq_false_iff_ne, Ne, hequal, not_not]
  · rw [pollReadable, bne_iff_ne, Ne, hequal, not_not]
  · intro hstarted _
    rcases Nat.lt_or_eq_of_le (Nat.succ_le_of_lt hlt) with hfree | hlast
    · rw [h.deviceHandler_of_lt hstarted hfree]
      exact ⟨rfl, fun _ ↦ rfl⟩
    · have hread := h.lead.next_write_of_last hlast
      rw [h.deviceHandler_of_eq hstarted hlast]
      rw [h.buffers_eq]
      exact ⟨hread.symm, fun hfree ↦ by omega⟩

end Driver.Counts

/-! ## The full ring -/

/-- The interrupt that fills the last buffer makes the ring look empty. -/
theorem not_protocol_of_fillsLast (h : s.Counts buffers) (hbuffers : 2 ≤ buffers) {e : Event}
    (hlast : FillsLast s e) : ¬ Protocol (s.next e) := by
  obtain rfl := hlast.1
  obtain ⟨hstarted, hlead⟩ := h.fillsLast_iff.mp hlast
  have hread := h.lead.next_write_of_last hlead
  have hmoved : s.dma.activeRead ≠ s.dma.activeWrite := hread ▸ nextPlace_ne hbuffers
  have hrolled := h.rolled_le
  have hfull : s.next (.interrupt true) =
      { s with
        dma := { s.dma with
          handled := s.dma.handled + 1
          activeWrite := s.dma.activeRead
          dmaSuspended := true }
        advanced := s.advanced + 1 } := by
    rw [Driver.next, Driver.interrupt, h.deviceHandler_of_eq hstarted hlead]
    simp only [if_neg hmoved]
  rw [hfull]
  intro hprotocol
  have hfilled : 0 < Driver.filled { s with advanced := s.advanced + 1 } := by
    unfold Driver.filled
    dsimp only
    omega
  have hreadable := hprotocol.readable_iff.mpr hfilled
  exact absurd hreadable (by simp [pollReadable])

/-- A suspended driver counts interrupts and does nothing else. -/
theorem deviceHandler_of_suspended {s : Dma} (hsuspended : s.dmaSuspended = true) (dma : Bool) :
    (deviceHandler s dma).1.activeWrite = s.activeWrite ∧
      (deviceHandler s dma).1.dmaSuspended = true ∧ (deviceHandler s dma).2 = [] := by
  unfold deviceHandler
  split
  · dsimp only
    rw [if_neg (by rw [hsuspended]; decide)]
    exact ⟨rfl, hsuspended, rfl⟩
  · exact ⟨rfl, hsuspended, rfl⟩

theorem dmaSuspended_mapActive (s : Dma) (active : ℕ) :
    (mapActive s active).1.dmaSuspended = s.dmaSuspended := by
  unfold mapActive
  split <;> rfl

theorem dmaSuspended_next (hsuspended : s.dma.dmaSuspended = true) (e : Event) :
    (s.next e).dma.dmaSuspended = true := by
  cases e with
  | interrupt dma => exact (deviceHandler_of_suspended hsuspended dma).2.1
  | rollCheck =>
    unfold Driver.next
    dsimp only
    split <;> exact hsuspended
  | rollAdvance =>
    unfold Driver.next
    dsimp only
    split <;> exact hsuspended
  | enable =>
    unfold Driver.next Driver.enable enableDma
    cases s.rolling <;> cases s.dma.dmaStarted
    · exact (dmaSuspended_mapActive _ 0).trans hsuspended
    · exact hsuspended
    · exact hsuspended
    · exact hsuspended
  | disable =>
    unfold Driver.next Driver.disable disableDma
    cases s.rolling <;> cases s.dma.dmaStarted <;> exact hsuspended

/-- Nothing clears `dma_suspended`: not a roll, and not `DMADisable` followed by `DMAEnable`. -/
theorem dmaSuspended_foldl (hsuspended : s.dma.dmaSuspended = true) (events : List Event) :
    (events.foldl Driver.next s).dma.dmaSuspended = true := by
  induction events generalizing s with
  | nil => exact hsuspended
  | cons e rest ih => exact ih (dmaSuspended_next hsuspended e)

/-- A ring that has been full takes no further buffer, whatever happens. -/
theorem activeWrite_of_fillsLast (h : s.Counts buffers) {e : Event} (hlast : FillsLast s e)
    (events : List Event) (dma : Bool) :
    let t := events.foldl Driver.next (s.next e)
    (deviceHandler t.dma dma).1.activeWrite = t.dma.activeWrite := by
  obtain rfl := hlast.1
  obtain ⟨hstarted, hlead⟩ := h.fillsLast_iff.mp hlast
  have hsuspended : (s.next (.interrupt true)).dma.dmaSuspended = true := by
    rw [Driver.next, Driver.interrupt, h.deviceHandler_of_eq hstarted hlead]
  exact (deviceHandler_of_suspended (dmaSuspended_foldl hsuspended events) dma).1

/-- Over any run from `DMAEnable` the ring is what its user counts if and only if no completion
interrupt arrives while a single buffer is free. -/
theorem protocol_iff (hbuffers : 2 ≤ buffers) (events : List Event) :
    (∀ before, before <+: events → Protocol (before.foldl Driver.next (.start buffers))) ↔
      ∀ before e, before ++ [e] <+: events →
        ¬ FillsLast (before.foldl Driver.next (.start buffers)) e := by
  apply foldl_property_iff (I := Driver.Counts buffers) (C := fun s e ↦ ¬ FillsLast s e)
  · exact .start hbuffers
  · exact fun _ hs ↦ hs.protocol
  · intro s e hs hfree
    exact hs.next hbuffers hfree
  · intro s e hs hlast
    exact not_protocol_of_fillsLast hs hbuffers (not_not.mp hlast)

/-- A buffer is filled and taken. -/
def sampleEvents : List Event := [.interrupt true, .rollCheck, .rollAdvance]

theorem protocol_iff_oneBuffer : Protocol (sampleEvents.foldl Driver.next (.start 2)) := by
  refine (protocol_iff le_rfl sampleEvents).mpr (fun before e hpart ↦ ?_) _ List.prefix_rfl
  have hsteps : ∀ part ∈ sampleEvents.inits, ∀ e ∈ part.getLast?,
      ¬ FillsLast (part.dropLast.foldl Driver.next (.start 2)) e := by decide
  have hstep := hsteps _ ((List.mem_inits _ _).mpr hpart) e List.getLast?_concat
  rwa [List.dropLast_concat] at hstep

/-- As many interrupts as the driver has buffers, and none is taken. -/
theorem not_protocol_fullRing :
    ¬ ∀ buffers, 2 ≤ buffers → ∀ events : List Event,
      Protocol (events.foldl Driver.next (.start buffers)) := by
  intro h
  have hprotocol := h 16 (by decide) (List.replicate 16 (.interrupt true))
  have hempty : pollReadable
      ((List.replicate 16 (.interrupt true)).foldl Driver.next (.start 16)).dma = false := by
    decide
  rw [hprotocol.readable_iff.mpr (by decide)] at hempty
  cases hempty

end QNet.AnB
