import QNet.AnB.Probe
import QNet.Lib.Machine

/-!
# The names of the AnB devices

`device_probe` takes the number of devices for the id of a new one, and `AllocateEntry` writes the
last eight bits of the id into its name. Removing a device lowers the number but not the ids of the
others, so the number can be an id that is in use. `names_distinct_iff` says in which sequences of
probes and removals the devices that are present have different ids and names. `misc_register`
refuses a name that is registered, and `AllocateEntry` passes its error on, so that they have in all
sequences (`names_distinct`).
-/

namespace QNet.AnB

/-! ## The name -/

/-- `NAME` in the array of `struct file_entry`, which is two bytes longer than the text. -/
def nameTemplate : List UInt8 := [0x41, 0x6e, 0x42, 0x5f, 0x30, 0x30, 0, 0]

/-- The character for four bits of the id; those behind the nine are no letters. -/
def nameDigit (c : UInt8) : UInt8 := if c ≤ 9 then c + 0x30 else c + 0x51

/-- The name in `AllocateEntry`. -/
def entryName (deviceId : UInt32) : List UInt8 :=
  let c0 := ((deviceId &&& 0x00f) >>> 0).toUInt8
  let c1 := ((deviceId &&& 0x0f0) >>> 4).toUInt8
  (nameTemplate.set 5 (nameDigit c0)).set 4 (nameDigit c1)

theorem toNat_nameDigit {c : UInt8} (hc : c.toNat < 16) :
    (nameDigit c).toNat = if c.toNat ≤ 9 then c.toNat + 0x30 else c.toNat + 0x51 := by
  have hdigit : c ≤ 9 ↔ c.toNat ≤ 9 := UInt8.le_iff_toNat_le
  have hsum {offset : UInt8} (hoffset : c.toNat + offset.toNat < 2 ^ 8) :
      (c + offset).toNat = c.toNat + offset.toNat := by
    rw [UInt8.toNat_add]
    exact Nat.mod_eq_of_lt hoffset
  unfold nameDigit
  by_cases h : c ≤ 9
  · rw [if_pos h, if_pos (hdigit.mp h)]
    exact hsum (by change c.toNat + 0x30 < 2 ^ 8; omega)
  · rw [if_neg h, if_neg (h ∘ hdigit.mpr)]
    exact hsum (by change c.toNat + 0x51 < 2 ^ 8; omega)

theorem nameDigit_inj {c d : UInt8} (hc : c.toNat < 16) (hd : d.toNat < 16)
    (h : nameDigit c = nameDigit d) : c.toNat = d.toNat := by
  have hsame : (nameDigit c).toNat = (nameDigit d).toNat := congrArg UInt8.toNat h
  rw [toNat_nameDigit hc, toNat_nameDigit hd] at hsame
  split at hsame <;> split at hsame <;> omega

/-- The two halves of the last eight bits. -/
theorem toNat_lowHalf (x : UInt32) : ((x &&& 0x00f) >>> 0).toUInt8.toNat = x.toNat % 16 := by
  have hmask : x.toNat &&& 15 = x.toNat % 16 := Nat.and_two_pow_sub_one_eq_mod x.toNat 4
  rw [UInt32.toNat_toUInt8, UInt32.toNat_shiftRight, UInt32.toNat_and]
  change ((x.toNat &&& 15) >>> 0) % 2 ^ 8 = _
  rw [hmask, Nat.shiftRight_zero]
  omega

theorem toNat_highHalf (x : UInt32) : ((x &&& 0x0f0) >>> 4).toUInt8.toNat = x.toNat / 16 % 16 := by
  have hmask : x.toNat >>> 4 &&& 15 = (x.toNat >>> 4) % 16 :=
    Nat.and_two_pow_sub_one_eq_mod (x.toNat >>> 4) 4
  rw [UInt32.toNat_toUInt8, UInt32.toNat_shiftRight, UInt32.toNat_and]
  change ((x.toNat &&& 240) >>> 4) % 2 ^ 8 = _
  rw [Nat.shiftRight_and_distrib]
  change (x.toNat >>> 4 &&& 15) % 2 ^ 8 = _
  rw [hmask, Nat.shiftRight_eq_div_pow]
  omega

/-- The name says which of the first 256 ids it is for. -/
theorem entryName_inj {x y : UInt32} (hx : x < 256) (hy : y < 256)
    (h : entryName x = entryName y) : x = y := by
  have hdigits : nameDigit ((x &&& 0x0f0) >>> 4).toUInt8 = nameDigit ((y &&& 0x0f0) >>> 4).toUInt8 ∧
      nameDigit ((x &&& 0x00f) >>> 0).toUInt8 = nameDigit ((y &&& 0x00f) >>> 0).toUInt8 := by
    simpa [entryName, nameTemplate] using h
  have hhigh : x.toNat / 16 % 16 = y.toNat / 16 % 16 := by
    have hinj := nameDigit_inj (by rw [toNat_highHalf]; omega) (by rw [toNat_highHalf]; omega)
      hdigits.1
    rwa [toNat_highHalf, toNat_highHalf] at hinj
  have hlow : x.toNat % 16 = y.toNat % 16 := by
    have hinj := nameDigit_inj (by rw [toNat_lowHalf]; omega) (by rw [toNat_lowHalf]; omega)
      hdigits.2
    rwa [toNat_lowHalf, toNat_lowHalf] at hinj
  have hx : x.toNat < 256 := UInt32.lt_iff_toNat_lt.mp hx
  have hy : y.toNat < 256 := UInt32.lt_iff_toNat_lt.mp hy
  rw [← UInt32.toNat_inj]
  omega

/-! ## Probes and removals -/

/-- A device with a driver: the device of the bus, its private data, its id and its name. -/
structure LiveDevice (δ α : Type*) where
  device : δ
  privateData : α
  deviceId : UInt32
  name : List UInt8

/-- The module, whether its semaphore is taken for ever, and the devices that are present. -/
structure Bus (δ α : Type*) where
  module : Module α
  blocked : Bool
  present : List (LiveDevice δ α)

inductive BusEvent (δ α : Type*)
  | probe (device : δ) (answers : ProbeAnswers α)
  /-- `device_remove`, with the answers for `deviceRemove`. -/
  | remove (device : δ) (behind : ℕ → Option α) (memory : Bool)

namespace Bus

variable {δ α : Type*} [DecidableEq δ] [DecidableEq α]

/-- The module after it has been loaded. -/
def start : Bus δ α := ⟨⟨0, []⟩, false, []⟩

/-- `pci_get_drvdata`: the bus keeps the private data of the devices with a driver. -/
def drvdata (b : Bus δ α) (device : δ) : Option (LiveDevice δ α) :=
  b.present.find? fun live ↦ live.device = device

/-- One call. While the semaphore is taken it does not return; a device that has a driver is not
probed, and one that has none is not removed. The answers are those of the kernel, also the one of
`misc_register` to the name of the device (`Refuses`). -/
def next (b : Bus δ α) : BusEvent δ α → Bus δ α
  | .probe device answers =>
      if b.blocked = true ∨ (b.drvdata device).isSome = true then b
      else
        let probed := deviceProbe b.module answers
        let deviceId := b.module.devicesCount
        { module := probed.module
          blocked := probed.ups == 0
          present :=
            match answers.privateData with
            | some privateData =>
                if probed.retval = 0 then
                  b.present ++ [⟨device, privateData, deviceId, entryName deviceId⟩]
                else b.present
            | none => b.present }
  | .remove device behind memory =>
      if b.blocked = true then b
      else
        match b.drvdata device with
        | none => b
        | some live =>
            { b with
              module.devicesCount := b.module.devicesCount - 1
              module.pool := removeDevice b.module.pool live.privateData behind memory
              present := b.present.filter fun other ↦ other.device ≠ device }

/-- The state after these calls. -/
def after (events : List (BusEvent δ α)) : Bus δ α := events.foldl next start

/-- The devices that are present have different ids and different names. -/
structure Distinct (b : Bus δ α) : Prop where
  ids : (b.present.map LiveDevice.deviceId).Nodup
  names : (b.present.map LiveDevice.name).Nodup

/-- The call is a probe that succeeds. -/
def Adds (b : Bus δ α) : BusEvent δ α → Prop
  | .probe device answers =>
      b.blocked = false ∧ b.drvdata device = none ∧ b.module.devicesCount < deviceLimit ∧
        (∃ privateData, answers.privateData = some privateData ∧
          some privateData ∉ b.module.pool) ∧
        Prepared answers ∧ answers.pool = true ∧ answers.misc = 0
  | .remove _ _ _ => False

/-- The names for which `misc_register` has made a file and `misc_deregister` has not removed it. -/
def registered (b : Bus δ α) : List (List UInt8) := b.present.map LiveDevice.name

/-- `misc_register`, which is the kernel's, does not return 0 for a name that is registered. -/
def Refuses (b : Bus δ α) : BusEvent δ α → Prop
  | .probe _ answers => entryName b.module.devicesCount ∈ b.registered → answers.misc ≠ 0
  | .remove _ _ _ => True

instance (b : Bus δ α) : DecidablePred b.Refuses
  | .probe _ answers =>
      inferInstanceAs
        (Decidable (entryName b.module.devicesCount ∈ b.registered → answers.misc ≠ 0))
  | .remove _ _ _ => inferInstanceAs (Decidable True)

/-- The number of devices is no id of a device that is present. -/
def FreshId (b : Bus δ α) (e : BusEvent δ α) : Prop :=
  b.Adds e → ∀ live ∈ b.present, live.deviceId ≠ b.module.devicesCount

/-- The ids and names as `device_probe` gives them. -/
structure Named (b : Bus δ α) : Prop where
  deviceId_lt : ∀ live ∈ b.present, live.deviceId < 256
  name_eq : ∀ live ∈ b.present, live.name = entryName live.deviceId

variable {b : Bus δ α} {e : BusEvent δ α}

/-- A probe that succeeds puts the device at the end. -/
theorem present_next_of_adds {device : δ} {answers : ProbeAnswers α}
    (h : b.Adds (.probe device answers)) :
    ∃ privateData, (b.next (.probe device answers)).present =
      b.present ++ [⟨device, privateData, b.module.devicesCount,
        entryName b.module.devicesCount⟩] := by
  obtain ⟨hfree, hunbound, hsucceeds⟩ := h
  have hretval : (deviceProbe b.module answers).retval = 0 :=
    retval_deviceProbe_eq_zero_iff.mpr hsucceeds
  obtain ⟨_, ⟨privateData, hdata, _⟩, _⟩ := hsucceeds
  refine ⟨privateData, ?_⟩
  rw [next, if_neg (by simp [hfree, hunbound]), hdata]
  exact if_pos hretval

/-- Every other call adds no device. -/
theorem present_next_sublist (h : ¬ b.Adds e) : (b.next e).present.Sublist b.present := by
  cases e with
  | probe device answers =>
    rw [next]
    split
    · exact List.Sublist.refl _
    · rename_i hcalled
      rw [not_or, Bool.not_eq_true, Bool.not_eq_true, Option.isSome_eq_false_iff,
        Option.isNone_iff_eq_none] at hcalled
      cases hdata : answers.privateData with
      | none => exact List.Sublist.refl _
      | some privateData =>
        have hretval : (deviceProbe b.module answers).retval ≠ 0 := fun hzero ↦
          h ⟨hcalled.1, hcalled.2, retval_deviceProbe_eq_zero_iff.mp hzero⟩
        dsimp only
        rw [if_neg hretval]
  | remove device behind memory =>
    rw [next]
    split
    · exact List.Sublist.refl _
    · split
      · exact List.Sublist.refl _
      · exact List.filter_sublist

theorem Named.next (h : b.Named) (e : BusEvent δ α) : (b.next e).Named := by
  by_cases hadds : b.Adds e
  · cases e with
    | probe device answers =>
      obtain ⟨privateData, hpresent⟩ := present_next_of_adds hadds
      constructor
      · rw [hpresent, List.forall_mem_append, List.forall_mem_singleton]
        exact ⟨h.deviceId_lt, hadds.2.2.1⟩
      · rw [hpresent, List.forall_mem_append, List.forall_mem_singleton]
        exact ⟨h.name_eq, rfl⟩
    | remove device behind memory => exact hadds.elim
  · have hmem := (present_next_sublist hadds).subset
    exact ⟨fun live hlive ↦ h.deviceId_lt live (hmem hlive),
      fun live hlive ↦ h.name_eq live (hmem hlive)⟩

/-- One call keeps the ids and names different if and only if it gives no device an id in use. -/
theorem distinct_next_iff (hnamed : b.Named) (h : b.Distinct) (e : BusEvent δ α) :
    (b.next e).Distinct ↔ b.FreshId e := by
  by_cases hadds : b.Adds e
  · cases e with
    | probe device answers =>
      obtain ⟨privateData, hpresent⟩ := present_next_of_adds hadds
      have hnext : (b.next (.probe device answers)).Named := hnamed.next _
      have hlimit : b.module.devicesCount < 256 := hadds.2.2.1
      constructor
      · rintro ⟨hids, _⟩ _ live hlive hsame
        rw [hpresent, List.map_append, List.nodup_append] at hids
        exact hids.2.2 _ (List.mem_map_of_mem hlive) _ (List.mem_singleton_self _) hsame
      · intro hfresh
        constructor
        · rw [hpresent, List.map_append, List.nodup_append]
          refine ⟨h.ids, List.nodup_singleton _, fun id hid other hother ↦ ?_⟩
          obtain ⟨live, hlive, rfl⟩ := List.mem_map.mp hid
          obtain rfl := List.mem_singleton.mp hother
          exact hfresh hadds live hlive
        · rw [hpresent, List.map_append, List.nodup_append]
          refine ⟨h.names, List.nodup_singleton _, fun name hname other hother hsame ↦ ?_⟩
          obtain ⟨live, hlive, rfl⟩ := List.mem_map.mp hname
          obtain rfl := List.mem_singleton.mp hother
          rw [hnamed.name_eq live hlive] at hsame
          exact hfresh hadds live hlive
            (entryName_inj (hnamed.deviceId_lt live hlive) hlimit hsame)
    | remove device behind memory => exact hadds.elim
  · have hsublist := present_next_sublist hadds
    exact iff_of_true ⟨(hsublist.map _).nodup h.ids, (hsublist.map _).nodup h.names⟩
      fun hadd ↦ absurd hadd hadds

theorem named_after (events : List (BusEvent δ α)) :
    ∀ before, before <+: events → (after before).Named :=
  foldl_induction ⟨List.forall_mem_nil _, List.forall_mem_nil _⟩ fun _ e _ hbefore ↦ hbefore.next e

/-- Whatever the kernel answers, the devices that are present have different ids and names all
through these calls if and only if no probe that succeeds finds its id in use. -/
theorem names_distinct_iff (events : List (BusEvent δ α)) :
    (∀ before, before <+: events → (after before).Distinct) ↔
      ∀ before e, before ++ [e] <+: events → (after before).FreshId e := by
  have hstart : (start : Bus δ α).Named ∧ (start : Bus δ α).Distinct :=
    ⟨⟨List.forall_mem_nil _, List.forall_mem_nil _⟩, List.nodup_nil, List.nodup_nil⟩
  have hiff : (∀ before, before <+: events → (after before).Named ∧ (after before).Distinct) ↔
      ∀ before e, before ++ [e] <+: events → (after before).FreshId e := by
    refine foldl_invariant_iff (P := fun b : Bus δ α ↦ b.Named ∧ b.Distinct) hstart ?_
    rintro b ⟨hnext, hdistinct⟩ e _
    rw [and_iff_right (hnext.next e)]
    exact distinct_next_iff hnext hdistinct e
  rw [← hiff]
  exact forall₂_congr fun before hpart ↦ (and_iff_right (named_after events before hpart)).symm

omit [DecidableEq α] in
/-- A probe that finds its id in use fails in `misc_register`. -/
theorem freshId_of_refuses (hnamed : b.Named) (h : b.Refuses e) : b.FreshId e := by
  intro hadds live hlive hsame
  cases e with
  | probe device answers =>
    have hused : entryName b.module.devicesCount ∈ b.registered := by
      rw [← hsame, ← hnamed.name_eq live hlive]
      exact List.mem_map_of_mem hlive
    obtain ⟨_, _, _, _, _, _, hmisc⟩ := hadds
    exact h hused hmisc
  | remove device behind memory => exact hadds

/-- The devices that are present have different ids and names after every sequence of calls, when
`misc_register` refuses the names that are registered. -/
theorem names_distinct {events : List (BusEvent δ α)}
    (hkernel : ∀ before e, before ++ [e] <+: events → (after before).Refuses e) :
    (after events).Distinct := by
  refine (names_distinct_iff events).mpr ?_ events (List.prefix_refl events)
  intro before e hpart
  have hnamed : (after before).Named :=
    named_after events before ((List.prefix_append before [e]).trans hpart)
  exact freshId_of_refuses hnamed (hkernel before e hpart)

/-- Two devices are probed and the first one is removed. The probe of a third one finds the id of
the second one in use, and `misc_register` answers `-EEXIST`; when the second one has been removed
as well, it succeeds. -/
def reusedId : List (BusEvent ℕ ℕ) :=
  let answers (privateData : ℕ) : ProbeAnswers ℕ := .granted privateData ⟨true, true, 4096, 0⟩
  [.probe 0 (answers 0), .probe 1 (answers 1), .remove 0 (fun _ ↦ none) true,
    .probe 2 { answers 2 with misc := -17 }, .probe 3 { answers 3 with misc := -17 },
    .remove 1 (fun _ ↦ none) true, .probe 2 (answers 2), .probe 3 (answers 3)]

theorem names_distinct_reusedId :
    (after reusedId).Distinct ∧
      (after reusedId).present.map LiveDevice.deviceId = [0, 1] ∧
      (after (reusedId.take 4)).present.map LiveDevice.deviceId = [1] :=
  ⟨names_distinct (foldl_steps_of_meets (by decide)), by decide, by decide⟩

end Bus

end QNet.AnB
