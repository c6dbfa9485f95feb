import QNet.Tcpmux.Lane

/-!
# The table of the clients and its queue

The queue of `write_ack` has the clients that have something to acknowledge, each once, and the
control client waits for its turn to write exactly while there is something to acknowledge. This is
what `write_ack` asserts.
-/

namespace QNet.Tcpmux

/-- The client is to be in the queue of `write_ack`. -/
def ClientData.Due (cd : ClientData) : Prop := cd.rkarma = -1 ∨ (ACK_THRESHOLD : ℤ) ≤ cd.rkarma

instance (cd : ClientData) : Decidable cd.Due := inferInstanceAs (Decidable (_ ∨ _))

theorem ACK_THRESHOLD_pos : 0 < ACK_THRESHOLD := by decide

theorem ClientData.Noqueue.not_due {cd : ClientData} (h : cd.Noqueue) : ¬ cd.Due := by
  unfold ClientData.Noqueue at h
  unfold ClientData.Due
  omega

theorem ClientData.due_of_not_noqueue {cd : ClientData} (hge : -1 ≤ cd.rkarma) (h : ¬ cd.Noqueue) :
    cd.Due := by
  unfold ClientData.Noqueue at h
  unfold ClientData.Due
  omega

namespace Context

variable {mc mc' : Context} {id : ℕ} {slot : Slot} {cd : ClientData}

/-! ## What changes -/

/-- Nothing has changed but one entry of the table, and what waits to be written. -/
def Touches (mc mc' : Context) (id : ℕ) (slot : Slot) : Prop :=
  ∃ queue controls, mc' = { mc with
    clientTable := Function.update mc.clientTable id slot
    karmaQueue := queue
    controls := controls }

theorem touches_setSlot (mc : Context) (id : ℕ) (slot : Slot) :
    Touches mc (mc.setSlot id slot) id slot := ⟨_, _, rfl⟩

theorem Touches.pushKarma (h : Touches mc mc' id slot) (k : ℕ) :
    Touches mc (mc'.pushKarma k) id slot := by
  obtain ⟨queue, controls, rfl⟩ := h
  unfold Context.pushKarma
  dsimp only
  split_ifs <;> exact ⟨_, _, rfl⟩

theorem Touches.trans {mc'' : Context} {slot' : Slot} (h : Touches mc mc' id slot)
    (h' : Touches mc' mc'' id slot') : Touches mc mc'' id slot' := by
  obtain ⟨queue, controls, rfl⟩ := h
  obtain ⟨queue', controls', rfl⟩ := h'
  exact ⟨queue', controls', by rw [Function.update_idem]⟩

theorem touches_setRkarma (mc : Context) (id : ℕ) (cd : ClientData) (nkarma : ℤ) :
    Touches mc (mc.setRkarma id cd nkarma) id
      { mc.clientTable id with client := some { cd with rkarma := nkarma } } := by
  unfold setRkarma
  dsimp only
  split_ifs
  · exact (touches_setSlot mc id _).pushKarma id
  · exact touches_setSlot mc id _

theorem touches_disconnectClient (mc : Context) (id : ℕ) (cd : ClientData) :
    Touches mc (mc.disconnectClient id cd) id
      { mc.clientTable id with client := some cd.disconnected } := by
  unfold disconnectClient ClientData.disconnected
  split_ifs
  · exact touches_setRkarma mc id _ (-1)
  · exact touches_setSlot mc id _

theorem touches_acceptClient (mc : Context) (id : ℕ) : Touches mc (mc.acceptClient id) id
    ((mc.clientTable id).alloc { ClientData.accepted with rkarma := CLIENT_KARMA }) := by
  have halloc := touches_setSlot mc id ((mc.clientTable id).alloc .accepted)
  have hset := touches_setRkarma (mc.allocateClient id .accepted) id .accepted CLIENT_KARMA
  have hslot : (mc.allocateClient id .accepted).clientTable id =
      (mc.clientTable id).alloc .accepted := Function.update_self _ _ _
  rw [hslot] at hset
  exact halloc.trans hset

theorem touches_clientWrote (mc : Context) (id : ℕ) (cd : ClientData) (amt : ℕ) :
    Touches mc (mc.clientWrote id cd amt) id (Slot.addWritten
      { mc.clientTable id with client := some (cd.wrote amt) } (cd.outgoing.take amt)) := by
  unfold clientWrote
  dsimp only
  split_ifs
  · exact (touches_setSlot mc id _).pushKarma id
  · exact touches_setSlot mc id _

/-! ## What holds of the table and the queue -/

structure Table (mc : Context) : Prop where
  control : mc.client 0 = some .init
  lt : ∀ id, mc.client id ≠ none → id < MAX_CLIENTS
  nodup : mc.karmaQueue.Nodup
  mem_iff : ∀ id, id ∈ mc.karmaQueue ↔ ∃ cd, mc.client id = some cd ∧ cd.Due
  controls : mc.controls =
    if (ACK_THRESHOLD : ℤ) ≤ mc.rstreamKarma ∨ mc.karmaQueue ≠ [] then 1 else 0
  failed : mc.failed = false

@[simp]
theorem client_setSlot (mc : Context) (id k : ℕ) (slot : Slot) :
    (mc.setSlot id slot).client k = if k = id then slot.client else mc.client k := by
  unfold client setSlot
  by_cases hk : k = id
  · simp [hk]
  · simp [hk, Function.update_of_ne]

theorem table_init (demux : Bool) : Table (.init demux) := by
  have hclient (id : ℕ) : (Context.init demux).client id = if id = 0 then some .init else none := by
    unfold client Context.init
    by_cases hid : id = 0
    · simp [hid, Slot.alloc]
    · simp [hid, Function.update_of_ne, Slot.empty]
  constructor
  · rw [hclient, if_pos rfl]
  · intro id hid
    rw [hclient] at hid
    have : id = 0 := by
      by_contra hne
      exact hid (if_neg hne)
    rw [this]
    decide
  · exact List.nodup_nil
  · intro id
    rw [hclient]
    refine iff_of_false List.not_mem_nil ?_
    rintro ⟨cd, hcd, hdue⟩
    rw [Option.ite_none_right_eq_some, Option.some.injEq] at hcd
    obtain ⟨-, rfl⟩ := hcd
    exact absurd hdue (by decide)
  · change 0 = if (ACK_THRESHOLD : ℤ) ≤ 0 ∨ ([] : List ℕ) ≠ [] then 1 else 0
    decide
  · rfl

/-- An entry changes, and with it not whether the client is to be in the queue. -/
theorem Table.setSlot (h : Table mc) (hid : 0 < id) (hlt : id < MAX_CLIENTS)
    (hdue : (∃ cd, slot.client = some cd ∧ cd.Due) ↔ id ∈ mc.karmaQueue) :
    Table (mc.setSlot id slot) where
  control := by
    rw [client_setSlot, if_neg (Nat.ne_of_lt hid)]
    exact h.control
  lt k hk := by
    rw [client_setSlot] at hk
    split_ifs at hk with hkid
    · rw [hkid]
      exact hlt
    · exact h.lt k hk
  nodup := h.nodup
  mem_iff k := by
    rw [client_setSlot]
    split_ifs with hk
    · rw [hk]
      exact hdue.symm
    · exact h.mem_iff k
  controls := h.controls
  failed := h.failed

/-- A client has something to acknowledge, and it is put into the queue. -/
theorem Table.pushKarma (h : Table mc) (hid : 0 < id) (hlt : id < MAX_CLIENTS)
    (hdue : ∃ cd, slot.client = some cd ∧ cd.Due) (hout : id ∉ mc.karmaQueue) :
    Table ((mc.setSlot id slot).pushKarma id) := by
  have hqueue : ((mc.setSlot id slot).pushKarma id).karmaQueue = mc.karmaQueue ++ [id] := by
    unfold Context.pushKarma
    dsimp only
    split_ifs <;> rfl
  have hclient (k : ℕ) : ((mc.setSlot id slot).pushKarma id).client k =
      if k = id then slot.client else mc.client k := by
    rw [← client_setSlot]
    unfold Context.pushKarma
    dsimp only
    split_ifs <;> rfl
  have hrstream : ((mc.setSlot id slot).pushKarma id).rstreamKarma = mc.rstreamKarma := by
    unfold Context.pushKarma
    dsimp only
    split_ifs <;> rfl
  constructor
  · rw [hclient, if_neg (Nat.ne_of_lt hid)]
    exact h.control
  · intro k hk
    rw [hclient] at hk
    split_ifs at hk with hkid
    · rw [hkid]
      exact hlt
    · exact h.lt k hk
  · rw [hqueue]
    exact h.nodup.append (List.nodup_singleton id) (by simpa using hout)
  · intro k
    rw [hqueue, hclient, List.mem_append, List.mem_singleton]
    split_ifs with hk
    · rw [hk]
      exact iff_of_true (Or.inr rfl) hdue
    · rw [or_iff_left hk]
      exact h.mem_iff k
  · have hcontrols := h.controls
    rw [hrstream, hqueue,
      if_pos (Or.inr (List.append_ne_nil_of_right_ne_nil _ (List.cons_ne_nil _ _)))]
    unfold Context.pushKarma
    dsimp only
    change Context.controls
      (if mc.karmaQueue = [] ∧ mc.rstreamKarma < ACK_THRESHOLD then _ else _) = 1
    split_ifs with hfirst
    · rw [if_neg (by simp [hfirst.1, hfirst.2])] at hcontrols
      exact congrArg (· + 1) hcontrols
    · have hwaits : (ACK_THRESHOLD : ℤ) ≤ mc.rstreamKarma ∨ mc.karmaQueue ≠ [] := by
        by_contra hno
        rw [not_or, not_not] at hno
        exact hfirst ⟨hno.2, Int.not_le.mp hno.1⟩
      rw [if_pos hwaits] at hcontrols
      exact hcontrols
  · rw [← h.failed]
    unfold Context.pushKarma
    dsimp only
    split_ifs <;> rfl

theorem Table.not_mem (h : Table mc) (hcd : mc.client id = some cd) (hnoqueue : ¬ cd.Due) :
    id ∉ mc.karmaQueue := by
  intro hmem
  obtain ⟨cd', hcd', hdue⟩ := (h.mem_iff id).mp hmem
  rw [hcd] at hcd'
  obtain rfl := Option.some.inj hcd'
  exact hnoqueue hdue

theorem Table.mem (h : Table mc) (hcd : mc.client id = some cd) (hdue : cd.Due) :
    id ∈ mc.karmaQueue := (h.mem_iff id).mpr ⟨cd, hcd, hdue⟩

/-- `set_rkarma` with a value that is to be acknowledged. -/
theorem Table.setRkarma (h : Table mc) (hid : 0 < id) (hlt : id < MAX_CLIENTS)
    (hcd : mc.client id = some cd) (hge : -1 ≤ cd.rkarma) {cd' : ClientData}
    (hrkarma : cd'.rkarma = cd.rkarma) {nkarma : ℤ}
    (hnkarma : nkarma = -1 ∨ (ACK_THRESHOLD : ℤ) ≤ nkarma) :
    Table (mc.setRkarma id cd' nkarma) := by
  have hnow : ∃ cd'', some { cd' with rkarma := nkarma } = some cd'' ∧ cd''.Due :=
    ⟨_, rfl, hnkarma⟩
  have hsame : cd'.Noqueue ↔ cd.Noqueue := by
    unfold ClientData.Noqueue
    rw [hrkarma]
  unfold Context.setRkarma
  dsimp only
  split_ifs with hqueue
  · exact h.pushKarma hid hlt hnow (h.not_mem hcd (hsame.mp hqueue.1).not_due)
  · have hnot : ¬ cd.Noqueue := fun hno ↦ hqueue ⟨hsame.mpr hno, hnkarma⟩
    refine h.setSlot hid hlt (iff_of_true hnow (h.mem hcd ?_))
    exact ClientData.due_of_not_noqueue hge hnot

/-- A client changes, and with it not what it has to acknowledge. -/
theorem Table.setSlot_same (h : Table mc) (hid : 0 < id) (hcd : mc.client id = some cd)
    {cd' : ClientData} (hslot : slot.client = some cd') (hrkarma : cd'.rkarma = cd.rkarma) :
    Table (mc.setSlot id slot) := by
  have hdue : cd'.Due ↔ cd.Due := by
    unfold ClientData.Due
    rw [hrkarma]
  refine h.setSlot hid (h.lt id (by rw [hcd]; exact Option.some_ne_none cd)) ?_
  rw [h.mem_iff, hcd, hslot]
  constructor
  · rintro ⟨cd'', hcd'', hdue'⟩
    obtain rfl := Option.some.inj hcd''
    exact ⟨cd, rfl, hdue.mp hdue'⟩
  · rintro ⟨cd'', hcd'', hdue'⟩
    obtain rfl := Option.some.inj hcd''
    exact ⟨cd', rfl, hdue.mpr hdue'⟩

theorem Table.disconnectClient (h : Table mc) (hid : 0 < id) (hcd : mc.client id = some cd)
    (hge : -1 ≤ cd.rkarma) {cd' : ClientData} (hrkarma : cd'.rkarma = cd.rkarma) :
    Table (mc.disconnectClient id cd') := by
  have hlt := h.lt id (by rw [hcd]; exact Option.some_ne_none cd)
  have hrkarma' : ({ cd' with s := false, added := false } : ClientData).rkarma = cd.rkarma :=
    hrkarma
  unfold Context.disconnectClient
  split_ifs
  · exact h.setRkarma hid hlt hcd hge hrkarma' (Or.inl rfl)
  · exact h.setSlot_same hid hcd rfl hrkarma

theorem Table.allocateClient (h : Table mc) (hid : 0 < id) (hlt : id < MAX_CLIENTS)
    (hnone : mc.client id = none) (hrkarma : cd.rkarma = 0) : Table (mc.allocateClient id cd) := by
  apply h.setSlot hid hlt
  constructor
  · rintro ⟨cd', hcd', hdue⟩
    obtain rfl := Option.some.inj hcd'
    unfold ClientData.Due at hdue
    have := ACK_THRESHOLD_pos
    omega
  · intro hmem
    obtain ⟨cd', hcd', -⟩ := (h.mem_iff id).mp hmem
    rw [hnone] at hcd'
    cases hcd'

theorem Table.acceptClient (h : Table mc) (hid : 0 < id) (hlt : id < MAX_CLIENTS)
    (hnone : mc.client id = none) : Table (mc.acceptClient id) := by
  have halloc : Table (mc.allocateClient id .accepted) := h.allocateClient hid hlt hnone rfl
  have hclient : (mc.allocateClient id .accepted).client id = some .accepted := by
    unfold Context.allocateClient
    rw [client_setSlot, if_pos rfl]
    rfl
  exact halloc.setRkarma hid hlt hclient (by decide) rfl (Or.inr (by decide))

theorem Table.clientWrote (h : Table mc) (hid : 0 < id) (hlt : id < MAX_CLIENTS)
    (hcd : mc.client id = some cd) (hrkarma : 0 ≤ cd.rkarma) (amt : ℕ) :
    Table (mc.clientWrote id cd amt) := by
  have hnext : (cd.wrote amt).rkarma = cd.rkarma + amt := rfl
  unfold Context.clientWrote
  dsimp only
  split_ifs with hqueue
  · exact h.pushKarma hid hlt ⟨_, rfl, Or.inr hqueue.2⟩ (h.not_mem hcd hqueue.1.not_due)
  · apply h.setSlot hid hlt
    have hdue : (cd.wrote amt).Due ↔ cd.Due := by
      unfold ClientData.Noqueue at hqueue
      unfold ClientData.Due
      omega
    constructor
    · rintro ⟨cd', hcd', hdue'⟩
      obtain rfl := Option.some.inj hcd'
      exact h.mem hcd (hdue.mp hdue')
    · intro hmem
      obtain ⟨cd', hcd', hdue'⟩ := (h.mem_iff id).mp hmem
      rw [hcd] at hcd'
      obtain rfl := Option.some.inj hcd'
      exact ⟨_, rfl, hdue.mpr hdue'⟩

/-! ## Writing acknowledgements -/

/-- The karma that is written for a client. -/
def rkarmaOf (mc : Context) (id : ℕ) : ℤ :=
  match mc.client id with
  | some cd => cd.rkarma
  | none => 0

/-- The entry of the table when the pair of the client is written. -/
def tell (mc : Context) (id : ℕ) : Slot :=
  { mc.clientTable id with
    client := (mc.client id).bind fun cd ↦
      if cd.isRdead then none else some { cd with rkarma := 0 } }

/-- Nothing is due of a client whose pair was written. -/
theorem not_due_tell (mc : Context) (id : ℕ) :
    ¬ ∃ cd, (mc.tell id).client = some cd ∧ cd.Due := by
  rintro ⟨cd, hcd, hdue⟩
  obtain ⟨cd', -, hcd'⟩ := Option.bind_eq_some_iff.mp hcd
  rw [Option.ite_none_left_eq_some, Option.some.injEq] at hcd'
  obtain ⟨-, rfl⟩ := hcd'
  change (0 : ℤ) = -1 ∨ (ACK_THRESHOLD : ℤ) ≤ 0 at hdue
  have := ACK_THRESHOLD_pos
  omega

/-- The table and the queue after the pairs of some clients were written. -/
def tellAll (mc : Context) (room : ℕ) : Context :=
  { mc with
    clientTable := fun id ↦ if id ∈ mc.karmaQueue.take room then mc.tell id else mc.clientTable id
    karmaQueue := mc.karmaQueue.drop room }

/-- The pair that is written for a client. -/
def pairOf (mc : Context) (id : ℕ) : ℤ × ℤ := (id, mc.rkarmaOf id)

theorem rkarmaOf_eq (hcd : mc.client id = some cd) : mc.rkarmaOf id = cd.rkarma := by
  unfold rkarmaOf
  rw [hcd]

theorem tellAll_zero (mc : Context) : mc.tellAll 0 = mc := by simp [tellAll]

theorem tellAll_nil (room : ℕ) (h : mc.karmaQueue = []) : mc.tellAll room = mc := by
  cases mc
  obtain rfl := h
  simp [tellAll]

/-- The first client of the queue, and then the others. -/
theorem tellAll_succ {queue : List ℕ} (room : ℕ) (h : mc.karmaQueue = id :: queue)
    (hid : id ∉ queue) : Context.tellAll
      { mc with
        clientTable := Function.update mc.clientTable id (mc.tell id)
        karmaQueue := queue } room = mc.tellAll (room + 1) := by
  unfold tellAll
  dsimp only
  rw [h, List.take_succ_cons, List.drop_succ_cons]
  congr 1
  funext k
  by_cases hk : k = id
  · have hnot : id ∉ queue.take room := fun hmem ↦ hid (List.mem_of_mem_take hmem)
    rw [hk, if_neg hnot, if_pos List.mem_cons_self, Function.update_self]
  · have htell : Context.tell { mc with
        clientTable := Function.update mc.clientTable id (mc.tell id)
        karmaQueue := queue } k = mc.tell k := by
      simp [tell, client, Function.update_of_ne hk]
    simp [hk, htell]

/-- The loop of `write_ack` takes the first clients of the queue. -/
theorem writeAckLoop_eq (room : ℕ) (hnodup : mc.karmaQueue.Nodup)
    (hclient : ∀ id ∈ mc.karmaQueue, mc.client id ≠ none) :
    writeAckLoop room mc = ((mc.karmaQueue.take room).map mc.pairOf, mc.tellAll room) := by
  induction room generalizing mc with
  | zero => simp [writeAckLoop, tellAll_zero]
  | succ room ih =>
    rw [writeAckLoop]
    cases hqueue : mc.karmaQueue with
    | nil => simp [tellAll_nil _ hqueue]
    | cons id queue =>
      rw [hqueue] at hnodup hclient
      obtain ⟨hid, hqueueNodup⟩ := List.nodup_cons.mp hnodup
      obtain ⟨cd, hcd⟩ := Option.ne_none_iff_exists'.mp (hclient id List.mem_cons_self)
      have hnext : { mc with karmaQueue := queue }.setClient id
          (if cd.isRdead then none else some { cd with rkarma := 0 }) =
          { mc with
            clientTable := Function.update mc.clientTable id (mc.tell id)
            karmaQueue := queue } := by
        rw [tell, hcd]
        rfl
      have hother {k : ℕ} (hk : k ∈ queue) : Context.client { mc with
          clientTable := Function.update mc.clientTable id (mc.tell id)
          karmaQueue := queue } k = mc.client k := by
        have hne : k ≠ id := fun h ↦ hid (h ▸ hk)
        simp [client, Function.update_of_ne hne]
      have hclients : ∀ k ∈ queue, Context.client { mc with
          clientTable := Function.update mc.clientTable id (mc.tell id)
          karmaQueue := queue } k ≠ none := by
        intro k hk
        rw [hother hk]
        exact hclient k (List.mem_cons_of_mem _ hk)
      have hrest := @ih { mc with
        clientTable := Function.update mc.clientTable id (mc.tell id)
        karmaQueue := queue } hqueueNodup hclients
      have hpairs : (queue.take room).map (Context.pairOf { mc with
          clientTable := Function.update mc.clientTable id (mc.tell id)
          karmaQueue := queue }) = (queue.take room).map mc.pairOf := by
        apply List.map_congr_left
        intro k hk
        rw [pairOf, rkarmaOf, hother (List.mem_of_mem_take hk), pairOf, rkarmaOf]
      rw [tellAll_succ room hqueue hid, hpairs] at hrest
      simp only [hcd, hnext, hrest, List.take_succ_cons, List.map_cons, pairOf, rkarmaOf_eq hcd]

/-- What is known of a client by what was said about it. -/
def Sound (mc : Context) : Prop :=
  ∀ id cd, 0 < id → mc.client id = some cd →
    -1 ≤ cd.rkarma ∧ cd.rkarma ≤ CLIENT_KARMA ∧ (cd.isRdead = true → cd.rkarma ≤ 0)

theorem Table.pos (h : Table mc) (hmem : id ∈ mc.karmaQueue) : 0 < id := by
  apply Nat.pos_of_ne_zero
  rintro rfl
  obtain ⟨cd, hcd, hdue⟩ := (h.mem_iff 0).mp hmem
  rw [h.control] at hcd
  obtain rfl := Option.some.inj hcd
  exact absurd hdue (by decide)

theorem Table.client_ne_none (h : Table mc) (hmem : id ∈ mc.karmaQueue) : mc.client id ≠ none := by
  obtain ⟨cd, hcd, -⟩ := (h.mem_iff id).mp hmem
  rw [hcd]
  exact Option.some_ne_none cd

theorem Table.writeAckLoop_eq (h : Table mc) :
    writeAckLoop ROOM mc = ((mc.karmaQueue.take ROOM).map mc.pairOf, mc.tellAll ROOM) :=
  Context.writeAckLoop_eq ROOM h.nodup fun _ hid ↦ h.client_ne_none hid

/-- No assertion of `write_ack` fails when the control client has its turn. -/
theorem Table.ackAsserts (h : Table mc) (hsound : mc.Sound) (hcontrols : 0 < mc.controls)
    (hrstream : 0 ≤ mc.rstreamKarma ∧ mc.rstreamKarma ≤ GLOBAL_KARMA) : mc.AckAsserts := by
  refine ⟨hrstream, ?_, ?_⟩
  · by_contra hno
    have := h.controls
    rw [if_neg hno] at this
    omega
  · intro id hmem cd hcd
    have hid := h.pos (List.mem_of_mem_take hmem)
    obtain ⟨-, hle, hrdead⟩ := hsound id cd hid hcd
    obtain ⟨cd', hcd', hdue⟩ := (h.mem_iff id).mp (List.mem_of_mem_take hmem)
    obtain rfl : cd = cd' := Option.some.inj ((Option.mem_def.mp hcd).symm.trans hcd')
    have hthreshold := ACK_THRESHOLD_pos
    exact ⟨hdue.imp_right fun hge ↦ ⟨hge, hle⟩, fun hdead ↦ hdue.resolve_right fun hge ↦ by
      have := hrdead hdead
      omega⟩

theorem Table.isInt_pairOf (h : Table mc) (hsound : mc.Sound) (hmem : id ∈ mc.karmaQueue) :
    IsInt (mc.pairOf id).1 ∧ IsInt (mc.pairOf id).2 := by
  obtain ⟨cd, hcd, -⟩ := (h.mem_iff id).mp hmem
  obtain ⟨hge, hle, -⟩ := hsound id cd (h.pos hmem) hcd
  have hlt : id < 2 ^ 16 := h.lt id (h.client_ne_none hmem)
  have hmax : cd.rkarma ≤ (2 ^ 16 : ℕ) := hle
  rw [pairOf, rkarmaOf_eq hcd]
  constructor
  · constructor <;> dsimp only <;> omega
  · constructor <;> dsimp only <;> omega

/-- What `write_ack` writes is what `read_ack` will find. -/
theorem Table.entries_ackMessage (h : Table mc) (hsound : mc.Sound) :
    mc.ackMessage.entries = (mc.karmaQueue.take ROOM).map fun id : ℕ ↦
      ((id : ℤ), Entry.ofKarma (mc.rkarmaOf id)) := by
  have hints : ∀ pair ∈ (mc.karmaQueue.take ROOM).map mc.pairOf, IsInt pair.1 ∧ IsInt pair.2 := by
    intro pair hpair
    obtain ⟨id, hid, rfl⟩ := List.mem_map.mp hpair
    exact h.isInt_pairOf hsound (List.mem_of_mem_take hid)
  rw [Message.entries, if_pos (show mc.ackMessage.id = -1 from rfl)]
  rw [show mc.ackMessage.buf = ackBuf mc.rstreamKarma (writeAckLoop ROOM mc).1 from rfl, ackBuf,
    List.drop_left' (length_htonl _), h.writeAckLoop_eq, ackPairs_flatMap hints, List.map_map]
  rfl

theorem karma_ackMessage (h : 0 ≤ mc.rstreamKarma ∧ mc.rstreamKarma ≤ GLOBAL_KARMA) :
    mc.ackMessage.karma = mc.rstreamKarma := by
  have hmax : mc.rstreamKarma ≤ (2 ^ 20 : ℕ) := h.2
  rw [Message.karma, if_pos (show mc.ackMessage.id = -1 from rfl)]
  rw [show mc.ackMessage.buf = ackBuf mc.rstreamKarma (writeAckLoop ROOM mc).1 from rfl, ackBuf,
    List.take_left' (length_htonl _)]
  apply readInt_htonl
  constructor <;> omega

/-- `write_ack` -/
theorem Table.writeAck (h : Table mc) (hsound : mc.Sound) (hcontrols : 0 < mc.controls)
    (hrstream : 0 ≤ mc.rstreamKarma ∧ mc.rstreamKarma ≤ GLOBAL_KARMA) :
    Table mc.writeAck ∧ mc.writeAck = { mc.tellAll ROOM with
      rstreamKarma := 0
      wout := some mc.ackMessage
      wpos := 0
      controls := mc.writeAck.controls } := by
  have hdef : mc.writeAck = { mc.tellAll ROOM with
      rstreamKarma := 0
      wout := some mc.ackMessage
      wpos := 0
      controls := if (mc.tellAll ROOM).karmaQueue = [] then mc.controls - 1 else mc.controls } := by
    rw [Context.writeAck, if_pos (h.ackAsserts hsound hcontrols hrstream), h.writeAckLoop_eq]
  have hone : mc.controls = 1 := by
    have := h.controls
    split_ifs at this
    · exact this
    · omega
  have hclient (id : ℕ) : mc.writeAck.client id =
      if id ∈ mc.karmaQueue.take ROOM then (mc.tell id).client else mc.client id := by
    rw [hdef]
    unfold client tellAll
    dsimp only
    split_ifs <;> rfl
  have hnodup : (mc.karmaQueue.take ROOM ++ mc.karmaQueue.drop ROOM).Nodup := by
    rw [List.take_append_drop]
    exact h.nodup
  refine ⟨?_, by rw [hdef]⟩
  constructor
  · have hzero : 0 ∉ mc.karmaQueue.take ROOM :=
      fun hmem ↦ absurd (h.pos (List.mem_of_mem_take hmem)) (Nat.lt_irrefl 0)
    rw [hclient, if_neg hzero]
    exact h.control
  · intro id hid
    rw [hclient] at hid
    split_ifs at hid with hmem
    · exact h.lt id (h.client_ne_none (List.mem_of_mem_take hmem))
    · exact h.lt id hid
  · rw [hdef]
    exact hnodup.of_append_right
  · intro id
    have hqueue : mc.writeAck.karmaQueue = mc.karmaQueue.drop ROOM := by rw [hdef]; rfl
    rw [hqueue, hclient]
    split_ifs with hmem
    · exact iff_of_false (fun hdrop ↦ List.disjoint_of_nodup_append hnodup hmem hdrop)
        (mc.not_due_tell id)
    · rw [← h.mem_iff id]
      conv_rhs => rw [← List.take_append_drop ROOM mc.karmaQueue]
      rw [List.mem_append, or_iff_right hmem]
  · rw [hdef, hone]
    dsimp only
    have hpos : ¬ ((ACK_THRESHOLD : ℤ) ≤ 0) := by decide
    by_cases hempty : (mc.tellAll ROOM).karmaQueue = []
    · rw [if_pos hempty, if_neg (not_or_intro hpos (not_not_intro hempty))]
    · rw [if_neg hempty, if_pos (Or.inr hempty)]
  · rw [hdef]
    exact h.failed

/-! ## Everything else -/

theorem Table.of_eq (h : Table mc) (htable : mc'.clientTable = mc.clientTable)
    (hqueue : mc'.karmaQueue = mc.karmaQueue) (hcontrols : mc'.controls = mc.controls)
    (hrstream : mc'.rstreamKarma = mc.rstreamKarma) (hfailed : mc'.failed = mc.failed) :
    Table mc' := by
  have hclient (id : ℕ) : mc'.client id = mc.client id := by rw [client, htable, client]
  constructor
  · rw [hclient]
    exact h.control
  · intro id hid
    exact h.lt id (hclient id ▸ hid)
  · rw [hqueue]
    exact h.nodup
  · intro id
    rw [hqueue, hclient]
    exact h.mem_iff id
  · rw [hcontrols, hrstream, hqueue]
    exact h.controls
  · rw [hfailed]
    exact h.failed

/-- `mainr` counts the bytes, and the control client is put into its queue when there are enough of
them. -/
theorem Table.readMain (h : Table mc) (bytes : List UInt8) : Table (mc.readMain bytes) ∧
    mc.readMain bytes = { mc with
      rin := mc.rin ++ bytes
      rstreamKarma := mc.rstreamKarma + bytes.length
      controls := (mc.readMain bytes).controls } := by
  have hdef : mc.readMain bytes = { mc with
      rin := mc.rin ++ bytes
      rstreamKarma := mc.rstreamKarma + bytes.length
      controls := (mc.readMain bytes).controls } := by
    unfold Context.readMain
    dsimp only
    split_ifs <;> rfl
  have hclient (id : ℕ) : (mc.readMain bytes).client id = mc.client id := by
    rw [hdef]
    rfl
  have hcontrols := h.controls
  refine ⟨⟨?_, ?_, ?_, ?_, ?_, ?_⟩, hdef⟩
  · rw [hclient]
    exact h.control
  · intro id hid
    exact h.lt id (hclient id ▸ hid)
  · rw [hdef]
    exact h.nodup
  · intro id
    rw [hclient, hdef]
    exact h.mem_iff id
  · have hrstream : (mc.readMain bytes).rstreamKarma = mc.rstreamKarma + bytes.length := by
      rw [hdef]
    have hqueue : (mc.readMain bytes).karmaQueue = mc.karmaQueue := by rw [hdef]
    rw [hrstream, hqueue]
    unfold Context.readMain
    dsimp only
    by_cases hpush : mc.karmaQueue = [] ∧ mc.rstreamKarma < ACK_THRESHOLD ∧
        (ACK_THRESHOLD : ℤ) ≤ mc.rstreamKarma + bytes.length
    · -- The first thing to acknowledge.
      rw [if_pos hpush]
      obtain ⟨hempty, hbefore, hnow⟩ := hpush
      rw [if_pos (Or.inl hnow)]
      rw [if_neg (not_or.mpr ⟨Int.not_le.mpr hbefore, not_not.mpr hempty⟩)] at hcontrols
      exact congrArg (· + 1) hcontrols
    · have hiff : (ACK_THRESHOLD : ℤ) ≤ mc.rstreamKarma ∨ mc.karmaQueue ≠ [] ↔
          (ACK_THRESHOLD : ℤ) ≤ mc.rstreamKarma + bytes.length ∨ mc.karmaQueue ≠ [] := by
        constructor
        · exact fun hbefore ↦ hbefore.imp_left fun hle ↦ by omega
        · intro hnow
          by_contra hnot
          obtain ⟨hbefore, hempty⟩ := not_or.mp hnot
          rw [not_not] at hempty
          exact hpush ⟨hempty, Int.not_le.mp hbefore, hnow.resolve_right (not_not.mpr hempty)⟩
      rw [if_neg hpush]
      exact hcontrols.trans (if_congr hiff rfl rfl)
  · rw [hdef]
    exact h.failed

/-! ## Doing what a message says -/

/-- The client that `get_client` makes. -/
def newClient (answer : ConnectAnswer) : ClientData :=
  { ClientData.init.initiateConnect answer with wkarma := 0 }

theorem isConnecting_newClient {answer : ConnectAnswer} (h : (newClient answer).added = false) :
    (newClient answer).isConnecting = true := by
  cases answer with
  | quick | inProgress => cases h
  | failed => rfl

variable {answer : ConnectAnswer} {karma : ℤ} {m : Message}

theorem getClient_of_some (hlt : id < MAX_CLIENTS) (hcd : mc.client id = some cd) :
    mc.getClient (id : ℤ) answer = some (cd, mc) := by
  rw [getClient, if_neg (by omega), Int.toNat_natCast, hcd]

theorem getClient_of_none (hlt : id < MAX_CLIENTS) (hnone : mc.client id = none)
    (hdemux : mc.demux = true) : mc.getClient (id : ℤ) answer =
      some (newClient answer, mc.allocateClient id (newClient answer)) := by
  rw [getClient, if_neg (by omega), Int.toNat_natCast, hnone]
  exact if_pos hdemux

@[simp]
theorem client_allocateClient (mc : Context) (id k : ℕ) (cd : ClientData) :
    (mc.allocateClient id cd).client k = if k = id then some cd else mc.client k := by
  rw [allocateClient, client_setSlot]
  rfl

/-- A client that there is not yet is made first. -/
theorem readAckPair_create (hlt : id < MAX_CLIENTS) (hnone : mc.client id = none)
    (hdemux : mc.demux = true) : mc.readAckPair id karma answer =
      (mc.allocateClient id (newClient answer)).readAckPair id karma answer := by
  have hcd : (mc.allocateClient id (newClient answer)).client id = some (newClient answer) := by
    simp
  rw [readAckPair, readAckPair, getClient_of_none hlt hnone hdemux, getClient_of_some hlt hcd]

/-- A round of the loop of `read_ack`, for a client that there is. -/
theorem Table.readAckPair (h : Table mc) (hsound : mc.Sound) (hid : 0 < id)
    (hcd : mc.client id = some cd) (karma : ℤ) (answer : ConnectAnswer) :
    Table (mc.readAckPair id karma answer) ∧
      Touches mc (mc.readAckPair id karma answer) id
        { mc.clientTable id with client := cd.hear (.ofKarma karma) } := by
  have hlt := h.lt id (by rw [hcd]; exact Option.some_ne_none cd)
  obtain ⟨hge, -, -⟩ := hsound id cd hid hcd
  rw [Context.readAckPair, getClient_of_some hlt hcd]
  simp only [Int.toNat_natCast]
  split_ifs with hkarma hs hzero
  · rw [Entry.ofKarma_of_nonneg hkarma]
    have hhear : cd.hear (.karma karma.toNat) = some { cd with wkarma := cd.wkarma + karma } := by
      rw [ClientData.hear, Int.toNat_of_nonneg hkarma]
    rw [hhear]
    exact ⟨h.setSlot_same hid hcd rfl rfl, touches_setSlot mc id _⟩
  · rw [Entry.ofKarma_of_neg (Int.not_le.mp hkarma), ClientData.hear, if_pos hs]
    exact ⟨h.disconnectClient hid hcd hge rfl, touches_disconnectClient mc id _⟩
  · rw [Entry.ofKarma_of_neg (Int.not_le.mp hkarma), ClientData.hear, if_neg hs, if_pos hzero]
    refine ⟨h.setSlot hid hlt (iff_of_false ?_ ?_), touches_setSlot mc id _⟩
    · rintro ⟨_, hnone, _⟩
      cases hnone
    · apply h.not_mem hcd
      unfold ClientData.Due
      have := ACK_THRESHOLD_pos
      omega
  · rw [Entry.ofKarma_of_neg (Int.not_le.mp hkarma), ClientData.hear, if_neg hs, if_neg hzero]
    exact ⟨h.setSlot_same hid hcd rfl rfl, touches_setSlot mc id _⟩

theorem process_create (hm : m.id = id) (hlt : id < MAX_CLIENTS) (hnone : mc.client id = none)
    (hdemux : mc.demux = true) : mc.process m answer =
      (mc.allocateClient id (newClient answer)).process m answer := by
  have hnot : ¬ m.id = -1 := by omega
  have hnone' : Context.client { mc with rin := [] } id = none := hnone
  have hcd : Context.client { mc.allocateClient id (newClient answer) with rin := [] } id =
      some (newClient answer) := by
    change (mc.allocateClient id (newClient answer)).client id = _
    simp
  rw [process, process, if_neg hnot, if_neg hnot, hm, getClient_of_none hlt hnone' hdemux,
    getClient_of_some hlt hcd]
  rfl

/-- A message with data for a client that there is, and room for it. -/
theorem Table.process (h : Table mc) (hid : 0 < id) (hm : m.id = id)
    (hcd : mc.client id = some cd) (hroom : cd.outSz + m.buf.length ≤ CLIENT_KARMA)
    (answer : ConnectAnswer) : Table (mc.process m answer) ∧
      mc.process m answer = { mc.setSlot id
        { mc.clientTable id with client := cd.hear (.data m.buf) } with rin := [] } := by
  have hlt := h.lt id (by rw [hcd]; exact Option.some_ne_none cd)
  have hnot : ¬ m.id = -1 := by omega
  have hcd' : Context.client { mc with rin := [] } id = some cd := hcd
  have hdef : mc.process m answer = { mc.setSlot id
      { mc.clientTable id with client := cd.hear (.data m.buf) } with rin := [] } := by
    rw [Context.process, if_neg hnot, hm, getClient_of_some hlt hcd']
    simp only [if_neg (Nat.not_lt.mpr hroom)]
    rfl
  have hset : Table (mc.setSlot id { mc.clientTable id with client := cd.hear (.data m.buf) }) :=
    h.setSlot_same hid hcd rfl rfl
  refine ⟨?_, hdef⟩
  rw [hdef]
  exact hset.of_eq rfl rfl rfl rfl rfl

/-- An acknowledgement that does not give more karma than there is. -/
theorem process_ack (hm : m.id = -1)
    (hbounds : 0 ≤ mc.streamKarma + m.karma ∧ mc.streamKarma + m.karma ≤ GLOBAL_KARMA) :
    mc.process m answer = { mc with
      rin := []
      streamKarma := mc.streamKarma + m.karma
      pairs := ackPairs (m.buf.drop 4) } := by
  have hmax : mc.streamKarma + m.karma ≤ (2 ^ 20 : ℕ) := hbounds.2
  have hbmod : (mc.streamKarma + m.karma).bmod (2 ^ 32) = mc.streamKarma + m.karma :=
    Int.bmod_eq_of_le (by omega) (by omega)
  rw [process, if_pos hm]
  simp only [hbmod, if_pos hbounds]

end Context

end QNet.Tcpmux
