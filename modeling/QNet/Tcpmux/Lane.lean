import Mathlib.Algebra.GroupWithZero.Nat
import QNet.Lib.Epochs
import QNet.Tcpmux.Context
import QNet.Tcpmux.Resume

/-!
# One client id on both sides

All that the two processes say about one client id is two lists of entries, one in each direction.
The notices that a client is gone cut both lists into epochs, and epoch `n` of either list is about
the `n`-th client with this id. Each side keeps four counts on its own: of the bytes it may still
send and has sent, and of those it has written and has still to acknowledge. That the entries come
in the order in which they were said is enough to bound what comes by the room there is, and to keep
the clients that had the id one after the other apart.
-/

namespace QNet.Tcpmux

open Epochs

namespace Entry

def isClosed : Entry → Bool
  | closed => true
  | _ => false

def bytes : Entry → List UInt8
  | data bytes => bytes
  | _ => []

def amount : Entry → ℕ
  | karma amt => amt
  | _ => 0

theorem ofKarma_of_nonneg {k : ℤ} (h : 0 ≤ k) : ofKarma k = karma k.toNat := if_pos h

theorem ofKarma_of_neg {k : ℤ} (h : k < 0) : ofKarma k = closed := if_neg (Int.not_le.mpr h)

@[simp]
theorem bytes_ofKarma (k : ℤ) : (ofKarma k).bytes = [] := by
  unfold ofKarma
  split_ifs <;> rfl

end Entry

/-! ## What the entries of an epoch come to -/

/-- The number of the clients that are gone. -/
def goneIn (entries : List Entry) : ℕ := ended Entry.isClosed entries

/-- The bytes of the `n`-th client. -/
def dataAt (n : ℕ) (entries : List Entry) : List UInt8 :=
  (epoch Entry.isClosed n entries).flatMap Entry.bytes

/-- The karma of the `n`-th client. -/
def karmaAt (n : ℕ) (entries : List Entry) : ℕ :=
  ((epoch Entry.isClosed n entries).map Entry.amount).sum

/-- There is an entry about the `n`-th client. -/
def Mentions (entries : List Entry) (n : ℕ) : Prop := epoch Entry.isClosed n entries ≠ []

section Entries

variable {entries entries' : List Entry} {e : Entry} {n : ℕ}

@[simp]
theorem goneIn_nil : goneIn [] = 0 := rfl

@[simp]
theorem dataAt_nil (n : ℕ) : dataAt n [] = [] := by rw [dataAt, epoch_nil, List.flatMap_nil]

@[simp]
theorem karmaAt_nil (n : ℕ) : karmaAt n [] = 0 := by
  rw [karmaAt, epoch_nil, List.map_nil, List.sum_nil]

@[simp]
theorem not_mentions_nil (n : ℕ) : ¬ Mentions [] n := by
  unfold Mentions
  rw [epoch_nil]
  exact not_not_intro rfl

theorem goneIn_append (e : Entry) :
    goneIn (entries ++ [e]) = goneIn entries + if e.isClosed then 1 else 0 := ended_append e

theorem dataAt_append (n : ℕ) (e : Entry) :
    dataAt n (entries ++ [e]) = dataAt n entries ++ if goneIn entries = n then e.bytes else [] := by
  rw [dataAt, epoch_append, List.flatMap_append]
  split_ifs <;> simp_all [goneIn, dataAt]

theorem karmaAt_append (n : ℕ) (e : Entry) :
    karmaAt n (entries ++ [e]) =
      karmaAt n entries + if goneIn entries = n then e.amount else 0 := by
  rw [karmaAt, epoch_append, List.map_append, List.sum_append]
  split_ifs <;> simp_all [goneIn, karmaAt]

theorem mentions_append (n : ℕ) (e : Entry) :
    Mentions (entries ++ [e]) n ↔ Mentions entries n ∨ goneIn entries = n := by
  unfold Mentions
  rw [epoch_append]
  split_ifs <;> simp_all [goneIn]

theorem goneIn_le_of_isPrefix (h : entries <+: entries') : goneIn entries ≤ goneIn entries' :=
  ended_le_of_isPrefix h

theorem isPrefix_dataAt (n : ℕ) (h : entries <+: entries') :
    dataAt n entries <+: dataAt n entries' := by
  obtain ⟨rest, hrest⟩ := isPrefix_epoch n h
  exact ⟨rest.flatMap Entry.bytes, by rw [dataAt, dataAt, ← hrest, List.flatMap_append]⟩

theorem karmaAt_le_of_isPrefix (n : ℕ) (h : entries <+: entries') :
    karmaAt n entries ≤ karmaAt n entries' := by
  obtain ⟨rest, hrest⟩ := isPrefix_epoch n h
  rw [karmaAt, karmaAt, ← hrest, List.map_append, List.sum_append]
  exact Nat.le_add_right _ _

theorem mentions_next (h : entries ++ [e] <+: entries') : Mentions entries' (goneIn entries) :=
  epoch_ne_nil h

theorem dataAt_eq_nil (h : ¬ Mentions entries n) : dataAt n entries = [] := by
  rw [dataAt, Classical.not_not.mp h, List.flatMap_nil]

theorem karmaAt_eq_zero (h : ¬ Mentions entries n) : karmaAt n entries = 0 := by
  rw [karmaAt, Classical.not_not.mp h, List.map_nil, List.sum_nil]

end Entries

/-! ## One side -/

/-- The karma that a side has for a new client, and what it has to give to the other side: the mux
begins with all of the first, and gives away all of the second. -/
def grant : Side → ℕ
  | .mux => CLIENT_KARMA
  | .demux => 0

theorem grant_add_grant_peer (x : Side) : grant x + grant x.peer = CLIENT_KARMA := by
  cases x <;> rfl

/-- What `disconnect_client` makes of a client. -/
def ClientData.disconnected (cd : ClientData) : ClientData :=
  if cd.added then { cd with s := false, added := false, rkarma := -1 } else cd

/-- What is done with the record of a client because of an entry. -/
def ClientData.hear (cd : ClientData) : Entry → Option ClientData
  | .data bytes => some (cd.store bytes)
  | .karma amt => some { cd with wkarma := cd.wkarma + amt }
  | .closed =>
      if cd.s then some (ClientData.disconnected { cd with isRdead := true })
      else if cd.rkarma = 0 then none
      else some { cd with isRdead := true }

/-- What a client is in when a side has said and heard that so many clients with its id are gone. -/
inductive Phase : Option ClientData → (allocs said heard : ℕ) → Prop
  | absent (n : ℕ) : Phase none n n n
  | opened {cd : ClientData} (n : ℕ) (s : cd.s = true) (isRdead : cd.isRdead = false)
      (rkarma : 0 ≤ cd.rkarma)
      (lost : cd.added = false → cd.isConnecting = true ∧ cd.rkarma = 0) :
      Phase (some cd) (n + 1) n n
  /-- The client is gone, and the other side is to be told. -/
  | gone {cd : ClientData} (n : ℕ) (s : cd.s = false) (isRdead : cd.isRdead = false)
      (rkarma : cd.rkarma = -1) : Phase (some cd) (n + 1) n n
  /-- The other side has been told. -/
  | told {cd : ClientData} (n : ℕ) (s : cd.s = false) (isRdead : cd.isRdead = false)
      (rkarma : cd.rkarma = 0) : Phase (some cd) (n + 1) (n + 1) n
  /-- The client of the other side is gone, and it is to be told of this one. -/
  | rdead {cd : ClientData} (n : ℕ) (s : cd.s = false) (isRdead : cd.isRdead = true)
      (rkarma : cd.rkarma = -1) : Phase (some cd) (n + 1) n (n + 1)
  /-- The client of the other side is gone, and it is never told of this one, whose socket did not
  come into the epoll set. -/
  | stuck {cd : ClientData} (n : ℕ) (added : cd.added = false)
      (isConnecting : cd.isConnecting = true) (rkarma : cd.rkarma = 0) :
      Phase (some cd) (n + 1) n (n + 1)

namespace Phase

variable {cd : ClientData} {allocs said heard : ℕ}

theorem of_none (h : Phase none allocs said heard) : said = allocs ∧ heard = allocs := by
  cases h
  exact ⟨rfl, rfl⟩

/-- A client with a socket in the epoll set. -/
theorem of_added (h : Phase (some cd) allocs said heard) (hs : cd.s = true)
    (hadded : cd.added = true) :
    cd.isRdead = false ∧ 0 ≤ cd.rkarma ∧ allocs = said + 1 ∧ heard = said := by
  cases h with
  | opened n _ hrdead hrkarma => exact ⟨hrdead, hrkarma, rfl, rfl⟩
  | gone n hs' | told n hs' | rdead n hs' =>
    rw [hs'] at hs
    cases hs
  | stuck n hadded' =>
    rw [hadded'] at hadded
    cases hadded

/-- The socket of a client that is connected is in the epoll set. -/
theorem added_of_connected (h : Phase (some cd) allocs said heard) (hs : cd.s = true)
    (hcon : cd.isConnecting = false) : cd.added = true := by
  cases h with
  | opened n _ _ _ hlost =>
    by_contra hadded
    rw [(hlost (by simpa using hadded)).1] at hcon
    cases hcon
  | gone n hs' | told n hs' | rdead n hs' =>
    rw [hs'] at hs
    cases hs
  | stuck n _ hcon' =>
    rw [hcon'] at hcon
    cases hcon

/-- A client that has something to acknowledge. -/
theorem of_due (h : Phase (some cd) allocs said heard) (hdue : cd.rkarma = -1 ∨ 0 < cd.rkarma) :
    said < allocs ∧ (0 < cd.rkarma → cd.s = true) ∧ (cd.s = true → cd.added = true) := by
  cases h with
  | opened n hs _ _ hlost =>
    refine ⟨Nat.lt_succ_self _, fun _ ↦ hs, fun _ ↦ ?_⟩
    by_contra hadded
    have := (hlost (by simpa using hadded)).2
    omega
  | gone n hs _ hrkarma | rdead n hs _ hrkarma =>
    exact ⟨Nat.lt_succ_self _, by omega, fun hs' ↦ Bool.noConfusion (hs.symm.trans hs')⟩
  | told n _ _ hrkarma | stuck n _ _ hrkarma => omega

/-- The phase when the pair of the client is written. -/
theorem tell (h : Phase (some cd) allocs said heard) (hdue : cd.rkarma = -1 ∨ 0 < cd.rkarma) :
    Phase (if cd.isRdead then none else some { cd with rkarma := 0 }) allocs
      (said + if (Entry.ofKarma cd.rkarma).isClosed then 1 else 0) heard := by
  cases h with
  | opened n hs hrdead hrkarma hlost =>
    rw [hrdead, Entry.ofKarma_of_nonneg hrkarma]
    exact .opened _ hs rfl (Int.le_refl 0) fun hadded ↦ ⟨(hlost hadded).1, rfl⟩
  | gone n hs hrdead hrkarma =>
    rw [hrdead, hrkarma]
    exact .told _ hs rfl rfl
  | rdead n hs hrdead hrkarma =>
    rw [hrdead, hrkarma]
    exact .absent _
  | told n _ _ hrkarma | stuck n _ _ hrkarma => omega

/-- The phase after an entry about the client. -/
theorem hear (h : Phase (some cd) allocs said heard) (hlive : allocs = heard + 1) (e : Entry) :
    Phase (cd.hear e) allocs said (heard + if e.isClosed then 1 else 0) := by
  cases e with
  | data bytes | karma amt =>
    cases h with
    | opened _ hs hrdead hrkarma hlost => exact .opened _ hs hrdead hrkarma hlost
    | gone _ hs hrdead hrkarma => exact .gone _ hs hrdead hrkarma
    | told _ hs hrdead hrkarma => exact .told _ hs hrdead hrkarma
    | rdead | stuck => omega
  | closed =>
    cases h with
    | opened _ hs _ _ hlost =>
      rw [ClientData.hear, if_pos hs, ClientData.disconnected]
      dsimp only
      by_cases hadded : cd.added = true
      · rw [if_pos hadded]
        exact .rdead _ rfl rfl rfl
      · rw [if_neg hadded]
        obtain ⟨hcon, hrkarma⟩ := hlost (by simpa using hadded)
        exact .stuck _ (by simpa using hadded) hcon hrkarma
    | gone _ hs _ hrkarma =>
      rw [ClientData.hear, if_neg (by simp [hs]), if_neg (by omega)]
      exact .rdead _ hs rfl hrkarma
    | told _ hs _ hrkarma =>
      rw [ClientData.hear, if_neg (by simp [hs]), if_pos hrkarma]
      exact .absent _
    | rdead | stuck => omega

end Phase

/-- An id on one side: its entry in the table, what the side has said about it and what it has
heard. -/
structure End where
  slot : Slot
  said : List Entry
  heard : List Entry

namespace End

/-- The counts of the client that has the id now, the `n`-th one. -/
structure Counts (g : ℕ) (z : End) (cd : ClientData) (n : ℕ) : Prop where
  wkarma : cd.wkarma + (z.slot.read n).length = (g + karmaAt n z.heard : ℕ)
  rkarma : cd.s = true → cd.rkarma + karmaAt n z.said = (g + (z.slot.written n).length : ℕ)
  outBuf : Replay.Recent CLIENT_KARMA cd.outBuf (dataAt n z.heard)
  outSz : (z.slot.written n).length + cd.outSz = (dataAt n z.heard).length
  outPos : cd.outPos = (z.slot.written n).length % CLIENT_KARMA
  outSz_le : cd.outSz ≤ CLIENT_KARMA

/-- What a side keeps on its own. -/
structure Kept (g : ℕ) (z : End) : Prop where
  phase : Phase z.slot.client z.slot.allocs (goneIn z.said) (goneIn z.heard)
  read : ∀ n, dataAt n z.said = z.slot.read n
  written : ∀ n, z.slot.written n <+: dataAt n z.heard
  said : ∀ n, Mentions z.said n → n < z.slot.allocs
  heard : ∀ n, Mentions z.heard n → n < z.slot.allocs
  read_le : ∀ n, (z.slot.read n).length ≤ g + karmaAt n z.heard
  karma_le : ∀ n, karmaAt n z.said ≤ g + (z.slot.written n).length
  counts : ∀ cd n, z.slot.client = some cd → z.slot.allocs = n + 1 → z.Counts g cd n

variable {g : ℕ} {z : End} {cd : ClientData}

theorem kept_empty (g : ℕ) : Kept g ⟨.empty, [], []⟩ where
  phase := .absent 0
  read n := dataAt_nil n
  written _ := List.nil_prefix
  said n h := absurd h (not_mentions_nil n)
  heard n h := absurd h (not_mentions_nil n)
  read_le _ := Nat.zero_le _
  karma_le n := by
    rw [karmaAt_nil]
    exact Nat.zero_le _
  counts _ _ h := by cases h

/-- The history of a client that there has not been. -/
theorem Kept.fresh (h : z.Kept g) {n : ℕ} (hn : z.slot.allocs ≤ n) :
    z.slot.read n = [] ∧ z.slot.written n = [] ∧ dataAt n z.heard = [] ∧ karmaAt n z.said = 0 ∧
      karmaAt n z.heard = 0 := by
  have hsaid : ¬ Mentions z.said n := fun hm ↦ absurd (h.said n hm) (Nat.not_lt.mpr hn)
  have hheard : ¬ Mentions z.heard n := fun hm ↦ absurd (h.heard n hm) (Nat.not_lt.mpr hn)
  have hdata := dataAt_eq_nil hheard
  have hwritten := h.written n
  rw [hdata, List.prefix_nil] at hwritten
  exact ⟨by rw [← h.read, dataAt_eq_nil hsaid], hwritten, hdata, karmaAt_eq_zero hsaid,
    karmaAt_eq_zero hheard⟩

/-- A new client. -/
theorem Kept.alloc (h : z.Kept g) (hnone : z.slot.client = none) (hs : cd.s = true)
    (hrdead : cd.isRdead = false) (hwkarma : cd.wkarma = g) (hrkarma : cd.rkarma = g)
    (hlost : cd.added = false → cd.isConnecting = true ∧ cd.rkarma = 0) (hpos : cd.outPos = 0)
    (hsz : cd.outSz = 0) : Kept g { z with slot := z.slot.alloc cd } where
  phase := by
    have hphase := h.phase
    rw [hnone] at hphase
    obtain ⟨hsaid, hheard⟩ := hphase.of_none
    change Phase (some cd) (z.slot.allocs + 1) (goneIn z.said) (goneIn z.heard)
    rw [hsaid, hheard]
    exact .opened _ hs hrdead (by omega) hlost
  read := h.read
  written := h.written
  said n hm := Nat.lt_succ_of_lt (h.said n hm)
  heard n hm := Nat.lt_succ_of_lt (h.heard n hm)
  read_le := h.read_le
  karma_le := h.karma_le
  counts cd' n hcd hn := by
    obtain rfl : cd = cd' := Option.some.inj hcd
    obtain rfl : z.slot.allocs = n := Nat.succ.inj hn
    obtain ⟨hread, hwritten, hdata, hsaid, hheard⟩ := h.fresh (Nat.le_refl _)
    constructor
    · change cd.wkarma + (z.slot.read _).length = _
      simp [hread, hheard, hwkarma]
    · intro _
      change cd.rkarma + _ = ((g + (z.slot.written _).length : ℕ) : ℤ)
      simp [hwritten, hsaid, hrkarma]
    · change Replay.Recent _ _ (dataAt _ z.heard)
      rw [hdata]
      exact Replay.recent_nil _ _
    · change (z.slot.written _).length + _ = (dataAt _ z.heard).length
      rw [hwritten, hdata, hsz]
      rfl
    · change _ = (z.slot.written _).length % _
      rw [hwritten, hpos]
      rfl
    · omega

/-- The record of a client has changed, and with it none of its counts. -/
structure SameCounts (cd cd' : ClientData) : Prop where
  wkarma : cd'.wkarma = cd.wkarma
  rkarma : cd'.s = true → cd.s = true ∧ cd'.rkarma = cd.rkarma
  outBuf : cd'.outBuf = cd.outBuf
  outSz : cd'.outSz = cd.outSz
  outPos : cd'.outPos = cd.outPos

theorem Counts.same {cd' : ClientData} {n : ℕ} (h : z.Counts g cd n) (hsame : SameCounts cd cd') :
    z.Counts g cd' n where
  wkarma := by
    rw [hsame.wkarma]
    exact h.wkarma
  rkarma hs := by
    obtain ⟨hs, heq⟩ := hsame.rkarma hs
    rw [heq]
    exact h.rkarma hs
  outBuf := by
    rw [hsame.outBuf]
    exact h.outBuf
  outSz := by
    rw [hsame.outSz]
    exact h.outSz
  outPos := by
    rw [hsame.outPos]
    exact h.outPos
  outSz_le := by
    rw [hsame.outSz]
    exact h.outSz_le

/-- Only the client changes, and not its counts. -/
theorem Kept.update (h : z.Kept g) (hcd : z.slot.client = some cd) {cd' : ClientData}
    (hphase : Phase (some cd') z.slot.allocs (goneIn z.said) (goneIn z.heard))
    (hsame : SameCounts cd cd') :
    Kept g { z with slot := { z.slot with client := some cd' } } where
  phase := hphase
  read := h.read
  written := h.written
  said := h.said
  heard := h.heard
  read_le := h.read_le
  karma_le := h.karma_le
  counts cd'' n hcd'' hn := by
    obtain rfl : cd' = cd'' := Option.some.inj hcd''
    obtain ⟨hwkarma, hrkarma, houtBuf, houtSz, houtPos, houtSzLe⟩ :=
      (h.counts cd n hcd hn).same hsame
    exact ⟨hwkarma, hrkarma, houtBuf, houtSz, houtPos, houtSzLe⟩

theorem Kept.connected (h : z.Kept g) (hcd : z.slot.client = some cd) (hs : cd.s = true)
    (hadded : cd.added = true) :
    Kept g { z with slot := { z.slot with client := some { cd with isConnecting := false } } } := by
  have hphase := h.phase
  rw [hcd] at hphase
  obtain ⟨hrdead, hrkarma, hallocs, hheard⟩ := hphase.of_added hs hadded
  refine h.update hcd ?_ ⟨rfl, fun _ ↦ ⟨hs, rfl⟩, rfl, rfl, rfl⟩
  rw [hallocs, hheard]
  exact .opened _ hs hrdead hrkarma (by simp [hadded])

theorem sameCounts_disconnected (cd : ClientData) : SameCounts cd cd.disconnected := by
  unfold ClientData.disconnected
  split_ifs
  · exact ⟨rfl, nofun, rfl, rfl, rfl⟩
  · exact ⟨rfl, fun hs ↦ ⟨hs, rfl⟩, rfl, rfl, rfl⟩

/-- A client that stays when the one of the other side is gone. -/
theorem sameCounts_hear_closed {cd' : ClientData} (h : cd.hear .closed = some cd') :
    SameCounts cd cd' := by
  unfold ClientData.hear at h
  dsimp only at h
  split_ifs at h
  · obtain rfl := Option.some.inj h
    obtain ⟨hwkarma, hrkarma, houtBuf, houtSz, houtPos⟩ :=
      sameCounts_disconnected { cd with isRdead := true }
    exact ⟨hwkarma, hrkarma, houtBuf, houtSz, houtPos⟩
  · obtain rfl := Option.some.inj h
    exact ⟨rfl, fun hs ↦ ⟨hs, rfl⟩, rfl, rfl, rfl⟩

/-- `disconnect_client` -/
theorem Kept.gone (h : z.Kept g) (hcd : z.slot.client = some cd) (hs : cd.s = true)
    (hadded : cd.added = true) :
    Kept g { z with slot := { z.slot with client := some cd.disconnected } } := by
  have hphase := h.phase
  rw [hcd] at hphase
  obtain ⟨hrdead, -, hallocs, hheard⟩ := hphase.of_added hs hadded
  refine h.update hcd ?_ (sameCounts_disconnected cd)
  rw [hallocs, hheard, ClientData.disconnected, if_pos hadded]
  exact .gone _ rfl hrdead rfl

/-- Bytes were added to the history of one client. -/
theorem update_append (history : ℕ → List UInt8) (k : ℕ) (bytes : List UInt8) (n : ℕ) :
    Function.update history k (history k ++ bytes) n =
      history n ++ if k = n then bytes else [] := by
  by_cases hn : k = n
  · rw [if_pos hn, ← hn, Function.update_self]
  · rw [if_neg hn, Function.update_of_ne (Ne.symm hn), List.append_nil]

/-- `mainw` reads a packet from the client. -/
theorem Kept.data (h : z.Kept g) (hcd : z.slot.client = some cd) (hs : cd.s = true)
    (hcon : cd.isConnecting = false) {bytes : List UInt8} (hle : (bytes.length : ℤ) ≤ cd.wkarma) :
    Kept g { z with
      slot := Slot.addRead
        { z.slot with client := some { cd with wkarma := cd.wkarma - bytes.length } } bytes
      said := z.said ++ [.data bytes] } := by
  have hphase := h.phase
  rw [hcd] at hphase
  have hadded := hphase.added_of_connected hs hcon
  obtain ⟨hrdead, hrkarma, hallocs, hheard⟩ := hphase.of_added hs hadded
  have hcounts := h.counts cd _ hcd hallocs
  have hlast : z.slot.allocs - 1 = goneIn z.said := by omega
  have hread := update_append z.slot.read (goneIn z.said) bytes
  have hkarma (n : ℕ) : karmaAt n (z.said ++ [.data bytes]) = karmaAt n z.said := by
    rw [karmaAt_append]
    simp [Entry.amount]
  unfold Slot.addRead
  dsimp only
  rw [hlast]
  constructor
  · dsimp only
    rw [goneIn_append, hallocs, hheard]
    exact .opened _ hs hrdead hrkarma (by simp [hadded])
  · intro n
    dsimp only
    rw [dataAt_append, h.read, hread]
    rfl
  · exact h.written
  · intro n hm
    rcases (mentions_append n _).mp hm with hm | rfl
    · exact h.said n hm
    · exact hallocs ▸ Nat.lt_succ_self _
  · exact h.heard
  · intro n
    dsimp only
    have hold := h.read_le n
    have hnow := hcounts.wkarma
    rw [hread, List.length_append]
    split_ifs with hn
    · rw [← hn]
      omega
    · exact hold
  · intro n
    dsimp only
    rw [hkarma]
    exact h.karma_le n
  · intro cd' n hcd' hn
    dsimp only at hcd' hn
    obtain rfl := Option.some.inj hcd'
    obtain rfl : goneIn z.said = n := Nat.succ.inj (hallocs.symm.trans hn)
    refine ⟨?_, ?_, hcounts.outBuf, hcounts.outSz, hcounts.outPos, hcounts.outSz_le⟩
    · have hnow := hcounts.wkarma
      dsimp only
      rw [hread, if_pos rfl, List.length_append, Int.natCast_add]
      omega
    · intro hs'
      dsimp only
      rw [hkarma]
      exact hcounts.rkarma hs'

/-- The karma that was given when the pair of the client is written. -/
theorem karmaAt_tell (said : List Entry) (hdue : cd.rkarma = -1 ∨ 0 < cd.rkarma) (n : ℕ) :
    karmaAt n (said ++ [.ofKarma cd.rkarma]) =
      karmaAt n said + if goneIn said = n then cd.rkarma.toNat else 0 := by
  rw [karmaAt_append]
  rcases hdue with hgone | hpos
  · rw [hgone]
    rfl
  · rw [Entry.ofKarma_of_nonneg hpos.le]
    rfl

/-- The counts of a client that stays when its pair is written. -/
theorem Kept.counts_tell (h : z.Kept g) (hcd : z.slot.client = some cd)
    (hdue : cd.rkarma = -1 ∨ 0 < cd.rkarma) {n : ℕ} (hn : z.slot.allocs = n + 1) :
    Counts g { z with said := z.said ++ [.ofKarma cd.rkarma] } { cd with rkarma := 0 } n := by
  have hphase := h.phase
  rw [hcd] at hphase
  obtain ⟨-, -, hadded⟩ := hphase.of_due hdue
  have hcounts := h.counts cd n hcd hn
  refine ⟨hcounts.wkarma, fun hs ↦ ?_, hcounts.outBuf, hcounts.outSz, hcounts.outPos,
    hcounts.outSz_le⟩
  obtain ⟨-, hrkarma, hallocs, -⟩ := hphase.of_added hs (hadded hs)
  obtain rfl : goneIn z.said = n := Nat.succ.inj (hallocs.symm.trans hn)
  have hnow := hcounts.rkarma hs
  dsimp only
  rw [karmaAt_tell z.said hdue, if_pos rfl]
  omega

/-- A client gives no more karma than it has written. -/
theorem Kept.karma_le_tell (h : z.Kept g) (hcd : z.slot.client = some cd)
    (hdue : cd.rkarma = -1 ∨ 0 < cd.rkarma) (n : ℕ) :
    karmaAt n (z.said ++ [.ofKarma cd.rkarma]) ≤ g + (z.slot.written n).length := by
  have hphase := h.phase
  rw [hcd] at hphase
  obtain ⟨-, hsocket, hadded⟩ := hphase.of_due hdue
  have hold := h.karma_le n
  rw [karmaAt_tell z.said hdue]
  split_ifs with hn
  · rcases hdue with hgone | hpos
    · rw [hgone]
      exact hold
    · have hs := hsocket hpos
      obtain ⟨-, -, hallocs, -⟩ := hphase.of_added hs (hadded hs)
      have hnow := (h.counts cd _ hcd hallocs).rkarma hs
      rw [← hn]
      omega
  · exact hold

/-- `write_ack` writes the pair of the client. -/
theorem Kept.tell (h : z.Kept g) (hcd : z.slot.client = some cd)
    (hdue : cd.rkarma = -1 ∨ 0 < cd.rkarma) :
    Kept g { z with
      slot := { z.slot with
        client := if cd.isRdead then none else some { cd with rkarma := 0 } }
      said := z.said ++ [.ofKarma cd.rkarma] } := by
  have hphase := h.phase
  rw [hcd] at hphase
  constructor
  · dsimp only
    rw [goneIn_append]
    exact hphase.tell hdue
  · intro n
    rw [dataAt_append, h.read]
    simp
  · exact h.written
  · intro n hm
    rcases (mentions_append n _).mp hm with hm | rfl
    · exact h.said n hm
    · exact (hphase.of_due hdue).1
  · exact h.heard
  · exact h.read_le
  · exact h.karma_le_tell hcd hdue
  · intro cd' n hcd' hn
    dsimp only at hcd' hn
    rw [Option.ite_none_left_eq_some, Option.some.injEq] at hcd'
    obtain ⟨-, rfl⟩ := hcd'
    obtain ⟨hwkarma, hrkarma, houtBuf, houtSz, houtPos, houtSzLe⟩ := h.counts_tell hcd hdue hn
    exact ⟨hwkarma, hrkarma, houtBuf, houtSz, houtPos, houtSzLe⟩

/-- What is written next is the data that comes next. -/
theorem Counts.outgoing_eq {n : ℕ} (h : z.Counts g cd n)
    (hwritten : z.slot.written n <+: dataAt n z.heard) :
    z.slot.written n ++ cd.outgoing <+: dataAt n z.heard := by
  have hsz := h.outSz
  have hle := h.outSz_le
  have hplace : (z.slot.written n).length % CLIENT_KARMA < CLIENT_KARMA :=
    Nat.mod_lt _ (by decide)
  have hslice := h.outBuf.slice (i := (z.slot.written n).length)
    (m := min cd.outSz (CLIENT_KARMA - cd.outPos)) (by omega) (by omega)
    (by rw [h.outPos]; omega)
  unfold ClientData.outgoing
  rw [h.outPos] at hslice ⊢
  rw [hslice]
  exact Session.isPrefix_append_take hwritten _

/-- What `clientw` writes does not reach over the end of `out_buf`. -/
theorem Counts.le_of_outgoing {n amt : ℕ} (h : z.Counts g cd n) (hamt : amt ≤ cd.outgoing.length) :
    amt ≤ cd.outSz ∧ cd.outPos + amt ≤ CLIENT_KARMA := by
  unfold ClientData.outgoing at hamt
  rw [Mem.length_slice] at hamt
  have hplace : cd.outPos < CLIENT_KARMA := by
    rw [h.outPos]
    exact Nat.mod_lt _ (by decide)
  omega

/-- The counts when bytes were written to the client. -/
theorem Counts.wrote {z' : End} {n amt : ℕ} (h : z.Counts g cd n) (hamt : amt ≤ cd.outgoing.length)
    (hread : z'.slot.read = z.slot.read)
    (hwritten : z'.slot.written n = z.slot.written n ++ cd.outgoing.take amt)
    (hsaid : z'.said = z.said) (hheard : z'.heard = z.heard) :
    z'.Counts g (cd.wrote amt) n := by
  have hlength : (cd.outgoing.take amt).length = amt := List.length_take_of_le hamt
  obtain ⟨hle, hfits⟩ := h.le_of_outgoing hamt
  have hsz := h.outSz
  have hpos := h.outPos
  have hmax := h.outSz_le
  constructor
  · rw [hread, hheard]
    exact h.wkarma
  · intro hs
    have hnow := h.rkarma hs
    dsimp only [ClientData.wrote]
    rw [hsaid, hwritten, List.length_append, hlength]
    omega
  · rw [hheard]
    exact h.outBuf
  · dsimp only [ClientData.wrote]
    rw [hheard, hwritten, List.length_append, hlength]
    omega
  · dsimp only [ClientData.wrote]
    rw [hwritten, List.length_append, hlength, ← Nat.mod_add_mod, ← hpos]
    split_ifs with hwrap
    · rw [show cd.outPos + amt = CLIENT_KARMA by omega, Nat.mod_self, Nat.sub_self]
    · rw [Nat.mod_eq_of_lt (Nat.not_le.mp hwrap)]
  · dsimp only [ClientData.wrote]
    omega

/-- `clientw` writes to the client. -/
theorem Kept.wrote (h : z.Kept g) (hcd : z.slot.client = some cd) (hs : cd.s = true)
    (hcon : cd.isConnecting = false) {amt : ℕ} (hamt : amt ≤ cd.outgoing.length) :
    Kept g { z with
      slot := Slot.addWritten { z.slot with client := some (cd.wrote amt) }
        (cd.outgoing.take amt) } := by
  have hphase := h.phase
  rw [hcd] at hphase
  have hadded := hphase.added_of_connected hs hcon
  obtain ⟨hrdead, hrkarma, hallocs, hheard⟩ := hphase.of_added hs hadded
  have hcounts := h.counts cd _ hcd hallocs
  have hlast : z.slot.allocs - 1 = goneIn z.said := by omega
  have hwritten := update_append z.slot.written (goneIn z.said) (cd.outgoing.take amt)
  unfold Slot.addWritten
  dsimp only
  rw [hlast]
  constructor
  · dsimp only
    rw [hallocs, hheard]
    exact .opened _ hs hrdead (Int.add_nonneg hrkarma (Int.natCast_nonneg amt))
      (by simp [ClientData.wrote, hadded])
  · exact h.read
  · intro n
    dsimp only
    rw [hwritten]
    split_ifs with hn
    · rw [← hn]
      refine List.IsPrefix.trans ?_ (hcounts.outgoing_eq (h.written _))
      rw [List.prefix_append_right_inj]
      exact List.take_prefix _ _
    · rw [List.append_nil]
      exact h.written n
  · exact h.said
  · exact h.heard
  · exact h.read_le
  · intro n
    dsimp only
    rw [hwritten, List.length_append]
    have hold := h.karma_le n
    omega
  · intro cd' n hcd' hn
    dsimp only at hcd' hn
    obtain rfl := Option.some.inj hcd'
    obtain rfl : goneIn z.said = n := Nat.succ.inj (hallocs.symm.trans hn)
    have hnow : Function.update z.slot.written (goneIn z.said)
        (z.slot.written (goneIn z.said) ++ cd.outgoing.take amt) (goneIn z.said) =
        z.slot.written (goneIn z.said) ++ cd.outgoing.take amt := Function.update_self _ _ _
    exact hcounts.wrote hamt rfl hnow rfl rfl

theorem outPos_add_lt {n : ℕ} (h : z.Counts g cd n) :
    cd.outPos < CLIENT_KARMA ∧
      (cd.outPos + cd.outSz) % CLIENT_KARMA = (dataAt n z.heard).length % CLIENT_KARMA := by
  rw [h.outPos, ← h.outSz, Nat.mod_add_mod]
  exact ⟨Nat.mod_lt _ (by decide), rfl⟩

/-- `write_cbuf` in `mainr` -/
theorem Counts.store {n : ℕ} (h : z.Counts g cd n) {bytes : List UInt8}
    (hroom : cd.outSz + bytes.length ≤ CLIENT_KARMA) :
    Replay.Recent CLIENT_KARMA (cd.store bytes).outBuf (dataAt n z.heard ++ bytes) ∧
      (cd.store bytes).outSz = cd.outSz + bytes.length := by
  obtain ⟨hlt, hplace⟩ := outPos_add_lt h
  exact writeCbufLoop_spec h.outBuf hlt hplace (Nat.le_refl bytes.length) nofun (fun _ ↦ hroom)

/-- The counts of a client that stays after an entry. -/
theorem Counts.hear {n : ℕ} (h : z.Counts g cd n) (hn : goneIn z.heard = n) {e : Entry}
    (hroom : cd.outSz + e.bytes.length ≤ CLIENT_KARMA) {cd' : ClientData}
    (hcd' : cd.hear e = some cd') : Counts g { z with heard := z.heard ++ [e] } cd' n := by
  have hdata : dataAt n (z.heard ++ [e]) = dataAt n z.heard ++ e.bytes := by
    rw [dataAt_append, if_pos hn]
  have hkarma : karmaAt n (z.heard ++ [e]) = karmaAt n z.heard + e.amount := by
    rw [karmaAt_append, if_pos hn]
  have hwkarma := h.wkarma
  have hsz := h.outSz
  cases e with
  | data bytes =>
    obtain rfl := Option.some.inj hcd'
    simp only [Entry.bytes, Entry.amount, Nat.add_zero] at hdata hkarma hroom
    obtain ⟨hring, houtSz⟩ := h.store hroom
    refine ⟨?_, h.rkarma, ?_, ?_, h.outPos, ?_⟩
    · dsimp only
      rw [hkarma]
      exact hwkarma
    · dsimp only
      rw [hdata]
      exact hring
    · dsimp only
      rw [hdata, houtSz, List.length_append]
      omega
    · rw [houtSz]
      exact hroom
  | karma amt =>
    obtain rfl := Option.some.inj hcd'
    simp only [Entry.bytes, Entry.amount, List.append_nil] at hdata hkarma
    refine ⟨?_, h.rkarma, ?_, ?_, h.outPos, h.outSz_le⟩
    · dsimp only
      rw [hkarma]
      omega
    · dsimp only
      rw [hdata]
      exact h.outBuf
    · dsimp only
      rw [hdata]
      exact hsz
  | closed =>
    simp only [Entry.bytes, Entry.amount, List.append_nil, Nat.add_zero] at hdata hkarma
    obtain ⟨hwkarma, hrkarma, houtBuf, houtSz, houtPos, houtSzLe⟩ :=
      h.same (sameCounts_hear_closed hcd')
    refine ⟨?_, hrkarma, ?_, ?_, houtPos, houtSzLe⟩
    · dsimp only
      rw [hkarma]
      exact hwkarma
    · dsimp only
      rw [hdata]
      exact houtBuf
    · dsimp only
      rw [hdata]
      exact houtSz

/-- The side hears an entry about the client that has the id. -/
theorem Kept.hear (h : z.Kept g) (hcd : z.slot.client = some cd)
    (hlive : z.slot.allocs = goneIn z.heard + 1) (e : Entry)
    (hroom : cd.outSz + e.bytes.length ≤ CLIENT_KARMA) :
    Kept g { z with
      slot := { z.slot with client := cd.hear e }
      heard := z.heard ++ [e] } where
  phase := by
    have hphase := h.phase
    rw [hcd] at hphase
    dsimp only
    rw [goneIn_append]
    exact hphase.hear hlive e
  read := h.read
  written n := (h.written n).trans (isPrefix_dataAt n (List.prefix_append _ _))
  said := h.said
  heard n hm := by
    rcases (mentions_append n e).mp hm with hm | rfl
    · exact h.heard n hm
    · exact hlive ▸ Nat.lt_succ_self _
  read_le n := (h.read_le n).trans
    (Nat.add_le_add_left (karmaAt_le_of_isPrefix n (List.prefix_append _ _)) g)
  karma_le := h.karma_le
  counts cd' n hcd' hn := by
    have hcounts := h.counts cd n hcd hn
    have hlast : goneIn z.heard = n := Nat.succ.inj (hlive.symm.trans hn)
    obtain ⟨hwkarma, hrkarma, houtBuf, houtSz, houtPos, houtSzLe⟩ :=
      hcounts.hear hlast hroom hcd'
    exact ⟨hwkarma, hrkarma, houtBuf, houtSz, houtPos, houtSzLe⟩

end End

/-! ## Both sides -/

structure Lane (l : Side → End) : Prop where
  kept : ∀ x, (l x).Kept (grant x)
  fifo : ∀ x, (l x).heard <+: (l x.peer).said
  allocs_le : (l .demux).slot.allocs ≤ (l .mux).slot.allocs

namespace Lane

variable {l : Side → End} {x : Side} {e : Entry} {cd : ClientData}

theorem empty : Lane fun _ ↦ ⟨.empty, [], []⟩ where
  kept x := End.kept_empty (grant x)
  fifo _ := List.nil_prefix
  allocs_le := Nat.le_refl 0

/-- An event of one side which does not allocate a client. -/
theorem update (h : Lane l) {z : End} (hkept : z.Kept (grant x)) (hsaid : (l x).said <+: z.said)
    (hheard : z.heard <+: (l x.peer).said) (hallocs : z.slot.allocs = (l x).slot.allocs) :
    Lane (Function.update l x z) where
  kept y := by
    rcases Side.eq_or_eq_peer x y with rfl | rfl
    · rwa [Function.update_self]
    · rw [Function.update_of_ne (Side.peer_ne x)]
      exact h.kept _
  fifo y := by
    rcases Side.eq_or_eq_peer x y with rfl | rfl
    · rwa [Function.update_self, Function.update_of_ne (Side.peer_ne x)]
    · have hfifo := h.fifo x.peer
      rw [Side.peer_peer] at hfifo ⊢
      rw [Function.update_self, Function.update_of_ne (Side.peer_ne x)]
      exact hfifo.trans hsaid
  allocs_le := by
    have hle := h.allocs_le
    cases x <;> simp [hallocs, hle]

/-- The data that comes is what the other side has read, and it is never more than there is room
for behind what was written. -/
theorem data_le (h : Lane l) (x : Side) (n : ℕ) :
    dataAt n (l x.peer).said = (l x.peer).slot.read n ∧
      ((l x.peer).slot.read n).length ≤ CLIENT_KARMA + ((l x).slot.written n).length := by
  refine ⟨(h.kept x.peer).read n, ?_⟩
  have hfifo := h.fifo x.peer
  rw [Side.peer_peer] at hfifo
  have hgrant := grant_add_grant_peer x
  calc
    ((l x.peer).slot.read n).length ≤ grant x.peer + karmaAt n (l x.peer).heard :=
      (h.kept x.peer).read_le n
    _ ≤ grant x.peer + karmaAt n (l x).said :=
      Nat.add_le_add_left (karmaAt_le_of_isPrefix n hfifo) _
    _ ≤ grant x.peer + (grant x + ((l x).slot.written n).length) :=
      Nat.add_le_add_left ((h.kept x).karma_le n) _
    _ = CLIENT_KARMA + ((l x).slot.written n).length := by omega

/-- What was written to a client is what the other side has read from its one. -/
theorem isPrefix_written (h : Lane l) (x : Side) (n : ℕ) :
    (l x).slot.written n <+: (l x.peer).slot.read n := by
  rw [← (h.data_le x n).1]
  exact ((h.kept x).written n).trans (isPrefix_dataAt n (h.fifo x))

/-- The karma to acknowledge is never more than a client has. -/
theorem rkarma_le (h : Lane l) (hcd : (l x).slot.client = some cd) : cd.rkarma ≤ CLIENT_KARMA := by
  have hphase := (h.kept x).phase
  rw [hcd] at hphase
  by_cases hadded : cd.s = true ∧ cd.added = true
  · obtain ⟨hs, hadded⟩ := hadded
    obtain ⟨-, -, hallocs, -⟩ := hphase.of_added hs hadded
    have hcounts := (h.kept x).counts cd _ hcd hallocs
    have hrkarma := hcounts.rkarma hs
    generalize hn : goneIn (l x).said = n at hrkarma
    have hread := (h.data_le x n).1
    have hwritten := (h.isPrefix_written x n).length_le
    have hfifo := h.fifo x.peer
    rw [Side.peer_peer] at hfifo
    have hkarma := karmaAt_le_of_isPrefix n hfifo
    have hle := (h.kept x.peer).read_le n
    have hgrant := grant_add_grant_peer x
    omega
  · have hkarma : (0 : ℤ) ≤ CLIENT_KARMA := Int.natCast_nonneg _
    generalize (l x).slot.allocs = a, goneIn (l x).said = s, goneIn (l x).heard = r at hphase
    cases hphase with
    | opened _ hs _ _ hlost =>
      have hnot : cd.added = false := by simpa [hs] using hadded
      rw [(hlost hnot).2]
      exact hkarma
    | gone _ _ _ hrkarma | told _ _ _ hrkarma | rdead _ _ _ hrkarma | stuck _ _ _ hrkarma => omega

/-- The client that an entry is about: it has the id, or there is none yet and the side is the one
which makes it. -/
theorem next_client (h : Lane l) (hnext : (l x).heard ++ [e] <+: (l x.peer).said) :
    (∀ cd, (l x).slot.client = some cd → (l x).slot.allocs = goneIn (l x).heard + 1) ∧
      ((l x).slot.client = none → x = .demux ∧ (l x).slot.allocs = goneIn (l x).heard) ∧
      goneIn (l x).heard < (l x.peer).slot.allocs := by
  have hmentions := mentions_next hnext
  have hlt := (h.kept x.peer).said _ hmentions
  have hheard := goneIn_le_of_isPrefix (h.fifo x)
  have hpeer := goneIn_le_of_isPrefix (h.fifo x.peer)
  rw [Side.peer_peer] at hpeer
  refine ⟨fun cd hcd ↦ ?_, fun hnone ↦ ?_, hlt⟩
  · have hphase := (h.kept x).phase
    have hphase' := (h.kept x.peer).phase
    rw [hcd] at hphase
    generalize (l x).slot.allocs = a, goneIn (l x).said = s, goneIn (l x).heard = r at *
    generalize (l x.peer).slot.client = client', (l x.peer).slot.allocs = a',
      goneIn (l x.peer).said = s', goneIn (l x.peer).heard = r' at *
    cases hphase with
    | opened | gone | told => rfl
    | rdead | stuck =>
      -- The other side has said that its client is gone, and says nothing before it hears of ours.
      exfalso
      cases hphase' <;> omega
  · have hphase := (h.kept x).phase
    rw [hnone] at hphase
    obtain ⟨-, hallocs⟩ := hphase.of_none
    refine ⟨?_, hallocs.symm⟩
    cases x with
    | mux =>
      have hle := h.allocs_le
      change goneIn (l .mux).heard < (l .demux).slot.allocs at hlt
      omega
    | demux => rfl

/-- There is room for the data that comes. -/
theorem room (h : Lane l) (hnext : (l x).heard ++ [e] <+: (l x.peer).said)
    (hcd : (l x).slot.client = some cd) : cd.outSz + e.bytes.length ≤ CLIENT_KARMA := by
  have hallocs := (h.next_client hnext).1 cd hcd
  have hcounts := (h.kept x).counts cd _ hcd hallocs
  have hsz := hcounts.outSz
  have hdata := (isPrefix_dataAt (goneIn (l x).heard) hnext).length_le
  rw [dataAt_append, if_pos rfl, List.length_append] at hdata
  obtain ⟨hread, hle⟩ := h.data_le x (goneIn (l x).heard)
  rw [hread] at hdata
  omega

/-- A side does what an entry says. -/
theorem hear (h : Lane l) (hnext : (l x).heard ++ [e] <+: (l x.peer).said)
    (hcd : (l x).slot.client = some cd) :
    Lane (Function.update l x { l x with
      slot := { (l x).slot with client := cd.hear e }
      heard := (l x).heard ++ [e] }) :=
  h.update ((h.kept x).hear hcd ((h.next_client hnext).1 cd hcd) e (h.room hnext hcd))
    (List.prefix_refl _) hnext rfl

/-- The mux accepts a client. -/
theorem accept (h : Lane l) (hnone : (l .mux).slot.client = none) (hs : cd.s = true)
    (hrdead : cd.isRdead = false) (hwkarma : cd.wkarma = CLIENT_KARMA)
    (hrkarma : cd.rkarma = CLIENT_KARMA) (hadded : cd.added = true)
    (hout : cd.outPos = 0 ∧ cd.outSz = 0) :
    Lane (Function.update l .mux { l .mux with slot := (l .mux).slot.alloc cd }) where
  kept y := by
    have halloc := (h.kept .mux).alloc hnone hs hrdead hwkarma hrkarma (by simp [hadded]) hout.1
      hout.2
    cases y
    · simpa using halloc
    · simpa using h.kept .demux
  fifo y := by
    have hfifo := h.fifo y
    cases y
    · simpa [Side.peer] using hfifo
    · simpa [Side.peer] using hfifo
  allocs_le := by
    have hle := h.allocs_le
    simp only [Function.update_self, ne_eq, reduceCtorEq, not_false_eq_true, Function.update_of_ne]
    exact Nat.le_succ_of_le hle

/-- The other process makes a client because of an entry. -/
theorem create (h : Lane l) (hnext : (l .demux).heard ++ [e] <+: (l .mux).said)
    (hnone : (l .demux).slot.client = none) (hs : cd.s = true) (hrdead : cd.isRdead = false)
    (hwkarma : cd.wkarma = 0) (hrkarma : cd.rkarma = 0)
    (hlost : cd.added = false → cd.isConnecting = true) (hout : cd.outPos = 0 ∧ cd.outSz = 0) :
    Lane (Function.update l .demux { l .demux with slot := (l .demux).slot.alloc cd }) where
  kept y := by
    have halloc := (h.kept .demux).alloc hnone hs hrdead hwkarma hrkarma
      (fun hadded ↦ ⟨hlost hadded, hrkarma⟩) hout.1 hout.2
    cases y
    · simpa using h.kept .mux
    · simpa using halloc
  fifo y := by
    have hfifo := h.fifo y
    cases y
    · simpa [Side.peer] using hfifo
    · simpa [Side.peer] using hfifo
  allocs_le := by
    obtain ⟨-, hcreate, hlt⟩ := h.next_client (x := .demux) hnext
    obtain ⟨-, hallocs⟩ := hcreate hnone
    simp only [Function.update_self, ne_eq, reduceCtorEq, not_false_eq_true, Function.update_of_ne]
    change (l .demux).slot.allocs + 1 ≤ (l .mux).slot.allocs
    rw [hallocs]
    exact hlt

/-- What the sides have said and heard of each other. -/
theorem goneIn_heard_le (h : Lane l) (x : Side) : goneIn (l x).heard ≤ goneIn (l x.peer).said :=
  goneIn_le_of_isPrefix (h.fifo x)

/-- When the mux has no client with the id, the other process has told that its last one is gone. -/
theorem told_of_free (h : Lane l) (hnone : (l .mux).slot.client = none)
    (hcd : (l .demux).slot.client = some cd) :
    cd.s = false ∧ cd.rkarma = 0 ∧ cd.isRdead = false := by
  have hmux := (h.kept .mux).phase
  have hdemux := (h.kept .demux).phase
  have hheard := h.goneIn_heard_le .mux
  have hle := h.allocs_le
  rw [hnone] at hmux
  rw [hcd] at hdemux
  obtain ⟨-, hallocs⟩ := hmux.of_none
  change goneIn (l .mux).heard ≤ goneIn (l .demux).said at hheard
  generalize (l .demux).slot.allocs = a, goneIn (l .demux).said = n,
    goneIn (l .demux).heard = r at hdemux hheard hle
  cases hdemux with
  | told _ hs hrdead hrkarma => exact ⟨hs, hrkarma, hrdead⟩
  | opened | gone | rdead | stuck => omega

/-- The other process has made a client for each of the mux but perhaps the last one. -/
theorem allocs_le_succ (h : Lane l) :
    (l .mux).slot.allocs ≤ (l .demux).slot.allocs + 1 := by
  have hmux := (h.kept .mux).phase
  have hdemux := (h.kept .demux).phase
  have hheard := h.goneIn_heard_le .mux
  change goneIn (l .mux).heard ≤ goneIn (l .demux).said at hheard
  generalize (l .mux).slot.client = c, (l .mux).slot.allocs = a, goneIn (l .mux).said = n,
    goneIn (l .mux).heard = r at hmux hheard
  generalize (l .demux).slot.client = c', (l .demux).slot.allocs = a', goneIn (l .demux).said = n',
    goneIn (l .demux).heard = r' at hdemux hheard
  cases hmux <;> cases hdemux <;> omega

end Lane

end QNet.Tcpmux
