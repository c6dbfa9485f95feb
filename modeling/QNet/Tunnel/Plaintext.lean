import QNet.Tunnel.Discard
import QNet.Tunnel.Pool

/-!
# What reaches the TAP device

With AES, only bytes that were decrypted from the datagram should be written to the TAP device. The
length that is written stands in the decrypted data, and nobody compares it with how many bytes
there are; behind them the buffer holds the rest of the ciphertext and what earlier packets left.
The thread pool of `rsctapudp` does not even look whether `decrypt` failed. Every byte is traced
back to its address in the buffer that `decrypt` has written to, and `onlyPlaintext_iff` says when
all these addresses are those of the plaintext.
-/

namespace QNet.Tunnel

open Mem

/-- Where a datagram is received: in the loop, or by a worker thread with a key. -/
inductive Site
  | loop (answers : Answers) (s : Loop) (source : Address)
  | pool (heap : Heap) (key : Key)

/-- A decrypted datagram: what `decrypt` said, the buffer with the plaintext at offset 32, and how
many bytes were decrypted. -/
structure Opening where
  opened : Decrypted
  buf : Mem
  cnt : ℕ

/-- Decrypt what stands behind the key id. -/
def openUnder (lib : Library) (key : Key) (received dest : Mem) (cnt : ℕ) : Opening :=
  let opened := lib.decrypt key.key (received.slice 32 cnt)
  ⟨opened, dest.store 32 opened.plaintext, cnt⟩

/-- What is decrypted of a datagram; `none` when it is dropped before. -/
def opening (lib : Library) (cfg : Config) (site : Site) (datagram : List UInt8) :
    Option Opening :=
  match site with
  | .loop answers s source =>
      let received := datagram.take 2000
      let s := { s with buf := s.buf.store 0 received }
      (firstKey s.keys).bind fun keys ↦
      (acceptAddress cfg s source).bind fun _ ↦
        if received.length < 32 + 16 then none
        else
          (findKey answers.bySha (readBytes32 s.buf 0) (keys.q2.items.length + 3) keys).bind
            fun (found, ok) ↦
              if ok then
                found.curKey2.map fun key ↦
                  openUnder lib key s.buf s.buf (received.length - 32)
              else none
  | .pool heap key =>
      some (openUnder lib key (heap.buf.store 0 datagram) heap.bufaes (datagram.length - 32))

/-- The frames that are written to the TAP device. -/
def written (lib : Library) (cfg : Config) (site : Site) (datagram : List UInt8) :
    Option (List (List UInt8)) :=
  match site with
  | .loop answers s source =>
      (net2tap lib cfg answers s source datagram).map fun next ↦ writes next.2
  | .pool heap key => (zipandsend lib cfg heap ⟨datagram, ⟨0, 0⟩, 1, key⟩).map writes

/-! ## Where the bytes come from -/

/-- Whether a header of four bytes is expected. -/
def hasHeader (cfg : Config) : Site → Bool
  | .loop .. => cfg.prog ≠ .ctapudp
  | .pool .. => false

/-- The length field. -/
def frameLength (cfg : Config) (site : Site) (o : Opening) : ℕ :=
  if hasHeader cfg site then o.buf.readLe16 34 else o.buf.readLe16 32

/-- The address of byte `i` of the frame. With a header the packet was moved down by 32, and with
flag 2 once more. -/
def tapAddress (cfg : Config) (site : Site) (o : Opening) (i : ℕ) : ℕ :=
  if hasHeader cfg site then
    origin 0 32 o.cnt
      (if o.buf 32 = 2 then origin 0 32 (frameLength cfg site o) (4 + i) else 4 + i)
  else 34 + i

def tapAddresses (cfg : Config) (site : Site) (o : Opening) : List ℕ :=
  (List.range (frameLength cfg site o)).map (tapAddress cfg site o)

/-- The datagram is dropped, or the process aborts. -/
def Stopped (cfg : Config) (site : Site) (o : Opening) : Prop :=
  match site with
  | .loop .. => o.opened.ok = false ∨ cfg.prog = .rsctapudp ∧ o.opened.plaintext.length = 0
  | .pool .. => o.opened.ok = false ∧ cfg.prog ≠ .rsctapudp

/-- Frames that are written are plaintext of this datagram, and nothing is copied from behind a
buffer, which is undefined behaviour. -/
def OnlyPlaintext (lib : Library) (cfg : Config) (site : Site) (datagram : List UInt8) : Prop :=
  (∀ frames, written lib cfg site datagram = some frames → ∀ frame ∈ frames, frame ≠ [] →
    ∃ o, opening lib cfg site datagram = some o ∧ o.opened.ok = true ∧
      frame = (tapAddresses cfg site o).map o.buf ∧
      ∀ a ∈ tapAddresses cfg site o, 32 ≤ a ∧ a < 32 + o.opened.plaintext.length) ∧
  (written lib cfg site datagram = none → ∀ o, opening lib cfg site datagram = some o →
    Stopped cfg site o)

/-- The length field goes with the length of the plaintext. -/
def Fits (cfg : Config) (site : Site) (o : Opening) : Prop :=
  let n := frameLength cfg site o
  if hasHeader cfg site then
    n + 4 ≤ o.opened.plaintext.length ∧
      (o.buf 32 = 2 → n ≤ 4 ∨ o.cnt ≤ 36 ∨ n + 32 ≤ o.opened.plaintext.length)
  else n + 2 ≤ o.opened.plaintext.length

/-! ## The addresses -/

theorem origin_of_lt {src n i : ℕ} (h : i < n) : origin 0 src n i = src + i := by
  rw [origin, if_pos ⟨Nat.zero_le i, by omega⟩, Nat.sub_zero]

theorem origin_of_ge {dst src n i : ℕ} (h : dst + n ≤ i) : origin dst src n i = i :=
  if_neg fun hmem ↦ absurd hmem.2 (Nat.not_lt.mpr h)

/-- What is read after the packet was moved down is plaintext, or it was left behind the moved
bytes and is plaintext all the same. -/
theorem origin_mem_iff {cnt plen a : ℕ} (hshort : plen < cnt) :
    32 ≤ origin 0 32 cnt a ∧ origin 0 32 cnt a < 32 + plen ↔
      a < plen ∨ cnt ≤ a ∧ 32 ≤ a ∧ a < 32 + plen := by
  rcases Nat.lt_or_ge a cnt with hin | hout
  · rw [origin_of_lt hin]
    omega
  · rw [origin_of_ge (by omega)]
    omega

/-- A packet that is moved down once: the length goes with that of the plaintext. -/
theorem moved_once_iff {n cnt plen : ℕ} (hcnt : 16 ≤ cnt) (hshort : plen < cnt) :
    (∀ i < n, 32 ≤ origin 0 32 cnt (4 + i) ∧ origin 0 32 cnt (4 + i) < 32 + plen) ↔
      n = 0 ∨ n + 4 ≤ plen := by
  simp only [origin_mem_iff hshort]
  constructor
  · intro h
    by_contra hlong
    -- The first byte behind the plaintext is read.
    obtain ⟨i, hi, hpos, hge⟩ : ∃ i, i < n ∧ 4 + i < cnt ∧ plen ≤ 4 + i :=
      ⟨max plen 4 - 4, by omega, by omega, by omega⟩
    have hbehind := h i hi
    omega
  · rintro (rfl | hn) i hi
    · omega
    · exact .inl (by omega)

/-- A packet with flag 2 is moved down twice: what is read from behind the key has to be plaintext
too, unless the packet is so short that the second move takes from what the first one has left
behind it. -/
theorem moved_twice_iff {n cnt plen : ℕ} (hcnt : 16 ≤ cnt) (hshort : plen < cnt) :
    (∀ i < n, 32 ≤ origin 0 32 cnt (origin 0 32 n (4 + i)) ∧
      origin 0 32 cnt (origin 0 32 n (4 + i)) < 32 + plen) ↔
      n = 0 ∨ n + 4 ≤ plen ∧ (n ≤ 4 ∨ cnt ≤ 36 ∨ n + 32 ≤ plen) := by
  simp only [origin_mem_iff hshort]
  constructor
  · intro h
    -- The bytes that are not moved the second time.
    have hkept (i : ℕ) (hi : i < n) (hout : n ≤ 4 + i) : 4 + i < plen ∨ cnt ≤ 4 + i := by
      have hread := h i hi
      rw [origin_of_ge (show 0 + n ≤ 4 + i by omega)] at hread
      exact hread.imp id And.left
    -- The bytes that are moved twice.
    have hmoved (i : ℕ) (hi : 4 + i < n) :
        32 + (4 + i) < plen ∨ cnt ≤ 32 + (4 + i) ∧ 4 + i < plen := by
      have hread := h i (by omega)
      rw [origin_of_lt hi] at hread
      omega
    have hbehind := hkept (max plen 4 - 4)
    rcases Nat.lt_or_ge 4 n with hlong | hsmall
    · have hfirst := hmoved 0 (by omega)
      have hbehindKey := hmoved (plen - 36)
      have hlast := hmoved (n - 5) (by omega)
      omega
    · omega
  · rintro (rfl | ⟨hn, hkey⟩) i hi
    · omega
    · rcases Nat.lt_or_ge (4 + i) n with hmoved | hkept
      · rw [origin_of_lt hmoved]
        omega
      · rw [origin_of_ge (show 0 + n ≤ 4 + i by omega)]
        exact .inl (by omega)

/-- All addresses are those of the plaintext. -/
theorem tapAddresses_iff {cfg : Config} {site : Site} {o : Opening}
    (hcnt : hasHeader cfg site = true → 16 ≤ o.cnt) (hshort : o.opened.plaintext.length < o.cnt) :
    (∀ a ∈ tapAddresses cfg site o, 32 ≤ a ∧ a < 32 + o.opened.plaintext.length) ↔
      frameLength cfg site o = 0 ∨ Fits cfg site o := by
  simp only [tapAddresses, List.forall_mem_map, List.mem_range, tapAddress, Fits]
  cases hheader : hasHeader cfg site with
  | true =>
    simp only [if_true]
    by_cases hflag : o.buf 32 = 2
    · simp only [hflag, if_true, true_imp_iff]
      exact moved_twice_iff (hcnt hheader) hshort
    · simp only [hflag, if_false, false_imp_iff, and_true]
      exact moved_once_iff (hcnt hheader) hshort
  | false =>
    simp only [Bool.false_eq_true, if_false]
    constructor
    · intro h
      rcases Nat.eq_zero_or_pos (frameLength cfg site o) with hzero | hpos
      · exact .inl hzero
      · have hlast := h (frameLength cfg site o - 1) (by omega)
        omega
    · intro h i hi
      omega

/-! ## What is written -/

section Written

variable {lib : Library} {cfg : Config}

theorem map_tapAddresses_header {site : Site} {o : Opening} (hheader : hasHeader cfg site = true)
    (hcnt : 16 ≤ o.cnt) : (tapAddresses cfg site o).map o.buf =
      receivedPayload (o.buf.memmove 0 32 o.cnt 0) (o.buf.memmove 0 32 o.cnt)
        ((o.buf.memmove 0 32 o.cnt).readLe16 2) := by
  have hlow (i : ℕ) (hi : i < 16) : o.buf.memmove 0 32 o.cnt i = o.buf (32 + i) := by
    have hlt : i < o.cnt := by omega
    rw [memmove_apply, origin_of_lt hlt]
  have hlength : (o.buf.memmove 0 32 o.cnt).readLe16 2 = frameLength cfg site o := by
    rw [frameLength, if_pos hheader, readLe16, hlow 2 (by decide), hlow 3 (by decide), readLe16]
  rw [hlength, hlow 0 (by decide), tapAddresses, List.map_map, receivedPayload]
  split_ifs with hflag
  · rw [slice_eq_map]
    refine List.map_congr_left fun i _ ↦ ?_
    rw [memmove_apply, memmove_apply, Function.comp_apply, tapAddress, if_pos hheader,
      if_pos hflag]
  · rw [slice_eq_map]
    refine List.map_congr_left fun i _ ↦ ?_
    rw [memmove_apply, Function.comp_apply, tapAddress, if_pos hheader, if_neg hflag]

theorem map_tapAddresses_plain {site : Site} {o : Opening} (hheader : hasHeader cfg site = false) :
    (tapAddresses cfg site o).map o.buf = o.buf.slice 34 (o.buf.readLe16 32) := by
  simp only [slice_eq_map, tapAddresses, List.map_map, frameLength, hheader, Bool.false_eq_true,
    if_false]
  refine List.map_congr_left fun i _ ↦ ?_
  rw [Function.comp_apply, tapAddress, hheader, if_neg Bool.false_ne_true]

theorem unshiftPacket_header {prog : Program} (hprog : prog ≠ .ctapudp) (buf : Mem) (cnt : ℕ) :
    unshiftPacket prog buf (cnt + 32) = (buf.memmove 0 32 cnt, cnt) := by
  cases prog with
  | ctapudp => exact absurd rfl hprog
  | nextctapudp => rfl
  | rsctapudp => rfl

theorem deliver_ctapudp {answers : Answers} {t : Loop} {n : ℕ} (hprog : cfg.prog = .ctapudp)
    (hgzip : cfg.gzip = false) :
    (deliver lib cfg answers t n).2 = [.write (t.buf.slice 0 n)] := by
  simp only [deliver, hprog, writeFrame, hgzip, Bool.false_eq_true, if_false]

variable (lib) in
/-- A decrypted packet that is delivered by the loop. -/
theorem writes_deliver (answers : Answers) (s : Loop) (source : Address) {t : Loop} {o : Opening}
    (hgzip : cfg.gzip = false) (hcnt : 16 ≤ o.cnt) :
    writes (deliver lib cfg answers
        { t with buf := (unshiftPacket cfg.prog o.buf (o.cnt + 32)).1 }
        (unshiftPacket cfg.prog o.buf (o.cnt + 32)).2).2 =
      [(tapAddresses cfg (.loop answers s source) o).map o.buf] := by
  by_cases hprog : cfg.prog = .ctapudp
  · have hheader : hasHeader cfg (.loop answers s source) = false := by simp [hasHeader, hprog]
    have hmoved : (o.buf.memmove 0 34 (o.buf.readLe16 32)).slice 0 (o.buf.readLe16 32) =
        o.buf.slice 34 (o.buf.readLe16 32) := slice_store_slice _ _ _ _ _
    rw [map_tapAddresses_plain hheader, ← hmoved, hprog, deliver_ctapudp hprog hgzip]
    rfl
  · have hheader : hasHeader cfg (.loop answers s source) = true := by simp [hasHeader, hprog]
    rw [unshiftPacket_header hprog, deliver_effects hprog, writes_headerEffects, hgzip,
      if_neg Bool.false_ne_true, map_tapAddresses_header hheader hcnt]

/-- What the loop does with a decrypted packet. -/
theorem openSealed_eq {answers : Answers} {s : Loop} {key : Key} {n : ℕ} {o : Opening}
    (hkey : s.keys.curKey2 = some key) (ho : openUnder lib key s.buf s.buf n = o) :
    openSealed lib cfg answers s (n + 32) =
      let packet := unshiftPacket cfg.prog o.buf (o.cnt + 32)
      let delivered := deliver lib cfg answers { s with buf := packet.1 } packet.2
      if cfg.prog = .rsctapudp then
        if o.opened.ok = false ∨ o.opened.plaintext.length = 0 then
          some ({ s with buf := o.buf }, [])
        else some delivered
      else if o.opened.ok then some delivered else none := by
  subst ho
  unfold openSealed openUnder
  rw [hkey, Nat.add_sub_cancel]
  cases hprog : cfg.prog with
  | rsctapudp => simp
  | ctapudp => rfl
  | nextctapudp => rfl

variable (lib) in
/-- A packet that is decrypted in the loop is written, unless it is stopped. -/
theorem writes_openSealed (answers : Answers) {s : Loop} (s₀ : Loop) (source : Address)
    {key : Key} {n : ℕ} {o : Opening} (hkey : s.keys.curKey2 = some key)
    (hgzip : cfg.gzip = false) (hn : 16 ≤ o.cnt) (ho : openUnder lib key s.buf s.buf n = o) :
    (Stopped cfg (.loop answers s₀ source) o →
      ∀ next, openSealed lib cfg answers s (n + 32) = some next → writes next.2 = []) ∧
    (¬ Stopped cfg (.loop answers s₀ source) o →
      (openSealed lib cfg answers s (n + 32)).map (fun next ↦ writes next.2) =
        some [(tapAddresses cfg (.loop answers s₀ source) o).map o.buf]) := by
  have hdelivered := writes_deliver lib answers s₀ source (t := s) hgzip hn
  rw [openSealed_eq hkey ho]
  dsimp only
  constructor
  · intro hstopped next hnext
    split_ifs at hnext with hprog hdropped hok
    · obtain rfl := Option.some.inj hnext
      rfl
    · exact absurd (hstopped.imp id And.right) hdropped
    · rcases hstopped with hfailed | ⟨hprog', _⟩
      · exact absurd (hok.symm.trans hfailed) (by decide)
      · exact absurd hprog' hprog
  · intro hstopped
    split_ifs with hprog hdropped hok
    · exact absurd (hdropped.imp id fun hempty ↦ ⟨hprog, hempty⟩) hstopped
    · exact congrArg some hdelivered
    · exact congrArg some hdelivered
    · exact absurd (.inl (Bool.eq_false_of_not_eq_true hok)) hstopped

/-- With AES a datagram is decrypted with a key that the search has found, or it is dropped. The
key to send stays what it is. -/
theorem net2tap_opening (lib : Library) (answers : Answers) (s : Loop) (source : Address)
    (datagram : List UInt8) (haes : cfg.aes = true) :
    (∃ t key n, t.keys.curKey2 = some key ∧ t.keys.curKeyToSend = s.keys.curKeyToSend ∧ 16 ≤ n ∧
      opening lib cfg (.loop answers s source) datagram = some (openUnder lib key t.buf t.buf n) ∧
      net2tap lib cfg answers s source datagram = openSealed lib cfg answers t (n + 32)) ∨
    opening lib cfg (.loop answers s source) datagram = none ∧
      ∀ next, net2tap lib cfg answers s source datagram = some next →
        next.2 = [] ∧ next.1.keys.curKeyToSend = s.keys.curKeyToSend := by
  have hdropped {t : Loop} (ht : t.keys.curKeyToSend = s.keys.curKeyToSend) :
      ∀ next, some (t, ([] : List Effect)) = some next →
        next.2 = [] ∧ next.1.keys.curKeyToSend = s.keys.curKeyToSend := by
    rintro next hnext
    obtain rfl := Option.some.inj hnext
    exact ⟨rfl, ht⟩
  unfold opening net2tap
  simp only [haes, if_true]
  cases hfirst : firstKey s.keys with
  | none => exact .inr ⟨rfl, hdropped rfl⟩
  | some keys =>
    have hkeys := firstKey_curKeyToSend hfirst
    simp only [Option.bind_some]
    cases acceptAddress cfg { s with buf := s.buf.store 0 (datagram.take 2000) } source with
    | none => exact .inr ⟨rfl, hdropped hkeys⟩
    | some addr =>
      simp only [Option.bind_some]
      split_ifs with hshort
      · exact .inr ⟨rfl, hdropped hkeys⟩
      · cases hfind : findKey answers.bySha (readBytes32 (s.buf.store 0 (datagram.take 2000)) 0)
            (keys.q2.items.length + 3) keys with
        | none => exact .inr ⟨rfl, nofun⟩
        | some next =>
          obtain ⟨found, ok⟩ := next
          have hfound : found.curKeyToSend = s.keys.curKeyToSend :=
            (findKey_curKeyToSend hfind).trans hkeys
          cases ok with
          | false => exact .inr ⟨rfl, hdropped hfound⟩
          | true =>
            obtain ⟨key, hkey, _⟩ := (findKey_found hfind).1 rfl
            obtain ⟨n, hn⟩ : ∃ n, (datagram.take 2000).length = n + 32 :=
              ⟨(datagram.take 2000).length - 32, by omega⟩
            have hlong : 16 ≤ n := by omega
            refine .inl ⟨{ s with
              buf := s.buf.store 0 (datagram.take 2000), addr := addr, keys := found },
              key, n, hkey, hfound, hlong, ?_, ?_⟩
            · simp only [Option.bind_some, if_true, hkey, Option.map_some, hn, Nat.add_sub_cancel]
            · simp only [Option.bind_eq_bind, Option.bind_some, if_true, hn]

/-- What is decrypted in the loop is written, unless it is stopped; nothing else is written. -/
theorem written_loop (lib : Library) (answers : Answers) (s : Loop) (source : Address)
    (datagram : List UInt8) (haes : cfg.aes = true) (hgzip : cfg.gzip = false) :
    match opening lib cfg (.loop answers s source) datagram with
    | none => ∀ frames, written lib cfg (.loop answers s source) datagram = some frames →
        frames = []
    | some o => 16 ≤ o.cnt ∧
        (Stopped cfg (.loop answers s source) o → ∀ frames,
          written lib cfg (.loop answers s source) datagram = some frames → frames = []) ∧
        (¬ Stopped cfg (.loop answers s source) o →
          written lib cfg (.loop answers s source) datagram =
            some [(tapAddresses cfg (.loop answers s source) o).map o.buf]) := by
  unfold written
  rcases net2tap_opening lib answers s source datagram haes with
    ⟨t, key, n, hkey, _, hlong, hopening, hnet⟩ | ⟨hopening, hdropped⟩
  · have hopened := writes_openSealed lib answers s source hkey hgzip hlong rfl
    simp only [hopening, hnet]
    refine ⟨hlong, fun hstopped frames hframes ↦ ?_, hopened.2⟩
    obtain ⟨next, hnext, rfl⟩ := Option.map_eq_some_iff.mp hframes
    exact hopened.1 hstopped next hnext
  · simp only [hopening]
    intro frames hframes
    obtain ⟨next, hnext, rfl⟩ := Option.map_eq_some_iff.mp hframes
    rw [(hdropped next hnext).1]
    rfl

/-- What a worker thread decrypts is written, unless it is stopped or the length is beyond the
buffers. -/
theorem written_pool {heap : Heap} {key : Key} {datagram : List UInt8} {o : Opening}
    (haes : cfg.aes = true) (hgzip : cfg.gzip = false)
    (ho : opening lib cfg (.pool heap key) datagram = some o) :
    (Stopped cfg (.pool heap key) o → written lib cfg (.pool heap key) datagram = none) ∧
      (¬ Stopped cfg (.pool heap key) o → written lib cfg (.pool heap key) datagram =
        if 34 + frameLength cfg (.pool heap key) o ≤ 2000 then
          some [(tapAddresses cfg (.pool heap key) o).map o.buf] else none) := by
  obtain rfl := Option.some.inj ho
  rw [map_tapAddresses_plain rfl]
  unfold written zipandsend poolFrame poolOpen Stopped frameLength hasHeader openUnder
  simp only [haes, hgzip, if_true, one_ne_zero, if_false, Bool.false_eq_true]
  constructor
  · rintro ⟨hfailed, hprog⟩
    rw [if_pos ⟨hprog, hfailed⟩]
    rfl
  · intro hstopped
    rw [if_neg fun h ↦ hstopped ⟨h.2, h.1⟩]
    split_ifs with hroom
    · simp [writes, slice_store_slice]
    · rfl

end Written

/-! ## All that is written -/

/-- What was decrypted, and of how many bytes. -/
theorem opening_spec {lib : Library} {cfg : Config} {site : Site} {datagram : List UInt8}
    {o : Opening} (h : opening lib cfg site datagram = some o) :
    ∃ key ciphertext, ciphertext.length = o.cnt ∧ o.opened = lib.decrypt key ciphertext := by
  have hunder (key : Key) (received dest : Mem) (cnt : ℕ) :
      ∃ k ciphertext, ciphertext.length = (openUnder lib key received dest cnt).cnt ∧
        (openUnder lib key received dest cnt).opened = lib.decrypt k ciphertext :=
    ⟨key.key, received.slice 32 cnt, length_slice _ _ _, rfl⟩
  cases site with
  | pool heap key =>
    obtain rfl := Option.some.inj h
    exact hunder _ _ _ _
  | loop answers s source =>
    obtain ⟨keys, _, h⟩ := Option.bind_eq_some_iff.mp h
    obtain ⟨addr, _, h⟩ := Option.bind_eq_some_iff.mp h
    split_ifs at h
    obtain ⟨⟨found, ok⟩, _, h⟩ := Option.bind_eq_some_iff.mp h
    dsimp only at h
    split_ifs at h
    obtain ⟨key, _, rfl⟩ := Option.map_eq_some_iff.mp h
    exact hunder _ _ _ _

section Only

variable {lib : Library} {cfg : Config} {site : Site} {datagram : List UInt8} {o : Opening}

theorem onlyPlaintext_of_stopped (ho : opening lib cfg site datagram = some o)
    (hstopped : Stopped cfg site o)
    (hnothing : ∀ frames, written lib cfg site datagram = some frames → frames = []) :
    OnlyPlaintext lib cfg site datagram := by
  constructor
  · intro frames hframes frame hframe
    rw [hnothing frames hframes] at hframe
    cases hframe
  · intro _ o' ho'
    obtain rfl := Option.some.inj (ho.symm.trans ho')
    exact hstopped

/-- When one frame is written, what there is to be said about its addresses. -/
theorem onlyPlaintext_of_written (ho : opening lib cfg site datagram = some o)
    (hwritten : written lib cfg site datagram = some [(tapAddresses cfg site o).map o.buf])
    (hcnt : hasHeader cfg site = true → 16 ≤ o.cnt)
    (hpadded : o.opened.ok = true → o.opened.plaintext.length < o.cnt) :
    OnlyPlaintext lib cfg site datagram ↔
      frameLength cfg site o = 0 ∨ o.opened.ok = true ∧ Fits cfg site o := by
  have hempty : (tapAddresses cfg site o).map o.buf = [] ↔ frameLength cfg site o = 0 := by
    rw [List.map_eq_nil_iff, tapAddresses, List.map_eq_nil_iff, List.range_eq_nil]
  constructor
  · intro h
    rw [or_iff_not_imp_left]
    intro hne
    obtain ⟨o', ho', hok, _, haddresses⟩ :=
      h.1 _ hwritten _ (List.mem_singleton_self _) (mt hempty.mp hne)
    obtain rfl := Option.some.inj (ho.symm.trans ho')
    have hfits := (tapAddresses_iff hcnt (hpadded hok)).mp haddresses
    exact ⟨hok, hfits.resolve_left hne⟩
  · intro h
    constructor
    · intro frames hframes frame hframe hne
      obtain rfl := Option.some.inj (hwritten.symm.trans hframes)
      obtain rfl := List.mem_singleton.mp hframe
      obtain ⟨hok, hfits⟩ := h.resolve_left (mt hempty.mpr hne)
      exact ⟨o, ho, hok, rfl, (tapAddresses_iff hcnt (hpadded hok)).mpr (.inr hfits)⟩
    · intro hnone
      cases hwritten.symm.trans hnone

end Only

/-- A cipher that only pads, and looks at the padding when it decrypts. -/
def checkedCipher : Cipher where
  encrypt := paddingCipher.encrypt
  decrypt _ ciphertext :=
    let pad := (ciphertext.getLastD 0).toNat
    if 1 ≤ pad ∧ pad ≤ ciphertext.length then ⟨true, unpad ciphertext⟩ else ⟨false, ciphertext⟩
  length_encrypt := paddingCipher.length_encrypt
  decrypt_encrypt key plaintext := by
    have hlast : ((plaintext ++ padding plaintext.length).getLastD 0).toNat =
        16 - plaintext.length % 16 := by
      obtain ⟨n, hn⟩ : ∃ n, 16 - plaintext.length % 16 = n + 1 :=
        ⟨15 - plaintext.length % 16, by omega⟩
      rw [padding, hn, List.replicate_succ', ← List.append_assoc, List.getLastD_concat,
        UInt8.toNat_ofNat']
      omega
    have hpad : 16 - plaintext.length % 16 ≤ (plaintext ++ padding plaintext.length).length := by
      rw [List.length_append, padding, List.length_replicate]
      exact Nat.le_add_left _ _
    simp only [paddingCipher, hlast, unpad_padding]
    exact if_pos ⟨by omega, hpad⟩

def checkedLibrary : Library := { sampleLibrary with toCipher := checkedCipher }

theorem length_checkedLibrary (key : Bytes32) (ciphertext : List UInt8)
    (h : (checkedLibrary.decrypt key ciphertext).ok = true) :
    (checkedLibrary.decrypt key ciphertext).plaintext.length < ciphertext.length := by
  simp only [checkedLibrary, checkedCipher] at h ⊢
  split_ifs at h ⊢ with hpad
  rw [unpad, List.length_take]
  omega

/-- A datagram for the current key of `sampleLoop`. -/
def sampleDatagram (plaintext : List UInt8) : List UInt8 :=
  List.ofFn sampleKey.sha ++ checkedLibrary.encrypt sampleKey.key plaintext

/-- For every datagram of at most 2000 bytes, with AES and without compression, in the loops of the
three programs and in the worker threads: the TAP device gets bytes of the plaintext only, if and
only if the datagram is stopped, or its length field is zero, or it is decrypted successfully and
the length field goes with the length of the plaintext. The plaintext is shorter than the
ciphertext, as there is padding. -/
theorem onlyPlaintext_iff {lib : Library} {cfg : Config} (haes : cfg.aes = true)
    (hgzip : cfg.gzip = false)
    (hpadded : ∀ key ciphertext, (lib.decrypt key ciphertext).ok = true →
      (lib.decrypt key ciphertext).plaintext.length < ciphertext.length)
    (site : Site) {datagram : List UInt8} (hlength : datagram.length ≤ 2000) :
    OnlyPlaintext lib cfg site datagram ↔
      ∀ o, opening lib cfg site datagram = some o → Stopped cfg site o ∨
        frameLength cfg site o = 0 ∨ o.opened.ok = true ∧ Fits cfg site o := by
  have hshort (o : Opening) (ho : opening lib cfg site datagram = some o)
      (hok : o.opened.ok = true) : o.opened.plaintext.length < o.cnt := by
    obtain ⟨key, ciphertext, hcnt, hopened⟩ := opening_spec ho
    rw [hopened] at hok ⊢
    exact hcnt ▸ hpadded key ciphertext hok
  have hforall {o : Opening} {P : Opening → Prop} (ho : opening lib cfg site datagram = some o) :
      (∀ o, opening lib cfg site datagram = some o → P o) ↔ P o :=
    ⟨fun h ↦ h o ho, fun h o' ho' ↦ Option.some.inj (ho.symm.trans ho') ▸ h⟩
  cases site with
  | loop answers s source =>
    have hwritten := written_loop lib answers s source datagram haes hgzip
    cases ho : opening lib cfg (.loop answers s source) datagram with
    | none =>
      rw [ho] at hwritten
      refine iff_of_true ⟨fun frames hframes frame hframe ↦ ?_, fun _ o ho' ↦ ?_⟩ nofun
      · rw [hwritten frames hframes] at hframe
        cases hframe
      · cases ho.symm.trans ho'
    | some o =>
      simp only [ho] at hwritten
      obtain ⟨hcnt, hstop, hgo⟩ := hwritten
      rw [← ho, hforall ho]
      by_cases hstopped : Stopped cfg (.loop answers s source) o
      · exact iff_of_true (onlyPlaintext_of_stopped ho hstopped (hstop hstopped)) (.inl hstopped)
      · rw [or_iff_right hstopped]
        exact onlyPlaintext_of_written ho (hgo hstopped) (fun _ ↦ hcnt) (hshort o ho)
  | pool heap key =>
    obtain ⟨o, ho⟩ : ∃ o, opening lib cfg (.pool heap key) datagram = some o := ⟨_, rfl⟩
    obtain ⟨hstop, hgo⟩ := written_pool haes hgzip ho
    rw [hforall ho]
    by_cases hstopped : Stopped cfg (.pool heap key) o
    · refine iff_of_true (onlyPlaintext_of_stopped ho hstopped fun frames hframes ↦ ?_)
        (.inl hstopped)
      cases (hstop hstopped).symm.trans hframes
    · rw [or_iff_right hstopped]
      by_cases hroom : 34 + frameLength cfg (.pool heap key) o ≤ 2000
      · rw [if_pos hroom] at hgo
        exact onlyPlaintext_of_written ho (hgo hstopped) nofun (hshort o ho)
      · rw [if_neg hroom] at hgo
        refine iff_of_false (fun h ↦ hstopped (h.2 (hgo hstopped) o ho)) ?_
        rintro (hzero | ⟨hok, hfits⟩)
        · omega
        · have hplain := hshort o ho hok
          have hcnt : o.cnt = datagram.length - 32 := by
            rw [← Option.some.inj ho]
            rfl
          have hn : frameLength cfg (.pool heap key) o + 2 ≤ o.opened.plaintext.length := hfits
          omega

/-- A packet with a frame of one byte. -/
theorem onlyPlaintext_iff_oneByte : OnlyPlaintext checkedLibrary sampleConfig
    (.loop noAnswers sampleLoop ⟨0, 0⟩) (sampleDatagram [0, 0, 1, 0, 5]) := by
  refine (onlyPlaintext_iff rfl rfl length_checkedLibrary _ (by decide)).mpr fun o ho ↦ ?_
  obtain rfl := Option.some.inj ho
  exact .inr (.inr ⟨rfl, by decide, by decide⟩)

/-- A packet that says that a frame of 100 bytes follows, and ends with the header. -/
theorem not_onlyPlaintext_header : ¬ OnlyPlaintext checkedLibrary sampleConfig
    (.loop noAnswers sampleLoop ⟨0, 0⟩) (sampleDatagram [0, 0, 100, 0]) := by
  obtain ⟨o, ho, hopened⟩ : ∃ o, opening checkedLibrary sampleConfig
      (.loop noAnswers sampleLoop ⟨0, 0⟩) (sampleDatagram [0, 0, 100, 0]) = some o ∧
        o.opened = ⟨true, [0, 0, 100, 0]⟩ ∧ o.buf.readLe16 34 = 100 ∧ o.cnt = 16 :=
    ⟨_, rfl, rfl, by decide, rfl⟩
  obtain ⟨hplaintext, hlength, hcnt⟩ := hopened
  have hwritten := @written_loop sampleConfig checkedLibrary noAnswers sampleLoop ⟨0, 0⟩
    (sampleDatagram [0, 0, 100, 0]) rfl rfl
  rw [ho] at hwritten
  have hgo : ¬ Stopped sampleConfig (.loop noAnswers sampleLoop ⟨0, 0⟩) o := by
    rw [Stopped, hplaintext]
    decide
  rw [onlyPlaintext_of_written ho (hwritten.2.2 hgo) (fun _ ↦ hwritten.1) fun _ ↦ by
    rw [hplaintext, hcnt]; decide]
  have hframe : frameLength sampleConfig (.loop noAnswers sampleLoop ⟨0, 0⟩) o = 100 := hlength
  rintro (hzero | ⟨_, hfits, _⟩)
  · cases hframe.symm.trans hzero
  · rw [hframe, hplaintext] at hfits
    exact absurd hfits (by decide)

end QNet.Tunnel
