import QNet.Qcrypt.Codec

/-!
# Two ends of a qcrypt tunnel and their pad

Coder and decoder share a ring of keys, and each of them encrypts in one direction and decrypts in
the other, with one current key and one position in it. Both start at the first byte of the first
key, and a block that is decrypted sets the position to the start of this block, not behind it, as
a block that is encrypted does. So bytes of the pad are used twice as soon as both ends encrypt.

They are used once as long as an end only encrypts when it stands in the key of the last block of
all, behind this block or too near to the end of the key for the next one: `oneTime_of_run`.
-/

namespace QNet.Qcrypt

open ByteStream

variable {keys : List Key}

inductive End
  | coder
  | decoder
  deriving DecidableEq

def End.other : End → End
  | .coder => .decoder
  | .decoder => .coder

/-- A byte of a key was combined with a byte of plaintext. -/
structure Use (keys : List Key) where
  key : Fin keys.length
  offset : ℕ
  byte : UInt8

/-- Both ends, the blocks they have sent on whatever connections, all uses of the pad in their
order, and whether an end has gone from the last key back to the first. -/
structure Pair (keys : List Key) where
  codec : End → Codec keys
  sent : End → List (Block keys)
  uses : List (Use keys)
  usedUp : Bool

inductive Call
  | crypt (e : End) (data : List UInt8)
  /-- The end decrypts the `n`-th block of the other one. -/
  | decrypt (e : End) (n : ℕ)

/-- The next block leaves the last key of the ring. -/
def Codec.wraps (s : Codec keys) (readsize : ℕ) : Bool :=
  s.current.any fun i ↦ decide (s.Full i readsize) && decide (i.val + 1 = keys.length)

def Block.uses (b : Block keys) (data : List UInt8) : List (Use keys) :=
  data.mapIdx fun i byte ↦ ⟨b.key, b.curpos + i, byte⟩

/-- What `decrypt` does to the variables of the process. -/
def Codec.follow (s : Codec keys) (b : Block keys) : Option (Codec keys) :=
  (s.findKey (List.ofFn (keys.get b.key).num)).map fun i ↦
    ⟨some i, Function.update s.curpos i b.curpos⟩

namespace Pair

def init : Pair keys := ⟨fun _ ↦ .init, fun _ ↦ [], [], false⟩

variable (behind : End → Fin keys.length → Mem)

def cryptBlock (e : End) (s : Pair keys) (data : List UInt8) : Pair keys :=
  let (codec, block) := (s.codec e).cryptBlock (behind e) data
  { codec := Function.update s.codec e codec
    sent := Function.update s.sent e (s.sent e ++ block.toList)
    uses := s.uses ++ block.elim [] fun b ↦ b.uses data
    usedUp := s.usedUp || (s.codec e).wraps data.length }

def next (s : Pair keys) : Call → Option (Pair keys)
  | .crypt e data =>
      if 0 < data.length ∧ data.length ≤ 1024 then
        some ((cut 32 data).foldl (cryptBlock behind e) s)
      else none
  | .decrypt e n => do
      let block ← (s.sent e.other)[n]?
      let codec ← (s.codec e).follow block
      some { s with codec := Function.update s.codec e codec }

/-- The calls of `crypt` in the pair are those of the codec. -/
theorem foldl_cryptBlock (e : End) (s : Pair keys) (pieces : List (List UInt8)) :
    (pieces.foldl (cryptBlock behind e) s).codec e =
        (feed (Codec.cryptBlock (behind e)) (s.codec e) pieces).1 ∧
      (pieces.foldl (cryptBlock behind e) s).sent e =
        s.sent e ++ (feed (Codec.cryptBlock (behind e)) (s.codec e) pieces).2.reduceOption := by
  induction pieces generalizing s with
  | nil => exact ⟨rfl, (List.append_nil _).symm⟩
  | cons piece rest ih =>
    obtain ⟨hcodec, hsent⟩ := ih (cryptBlock behind e s piece)
    rw [List.foldl_cons, feed_cons, hcodec, hsent]
    cases hblock : ((s.codec e).cryptBlock (behind e) piece).2 with
    | none => simp [cryptBlock, hblock, List.reduceOption_cons_of_none]
    | some b => simp [cryptBlock, hblock, List.reduceOption_cons_of_some]

theorem sent_other (e : End) (s : Pair keys) (pieces : List (List UInt8)) :
    (pieces.foldl (cryptBlock behind e) s).sent e.other = s.sent e.other := by
  have hother : e.other ≠ e := by cases e <;> decide
  induction pieces generalizing s with
  | nil => rfl
  | cons piece rest ih =>
    rw [List.foldl_cons, ih (cryptBlock behind e s piece)]
    exact Function.update_of_ne hother _ _

end Pair

def pair (behind : End → Fin keys.length → Mem) : Machine (Pair keys) Call :=
  .ofNext Pair.init (Pair.next behind)

/-- Before the ring has been used up once, no byte of a key is used twice. -/
def OneTime (s : Pair keys) : Prop :=
  s.usedUp = false → (s.uses.map fun use ↦ (use.key, use.offset)).Nodup

/-- The end stands in the key of the last block of all, behind it, or so that its next block goes
to the next key. -/
def Ahead (s : Pair keys) (e : End) (readsize : ℕ) : Prop :=
  ∀ last ∈ s.uses.getLast?, (s.codec e).curkey = some last.key ∧
    (last.offset < (s.codec e).curpos last.key ∨ (s.codec e).Full last.key readsize)

/-- Only an end that stands there encrypts. -/
def Fresh (s : Pair keys) : Call → Prop
  | .crypt e data => Ahead s e (min 32 data.length)
  | .decrypt _ _ => True

instance decidableFresh (s : Pair keys) : (call : Call) → Decidable (Fresh s call)
  | .crypt _ _ => inferInstanceAs (Decidable (∀ last ∈ s.uses.getLast?, _ ∧ _))
  | .decrypt _ _ => inferInstanceAs (Decidable True)

/-! ## The uses go forward -/

/-- One byte of the pad lies before another one in this pass of the ring. -/
def Use.Before (u v : Use keys) : Prop := u.key < v.key ∨ u.key = v.key ∧ u.offset < v.offset

theorem Use.Before.trans {u v w : Use keys} (h : u.Before v) (h' : v.Before w) : u.Before w := by
  rcases h with hkey | ⟨hkey, hoffset⟩ <;> rcases h' with hkey' | ⟨hkey', hoffset'⟩
  · exact .inl (hkey.trans hkey')
  · exact .inl (hkey' ▸ hkey)
  · exact .inl (hkey ▸ hkey')
  · exact .inr ⟨hkey.trans hkey', hoffset.trans hoffset'⟩

/-- The invariant: in the first pass each byte is used behind all that were used before. -/
def Forward (s : Pair keys) : Prop := s.usedUp = false → s.uses.Pairwise Use.Before

theorem Forward.oneTime {s : Pair keys} (h : Forward s) : OneTime s := by
  intro hused
  rw [List.Nodup, List.pairwise_map]
  apply (h hused).imp
  rintro u v (hkey | ⟨_, hoffset⟩) heq
  · exact hkey.ne (congrArg Prod.fst heq)
  · exact hoffset.ne (congrArg Prod.snd heq)

/-- Whatever lies behind the last use lies behind all of them. -/
theorem before_of_last {uses : List (Use keys)} {v : Use keys} (h : uses.Pairwise Use.Before)
    (hlast : ∀ last ∈ uses.getLast?, last.Before v) : ∀ u ∈ uses, u.Before v := by
  induction uses using List.reverseRecOn with
  | nil => exact nofun
  | append_singleton uses last _ =>
    have hbehind : last.Before v := hlast last (by rw [List.getLast?_concat]; rfl)
    intro u hu
    rcases List.mem_append.mp hu with hold | hnew
    · exact ((List.pairwise_append.mp h).2.2 u hold last List.mem_cons_self).trans hbehind
    · rwa [List.mem_singleton.mp hnew]

theorem mem_uses {b : Block keys} {data : List UInt8} {u : Use keys} (h : u ∈ b.uses data) :
    ∃ i < data.length, u.key = b.key ∧ u.offset = b.curpos + i := by
  obtain ⟨i, hi, rfl⟩ := List.mem_mapIdx.mp h
  exact ⟨i, hi, rfl, rfl⟩

theorem pairwise_uses (b : Block keys) (data : List UInt8) :
    (b.uses data).Pairwise Use.Before := by
  rw [List.pairwise_iff_getElem]
  intro i j hi hj hij
  simp only [Block.uses, List.getElem_mapIdx]
  exact .inr ⟨rfl, Nat.add_lt_add_left hij _⟩

theorem getLast?_uses {b : Block keys} {data : List UInt8} (h : data ≠ []) :
    ∃ last, (b.uses data).getLast? = some last ∧ last.key = b.key ∧
      last.offset + 1 = b.curpos + data.length := by
  have hpos := List.length_pos_iff.mpr h
  have hlength : (b.uses data).length = data.length := List.length_mapIdx
  have hlt : data.length - 1 < (b.uses data).length := by omega
  refine ⟨(b.uses data)[data.length - 1], ?_, ?_, ?_⟩
  · rw [List.getLast?_eq_getElem?, hlength, List.getElem?_eq_getElem hlt]
  · simp only [Block.uses, List.getElem_mapIdx]
  · simp only [Block.uses, List.getElem_mapIdx]
    omega

/-- The place of the next block lies behind the last use, unless the ring is used up. -/
theorem before_block {behind : End → Fin keys.length → Mem} {s : Pair keys} {e : End}
    {data : List UInt8} {b : Block keys} {last : Use keys} (hahead : Ahead s e data.length)
    (hlast : last ∈ s.uses.getLast?) (hroom : (s.codec e).wraps data.length = false)
    (hb : ((s.codec e).cryptBlock (behind e) data).2 = some b) {u : Use keys}
    (hu : u ∈ b.uses data) : last.Before u := by
  obtain ⟨hcur, hplace⟩ := hahead last hlast
  have hcurrent : (s.codec e).current = some last.key := Codec.current_eq_some_iff.mpr (.inl hcur)
  obtain ⟨b', hb', _, _, _, _, hseek⟩ := Codec.cryptBlock_eq (behind e) data hcurrent
  rw [hb] at hb'
  cases hb'
  obtain ⟨i, _, hkey, hoffset⟩ := mem_uses hu
  rcases hseek with ⟨hfull, hnext, _⟩ | ⟨hfits, hsame, hcurpos⟩
  · have hnotLast : last.key.val + 1 ≠ keys.length := by
      intro heq
      rw [Codec.wraps, hcurrent, Option.any_some, decide_eq_true hfull, decide_eq_true heq] at hroom
      cases hroom
    refine .inl ?_
    rw [hkey, hnext, Fin.lt_def, nextKey]
    dsimp only
    have hlt := last.key.isLt
    rw [Nat.mod_eq_of_lt (by omega)]
    exact Nat.lt_succ_self _
  · have hbehind : last.offset < (s.codec e).curpos last.key := hplace.resolve_right hfits
    refine .inr ⟨(hkey.trans hsame).symm, ?_⟩
    omega

/-- One block: the uses go on forward, and the end stands behind it. -/
theorem cryptBlock_forward (behind : End → Fin keys.length → Mem) {s : Pair keys} {e : End}
    {data : List UInt8} (hkeys : keys ≠ []) (hdata : data ≠ []) (h : Forward s)
    (hahead : Ahead s e data.length) :
    Forward (s.cryptBlock behind e data) ∧
      ∀ readsize, Ahead (s.cryptBlock behind e data) e readsize := by
  obtain ⟨i, hcurrent⟩ := Codec.exists_current hkeys (s.codec e)
  obtain ⟨b, hb, _, _, hcurkey, hcurpos, _⟩ := Codec.cryptBlock_eq (behind e) data hcurrent
  have huses : (s.cryptBlock behind e data).uses = s.uses ++ b.uses data := by
    simp only [Pair.cryptBlock, hb, Option.elim_some]
  have hcodec : (s.cryptBlock behind e data).codec e =
      ((s.codec e).cryptBlock (behind e) data).1 := Function.update_self _ _ _
  constructor
  · intro hused
    obtain ⟨hbefore, hroom⟩ := Bool.or_eq_false_iff.mp hused
    rw [huses]
    refine List.pairwise_append.mpr ⟨h hbefore, pairwise_uses b data, fun u hu v hv ↦ ?_⟩
    exact before_of_last (h hbefore)
      (fun last hlast ↦ before_block hahead hlast hroom hb hv) u hu
  · intro readsize last hlast
    obtain ⟨last', hlast', hkey, hoffset⟩ := getLast?_uses (b := b) hdata
    rw [huses, List.getLast?_append, hlast', Option.some_or] at hlast
    cases hlast
    rw [hcodec, hcurkey, hkey, hcurpos]
    exact ⟨rfl, .inl (by omega)⟩

/-- The blocks of a call; after the first one they need no condition. -/
theorem foldl_cryptBlock_forward (behind : End → Fin keys.length → Mem) {s : Pair keys} {e : End}
    (hkeys : keys ≠ []) {pieces : List (List UInt8)} (hne : pieces ≠ [])
    (hpieces : ∀ piece ∈ pieces, piece ≠ []) (h : Forward s)
    (hahead : ∀ piece ∈ pieces.head?, Ahead s e piece.length) :
    Forward (pieces.foldl (Pair.cryptBlock behind e) s) ∧
      ∀ readsize, Ahead (pieces.foldl (Pair.cryptBlock behind e) s) e readsize := by
  induction pieces generalizing s with
  | nil => exact absurd rfl hne
  | cons piece rest ih =>
    have hfirst := cryptBlock_forward behind hkeys (hpieces piece List.mem_cons_self) h
      (hahead piece rfl)
    rw [List.foldl_cons]
    by_cases hrest : rest = []
    · rw [hrest, List.foldl_nil]
      exact hfirst
    · exact ih hrest (fun other hother ↦ hpieces other (List.mem_cons_of_mem _ hother)) hfirst.1
        fun other _ ↦ hfirst.2 other.length

theorem crypt_forward (behind : End → Fin keys.length → Mem) {s : Pair keys} {e : End}
    {data : List UInt8} (hkeys : keys ≠ []) (hdata : data ≠ []) (h : Forward s)
    (hahead : Ahead s e (min 32 data.length)) :
    Forward ((cut 32 data).foldl (Pair.cryptBlock behind e) s) ∧
      ∀ readsize, Ahead ((cut 32 data).foldl (Pair.cryptBlock behind e) s) e readsize := by
  have hhead := head?_cut (n := 32) hdata
  apply foldl_cryptBlock_forward behind hkeys _ _ h
  · intro piece hpiece
    rw [hhead] at hpiece
    cases hpiece
    rw [List.length_take]
    exact hahead
  · intro hnil
    rw [hnil] at hhead
    cases hhead
  · intro piece hpiece
    exact List.length_pos_iff.mp (length_of_mem_cut (by decide) hpiece).1

theorem next_forward (behind : End → Fin keys.length → Mem) {s t : Pair keys} {call : Call}
    (hkeys : keys ≠ []) (h : Forward s) (hfresh : Fresh s call)
    (hnext : s.next behind call = some t) : Forward t := by
  cases call with
  | crypt e data =>
    rw [Pair.next] at hnext
    split_ifs at hnext with hlength
    cases hnext
    exact (crypt_forward behind hkeys (List.length_pos_iff.mp hlength.1) h hfresh).1
  | decrypt e n =>
    obtain ⟨block, _, hnext⟩ := Option.bind_eq_some_iff.mp hnext
    obtain ⟨codec, _, hnext⟩ := Option.bind_eq_some_iff.mp hnext
    cases hnext
    exact h

/-- In every run of any calls at both ends, in which an end only encrypts when it stands in the
key of the last block of all, behind it or too near to the end for the next one, no byte of a key
is used twice before the ring is used up. -/
theorem oneTime_of_run (behind : End → Fin keys.length → Mem) (s : Pair keys)
    (hreach : ((pair behind).guard Fresh).Reachable s) : OneTime s := by
  have hforward : Forward s := by
    by_cases hkeys : keys = []
    · subst hkeys
      cases huses : s.uses with
      | nil => exact fun _ ↦ huses ▸ .nil
      | cons use rest => exact use.key.elim0
    · apply hreach.invariant
      · rintro s rfl _
        exact .nil
      · rintro s call t hs ⟨hstep, hfresh⟩
        exact next_forward behind hkeys hs hfresh hstep
  exact hforward.oneTime

/-- Only one end encrypts. -/
def OnlyFrom (e : End) (_ : Pair keys) : Call → Prop
  | .crypt e' _ => e' = e
  | .decrypt _ _ => True

/-- Traffic in one direction meets the condition by itself. -/
theorem fresh_of_oneSide (behind : End → Fin keys.length → Mem) (hkeys : keys ≠ []) {e : End}
    {s : Pair keys} (hreach : ((pair behind).guard (OnlyFrom e)).Reachable s) :
    Forward s ∧ (∀ readsize, Ahead s e readsize) ∧ s.sent e.other = [] := by
  apply hreach.invariant
  · rintro s rfl
    exact ⟨fun _ ↦ .nil, nofun, rfl⟩
  · rintro s call t ⟨hforward, hahead, hsent⟩ ⟨hstep, honly⟩
    have hnext : s.next behind call = some t := hstep
    cases call with
    | crypt e' data =>
      obtain rfl : e' = e := honly
      rw [Pair.next] at hnext
      split_ifs at hnext with hlength
      cases hnext
      obtain ⟨hforward', hahead'⟩ :=
        crypt_forward behind hkeys (List.length_pos_iff.mp hlength.1) hforward (hahead _)
      exact ⟨hforward', hahead', (Pair.sent_other behind e' s _).trans hsent⟩
    | decrypt e' n =>
      obtain ⟨block, hblock, hnext⟩ := Option.bind_eq_some_iff.mp hnext
      obtain ⟨codec, _, hnext⟩ := Option.bind_eq_some_iff.mp hnext
      cases hnext
      have hother : e ≠ e' := by
        rintro rfl
        rw [hsent] at hblock
        cases hblock
      refine ⟨hforward, fun readsize last hlast ↦ ?_, hsent⟩
      dsimp only
      rw [Function.update_of_ne hother]
      exact hahead readsize last hlast

/-- The coder encrypts 32 bytes in two calls; the decoder follows it and, as its 32 bytes do not
fit behind the start of the second block, goes to the next key. -/
theorem oneTime_of_run_handOver : ∃ s : Pair sampleKeys,
    s.uses.length = 64 ∧ s.usedUp = false ∧ OneTime s := by
  obtain ⟨s, hrun, hlength, hused⟩ := Machine.exists_run_guard Pair.init
    (Pair.next fun _ _ _ ↦ 0) Fresh [.crypt .coder [1], .crypt .coder (List.replicate 31 2),
      .decrypt .decoder 1, .crypt .decoder (List.replicate 32 3)]
    (P := fun s : Pair sampleKeys ↦ s.uses.length = 64 ∧ s.usedUp = false) (by decide)
  exact ⟨s, hlength, hused, oneTime_of_run _ s ⟨_, hrun⟩⟩

/-- The decoder answers one byte with one byte, under the same byte of the first key. -/
theorem not_oneTime_answer :
    ¬ ∀ (keys : List Key) (behind : End → Fin keys.length → Mem) (s : Pair keys),
        (keys.map Key.num).Nodup → (pair behind).Reachable s → s.usedUp = false →
        ∀ u ∈ s.uses, ∀ v ∈ s.uses, u.key = v.key → u.offset = v.offset → u.byte = v.byte := by
  intro hall
  obtain ⟨s, hrun, hused, hbytes⟩ := Machine.exists_run_ofNext Pair.init
    (Pair.next fun _ _ _ ↦ 0) [.crypt .coder [1], .decrypt .decoder 0, .crypt .decoder [2]]
    (P := fun s : Pair sampleKeys ↦ s.usedUp = false ∧ ∃ u ∈ s.uses, ∃ v ∈ s.uses,
      u.key = v.key ∧ u.offset = v.offset ∧ u.byte ≠ v.byte) (by decide)
  obtain ⟨u, hu, v, hv, hkey, hoffset, hne⟩ := hbytes
  exact hne (hall sampleKeys _ s (by decide) ⟨_, hrun⟩ hused u hu v hv hkey hoffset)

end QNet.Qcrypt
