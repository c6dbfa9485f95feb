import Mathlib.Data.Finset.Union
import QNet.Lib.Machine

/-!
# The channels of the OpenFlow controller

`qcrypt.py` is asked over HTTP to change the mode of a channel. `set_flows` clears the table of the
channel's switch and installs the two flows of the section that belongs to the mode, so a switch
has the flows of the mode that was asked for last, of whichever channel.

Channels of different switches are isolated from each other, and of two channels of one switch the
later takes the flows of the earlier away: `switchIsolation`. Every configuration that comes with
the program has one channel for each switch, and these are the configurations without loss:
`channelIsolation_iff`.
-/

namespace QNet.OpenFlow

/-! ## The switches -/

/-- What a packet must have; the numbers are those that the texts of the configuration stand for. -/
structure Match where
  dlType : ℕ
  nwProto : ℕ
  inPort : ℕ
  nwSrc : Option ℕ := none
  tpSrc : Option ℕ := none
  nwDst : Option ℕ := none
  tpDst : Option ℕ := none
  deriving DecidableEq

inductive Action
  | setNwSrc (nw : ℕ)
  | setTpSrc (tp : ℕ)
  | setDlSrc (dl : ℕ)
  | setNwDst (nw : ℕ)
  | setTpDst (tp : ℕ)
  | setDlDst (dl : ℕ)
  | output (port : ℕ)
  deriving DecidableEq

structure Flow where
  priority : ℕ
  pattern : Match
  actions : List Action
  deriving DecidableEq

/-- The flow table of every switch. -/
abbrev Tables := ℕ → Finset Flow

/-- What the controller calls of `ofctl_v1_0`. -/
structure Ofctl where
  deleteFlowEntry : Tables → ℕ → Tables
  /-- `mod_flow_entry` with `OFPFC_ADD`. -/
  addFlowEntry : Tables → ℕ → Flow → Tables

/-- All flows are deleted; a flow replaces the one with the same match and priority. -/
structure Ofctl.Documented (ofctl : Ofctl) : Prop where
  delete : ∀ tables dp, ofctl.deleteFlowEntry tables dp = Function.update tables dp ∅
  add : ∀ tables dp flow, ofctl.addFlowEntry tables dp flow = Function.update tables dp
    (insert flow ((tables dp).filter fun e ↦ ¬ (e.priority = flow.priority ∧
      e.pattern = flow.pattern)))

/-! ## The controller -/

/-- A section of a channel. -/
structure Section where
  nw : ℕ
  tp : ℕ
  dl : ℕ
  iport : ℕ
  oport : ℕ
  deriving DecidableEq

structure Channel where
  dpid : ℕ
  transp : Section
  scrypt : Section
  qcrypt : Section

structure Dst where
  nw : ℕ
  tp : ℕ

structure Controller where
  dst : Dst
  channels : String → Option Channel
  /-- The switches that are connected. -/
  dpset : ℕ → Bool

/-- `dpset.get`. -/
def Controller.get (ctl : Controller) (dpid : ℕ) : Option ℕ :=
  if ctl.dpset dpid then some dpid else none

/-- To the crypto node. -/
def forward (dst : Dst) (f : Section) : Flow where
  priority := 1000
  pattern := {
    dlType := 0x0800, nwProto := 6, inPort := f.iport, nwDst := some dst.nw, tpDst := some dst.tp }
  actions := [.setNwDst f.nw, .setTpDst f.tp, .setDlDst f.dl, .output f.oport]

/-- Back from the crypto node. -/
def backward (dst : Dst) (f : Section) : Flow where
  priority := 1000
  pattern := {
    dlType := 0x0800, nwProto := 6, inPort := f.oport, nwSrc := some f.nw, tpSrc := some f.tp }
  actions := [.setNwSrc dst.nw, .setTpSrc dst.tp, .setDlSrc f.dl, .output f.iport]

def setFlows (ofctl : Ofctl) (dst : Dst) (tables : Tables) (dp : ℕ) (f : Section) : Tables :=
  let tables := ofctl.deleteFlowEntry tables dp
  let tables := ofctl.addFlowEntry tables dp (forward dst f)
  ofctl.addFlowEntry tables dp (backward dst f)

/-- What the two scripts give. -/
structure Scripts where
  cryptoStat : ℤ
  cryptoStatGet : List String

/-- `result` of the answer. -/
inductive Result
  | flows (f : Section)
  | text (word : String)
  | exit (code : ℤ)
  | lines (out : List String)

/-- `/qchannel/{channel}/{status}`. The route admits one digit for the channel. -/
structure Request where
  channel : String
  status : Fin 7

/-- `get_handler`. It fails where the channel is not in the configuration, and where a switch is
needed that is not connected. -/
def getHandler (ofctl : Ofctl) (scripts : Scripts) (ctl : Controller) (tables : Tables)
    (r : Request) : Option (Tables × Result) :=
  (ctl.channels r.channel).bind fun c ↦
    let dp := ctl.get c.dpid
    match r.status with
    | 0 => dp.map fun dp ↦ (setFlows ofctl ctl.dst tables dp c.scrypt, .flows c.scrypt)
    | 1 => dp.map fun dp ↦ (setFlows ofctl ctl.dst tables dp c.qcrypt, .flows c.qcrypt)
    | 2 => some (tables, .text "REREAD")
    | 3 => dp.map fun dp ↦ (setFlows ofctl ctl.dst tables dp c.transp, .flows c.transp)
    | 4 => dp.map fun dp ↦ (ofctl.deleteFlowEntry tables dp, .text "DELETE")
    | 5 => some (tables, .exit scripts.cryptoStat)
    | 6 => some (tables, .lines scripts.cryptoStatGet)

/-- The tables after a request. -/
def step (ofctl : Ofctl) (scripts : Scripts) (ctl : Controller) (tables : Tables) (r : Request) :
    Tables :=
  ((getHandler ofctl scripts ctl tables r).map Prod.fst).getD tables

def run (ofctl : Ofctl) (scripts : Scripts) (ctl : Controller) (tables : Tables)
    (requests : List Request) : Tables :=
  requests.foldl (step ofctl scripts ctl) tables

/-! ## Isolation -/

/-- The section that a status selects, `some none` for no flows. The other statuses select
nothing. -/
def mode (c : Channel) : Fin 7 → Option (Option Section)
  | 0 => some (some c.scrypt)
  | 1 => some (some c.qcrypt)
  | 3 => some (some c.transp)
  | 4 => some none
  | _ => none

def sectionFlows (dst : Dst) (f : Section) : Finset Flow := {forward dst f, backward dst f}

/-- The flows of a mode. -/
def modeFlows (dst : Dst) (selected : Option Section) : Finset Flow :=
  selected.elim ∅ (sectionFlows dst)

def Channel.sections (c : Channel) : Finset Section := {c.transp, c.scrypt, c.qcrypt}

/-- All flows that a channel can have. -/
def ownFlows (dst : Dst) (c : Channel) : Finset Flow := c.sections.biUnion (sectionFlows dst)

/-- Channels of one switch have no section in common. -/
def Controller.Distinct (ctl : Controller) : Prop :=
  ∀ ch ch' c c', ctl.channels ch = some c → ctl.channels ch' = some c' → ch ≠ ch' →
    c.dpid = c'.dpid → Disjoint c.sections c'.sections

/-- The channel whose mode a request changes, and the mode. -/
def change (ctl : Controller) (r : Request) : Option (Channel × Option Section) :=
  (ctl.channels r.channel).bind fun c ↦
    (ctl.get c.dpid).bind fun _ ↦ (mode c r.status).map fun selected ↦ (c, selected)

/-- The mode that was asked for last for a channel. -/
def modeOf (ctl : Controller) (ch : String) (requests : List Request) : Option (Option Section) :=
  requests.reverse.findSome? fun r ↦
    if r.channel = ch then (change ctl r).map Prod.snd else none

/-- The mode that a request asks for on a switch, with the name of the channel. -/
def changeOn (ctl : Controller) (dpid : ℕ) (r : Request) : Option (String × Option Section) :=
  (change ctl r).bind fun (c, selected) ↦ if c.dpid = dpid then some (r.channel, selected) else none

/-- The mode that was asked for last on a switch. -/
def lastOn (ctl : Controller) (dpid : ℕ) (requests : List Request) :
    Option (String × Option Section) :=
  requests.reverse.findSome? (changeOn ctl dpid)

section Isolation

variable (ofctl : Ofctl) (scripts : Scripts) (ctl : Controller) (tables : Tables)

/-- Every channel has the flows of its mode, and no request touches another channel's. -/
structure ChannelIsolation : Prop where
  installed : ∀ requests ch c selected, ctl.channels ch = some c →
    modeOf ctl ch requests = some selected →
      run ofctl scripts ctl tables requests c.dpid ∩ ownFlows ctl.dst c =
        modeFlows ctl.dst selected
  unchanged : ∀ requests r ch c, ctl.channels ch = some c → r.channel ≠ ch →
    run ofctl scripts ctl tables (requests ++ [r]) c.dpid ∩ ownFlows ctl.dst c =
      run ofctl scripts ctl tables requests c.dpid ∩ ownFlows ctl.dst c

/-- Every channel has the flows of its mode until another channel of its switch changes its own;
then it has none. -/
structure SwitchIsolation : Prop where
  installed : ∀ requests ch c selected, ctl.channels ch = some c →
    modeOf ctl ch requests = some selected →
      run ofctl scripts ctl tables requests c.dpid ∩ ownFlows ctl.dst c =
        if (lastOn ctl c.dpid requests).any (·.1 = ch) then modeFlows ctl.dst selected else ∅
  unchanged : ∀ requests r ch c, ctl.channels ch = some c → r.channel ≠ ch →
    run ofctl scripts ctl tables (requests ++ [r]) c.dpid ∩ ownFlows ctl.dst c =
      if (changeOn ctl c.dpid r).isSome then ∅
      else run ofctl scripts ctl tables requests c.dpid ∩ ownFlows ctl.dst c

end Isolation

/-! ## The flows of a channel -/

theorem forward_inj {dst : Dst} {f f' : Section} (h : forward dst f = forward dst f') : f = f' := by
  cases f
  cases f'
  simp_all [forward]

theorem backward_inj {dst : Dst} {f f' : Section} (h : backward dst f = backward dst f') :
    f = f' := by
  cases f
  cases f'
  simp_all [backward]

/-- The one flow gives the source, the other the destination. -/
theorem pattern_forward_ne (dst : Dst) (f f' : Section) :
    (forward dst f).pattern ≠ (backward dst f').pattern := fun h ↦
  absurd (congrArg Match.nwSrc h) nofun

theorem disjoint_ownFlows (dst : Dst) {c c' : Channel} (h : Disjoint c.sections c'.sections) :
    Disjoint (ownFlows dst c) (ownFlows dst c') := by
  rw [ownFlows, Finset.disjoint_biUnion_left]
  intro f hf
  rw [ownFlows, Finset.disjoint_biUnion_right]
  intro f' hf'
  have hne := Finset.disjoint_left.mp h hf
  rw [Finset.disjoint_left]
  intro e he he'
  rw [sectionFlows, Finset.mem_insert, Finset.mem_singleton] at he he'
  rcases he with rfl | rfl <;> rcases he' with heq | heq
  · exact hne (forward_inj heq ▸ hf')
  · exact pattern_forward_ne dst f f' (congrArg Flow.pattern heq)
  · exact pattern_forward_ne dst f' f (congrArg Flow.pattern heq).symm
  · exact hne (backward_inj heq ▸ hf')

theorem modeFlows_subset (dst : Dst) {c : Channel} {status : Fin 7} {selected : Option Section}
    (h : mode c status = some selected) : modeFlows dst selected ⊆ ownFlows dst c := by
  cases selected with
  | none => exact Finset.empty_subset _
  | some f =>
    apply Finset.subset_biUnion_of_mem (sectionFlows dst)
    unfold mode at h
    unfold Channel.sections
    split at h <;> simp_all

/-! ## The tables -/

section Run

variable {ofctl : Ofctl} (hofctl : ofctl.Documented) (scripts : Scripts) {ctl : Controller}
include hofctl

/-- Only the flows of the section remain. -/
theorem setFlows_eq (dst : Dst) (tables : Tables) (dp : ℕ) (f : Section) :
    setFlows ofctl dst tables dp f = Function.update tables dp (sectionFlows dst f) := by
  rw [setFlows, hofctl.add, hofctl.add, hofctl.delete, Function.update_self, Function.update_idem,
    Function.update_self, Function.update_idem]
  congr 1
  ext e
  simp only [Finset.mem_insert, Finset.mem_filter, sectionFlows, Finset.mem_singleton,
    Finset.notMem_empty, false_and, or_false]
  constructor
  · rintro (rfl | ⟨rfl, _⟩)
    · exact .inr rfl
    · exact .inl rfl
  · rintro (rfl | rfl)
    · exact .inr ⟨rfl, fun h ↦ pattern_forward_ne dst f f h.2⟩
    · exact .inl rfl

/-- What a request does to the tables. -/
theorem step_eq (tables : Tables) (r : Request) :
    step ofctl scripts ctl tables r =
      (change ctl r).elim tables fun (c, selected) ↦
        Function.update tables c.dpid (modeFlows ctl.dst selected) := by
  unfold step getHandler change
  cases ctl.channels r.channel with
  | none => rfl
  | some c =>
    cases hget : ctl.get c.dpid with
    | none =>
      rw [Option.bind_some, Option.bind_some, hget]
      split <;> rfl
    | some dp =>
      obtain ⟨_, heq⟩ := Option.ite_none_right_eq_some.mp hget
      obtain rfl := Option.some.inj heq
      rw [Option.bind_some, Option.bind_some, hget, Option.bind_some]
      generalize r.status = status
      split
      · exact setFlows_eq hofctl ctl.dst tables c.dpid c.scrypt
      · exact setFlows_eq hofctl ctl.dst tables c.dpid c.qcrypt
      · rfl
      · exact setFlows_eq hofctl ctl.dst tables c.dpid c.transp
      · exact hofctl.delete tables c.dpid
      · rfl
      · rfl

theorem step_apply (tables : Tables) (r : Request) (dpid : ℕ) :
    step ofctl scripts ctl tables r dpid =
      ((changeOn ctl dpid r).map fun (_, selected) ↦ modeFlows ctl.dst selected).getD
        (tables dpid) := by
  rw [step_eq hofctl, changeOn]
  cases change ctl r with
  | none => rfl
  | some pair =>
    obtain ⟨c, selected⟩ := pair
    dsimp only [Option.elim_some, Option.bind_some]
    rw [Function.update_apply]
    by_cases heq : c.dpid = dpid
    · rw [if_pos heq.symm, if_pos heq]
      rfl
    · rw [if_neg (Ne.symm heq), if_neg heq]
      rfl

/-- A switch has the flows of the mode that was asked for last. -/
theorem run_apply (tables : Tables) (requests : List Request) (dpid : ℕ) :
    run ofctl scripts ctl tables requests dpid =
      ((lastOn ctl dpid requests).map fun (_, selected) ↦ modeFlows ctl.dst selected).getD
        (tables dpid) := by
  have hstep (tables : Tables) (r : Request) : step ofctl scripts ctl tables r dpid = _ :=
    step_apply hofctl scripts tables r dpid
  have hlast := foldl_lastWrite (fun tables : Tables ↦ tables dpid) hstep requests tables
  rw [run, hlast, lastOn, List.map_findSome?]
  rfl

end Run

/-! ## Which channel has its flows -/

section Channels

variable {ctl : Controller}

/-- What is asked for on a switch is a mode of one of its channels. -/
theorem exists_channel_of_changeOn {dpid : ℕ} {r : Request} {name : String}
    {selected : Option Section} (h : changeOn ctl dpid r = some (name, selected)) :
    (r.channel = name ∧ ctl.dpset dpid = true) ∧ ∃ c, ctl.channels name = some c ∧
      c.dpid = dpid ∧ modeFlows ctl.dst selected ⊆ ownFlows ctl.dst c := by
  obtain ⟨⟨c, mode'⟩, hchange, hon⟩ := Option.bind_eq_some_iff.mp h
  obtain ⟨hdpid, hpair⟩ := Option.ite_none_right_eq_some.mp hon
  obtain ⟨rfl, rfl⟩ := Prod.mk.inj (Option.some.inj hpair)
  obtain ⟨c', hc, hmode⟩ := Option.bind_eq_some_iff.mp hchange
  obtain ⟨_, hget, hmode⟩ := Option.bind_eq_some_iff.mp hmode
  obtain ⟨selected, hselected, hpair⟩ := Option.map_eq_some_iff.mp hmode
  obtain ⟨rfl, rfl⟩ := Prod.mk.inj hpair
  obtain ⟨hconnected, _⟩ := Option.ite_none_right_eq_some.mp hget
  exact ⟨⟨rfl, hdpid ▸ hconnected⟩, c', hc, hdpid, modeFlows_subset ctl.dst hselected⟩

/-- A request seen from its channel and from the switch of the channel. -/
theorem change_eq_changeOn {ch : String} {c : Channel} (hc : ctl.channels ch = some c)
    (r : Request) : (if r.channel = ch then (change ctl r).map Prod.snd else none) =
      (changeOn ctl c.dpid r).bind fun (name, selected) ↦
        if name = ch then some selected else none := by
  rw [changeOn, change]
  by_cases hname : r.channel = ch
  · rw [if_pos hname, hname, hc, Option.bind_some]
    cases ctl.get c.dpid with
    | none => rfl
    | some dp =>
      cases mode c r.status with
      | none => rfl
      | some selected => simp
  · rw [if_neg hname, eq_comm, Option.bind_eq_none_iff]
    intro pair hpair
    obtain ⟨_, _, hon⟩ := Option.bind_eq_some_iff.mp hpair
    obtain ⟨_, heq⟩ := Option.ite_none_right_eq_some.mp hon
    rw [← Option.some.inj heq]
    exact if_neg hname

theorem findSome?_bind {α β γ : Type*} {f : α → Option β} {g : β → Option γ} {l : List α} {x : β}
    {y : γ} (hx : l.findSome? f = some x) (hy : g x = some y) :
    l.findSome? (fun a ↦ (f a).bind g) = some y := by
  induction l with
  | nil => cases hx
  | cons a l ih =>
    rw [List.findSome?_cons] at hx ⊢
    cases ha : f a with
    | none =>
      rw [ha] at hx
      exact ih hx
    | some b =>
      rw [ha] at hx
      obtain rfl := Option.some.inj hx
      rw [Option.bind_some, hy]

theorem modeOf_eq {ch : String} {c : Channel} (hc : ctl.channels ch = some c)
    (requests : List Request) : modeOf ctl ch requests =
      requests.reverse.findSome? fun r ↦ (changeOn ctl c.dpid r).bind fun (name, selected) ↦
        if name = ch then some selected else none := by
  rw [modeOf]
  simp only [change_eq_changeOn hc]

/-- If the channel was the last one on its switch, it is in the mode of the switch. -/
theorem modeOf_of_lastOn {ch : String} {c : Channel} (hc : ctl.channels ch = some c)
    {requests : List Request} {selected : Option Section}
    (h : lastOn ctl c.dpid requests = some (ch, selected)) :
    modeOf ctl ch requests = some selected := by
  rw [modeOf_eq hc]
  exact findSome?_bind h (if_pos rfl)

theorem exists_lastOn {ch : String} {c : Channel} (hc : ctl.channels ch = some c)
    {requests : List Request} {selected : Option Section}
    (h : modeOf ctl ch requests = some selected) :
    ∃ name last, lastOn ctl c.dpid requests = some (name, last) := by
  rw [modeOf_eq hc] at h
  obtain ⟨r, hr, hbind⟩ := List.exists_of_findSome?_eq_some h
  obtain ⟨pair, hpair, _⟩ := Option.bind_eq_some_iff.mp hbind
  have hsome : (lastOn ctl c.dpid requests).isSome :=
    List.findSome?_isSome_iff.mpr ⟨r, hr, by rw [hpair]; rfl⟩
  obtain ⟨⟨name, last⟩, hlast⟩ := Option.isSome_iff_exists.mp hsome
  exact ⟨name, last, hlast⟩

end Channels

/-- What holds of every configuration whose channels can be told apart. -/
theorem switchIsolation {ofctl : Ofctl} (hofctl : ofctl.Documented) (scripts : Scripts)
    {ctl : Controller} (hdistinct : ctl.Distinct) (tables : Tables) :
    SwitchIsolation ofctl scripts ctl tables := by
  -- Of a mode that another channel of the switch is in, a channel has no flow.
  have hother {ch name : String} {c : Channel} {selected : Option Section} {r : Request}
      (hc : ctl.channels ch = some c) (hne : name ≠ ch)
      (h : changeOn ctl c.dpid r = some (name, selected)) :
      modeFlows ctl.dst selected ∩ ownFlows ctl.dst c = ∅ := by
    obtain ⟨_, c', hc', hdpid, hsubset⟩ := exists_channel_of_changeOn h
    have hsections := hdistinct name ch c' c hc' hc hne hdpid
    exact ((disjoint_ownFlows ctl.dst hsections).mono_left hsubset).eq_bot
  constructor
  · intro requests ch c selected hc hmode
    obtain ⟨name, last, hlast⟩ := exists_lastOn hc hmode
    obtain ⟨r, _, hchange⟩ := List.exists_of_findSome?_eq_some hlast
    rw [run_apply hofctl, hlast, Option.map_some, Option.getD_some, Option.any_some]
    split_ifs with heq
    · obtain rfl : name = ch := of_decide_eq_true heq
      obtain ⟨_, c', hc', _, hsubset⟩ := exists_channel_of_changeOn hchange
      obtain rfl : last = selected :=
        Option.some.inj ((modeOf_of_lastOn hc hlast).symm.trans hmode)
      obtain rfl : c' = c := Option.some.inj (hc'.symm.trans hc)
      exact Finset.inter_eq_left.mpr hsubset
    · exact hother hc (fun h ↦ heq (decide_eq_true h)) hchange
  · intro requests r ch c hc hne
    rw [run, List.foldl_append]
    cases hchange : changeOn ctl c.dpid r with
    | none =>
      rw [List.foldl_cons, List.foldl_nil, step_apply hofctl, hchange]
      rfl
    | some pair =>
      obtain ⟨name, selected⟩ := pair
      obtain ⟨⟨rfl, _⟩, _⟩ := exists_channel_of_changeOn hchange
      rw [List.foldl_cons, List.foldl_nil, step_apply hofctl, hchange]
      exact hother hc hne hchange

/-- Channels of different switches are isolated, and only these: of two channels of one switch the
later takes the flows of the earlier away. -/
theorem channelIsolation_iff {ofctl : Ofctl} (hofctl : ofctl.Documented) (scripts : Scripts)
    (ctl : Controller) (tables : Tables) :
    ChannelIsolation ofctl scripts ctl tables ↔
      ∀ ch ch' c c', ctl.channels ch = some c → ctl.channels ch' = some c' →
        ctl.dpset c.dpid = true → c.dpid = c'.dpid → ch = ch' := by
  constructor
  · intro h ch ch' c c' hc hc' hconnected hdpid
    by_contra hne
    have hchange : changeOn ctl c.dpid ⟨ch', 4⟩ = some (ch', none) := by
      simp [changeOn, change, hc', Controller.get, ← hdpid, hconnected, mode]
    have hmode : modeOf ctl ch [⟨ch, 0⟩] = some (some c.scrypt) := by
      simp [modeOf, change, hc, Controller.get, hconnected, mode]
    have hinstalled := h.installed [⟨ch, 0⟩] ch c _ hc hmode
    have hcleared := h.unchanged [⟨ch, 0⟩] ⟨ch', 4⟩ ch c hc (Ne.symm hne)
    rw [hinstalled, run, List.foldl_append, List.foldl_cons, List.foldl_nil, step_apply hofctl,
      hchange] at hcleared
    have hmem : forward ctl.dst c.scrypt ∈ modeFlows ctl.dst (some c.scrypt) :=
      Finset.mem_insert_self _ _
    rw [← hcleared] at hmem
    exact absurd (Finset.mem_inter.mp hmem).1 (Finset.notMem_empty _)
  · intro halone
    constructor
    · intro requests ch c selected hc hmode
      obtain ⟨name, last, hlast⟩ := exists_lastOn hc hmode
      obtain ⟨r, _, hchange⟩ := List.exists_of_findSome?_eq_some hlast
      obtain ⟨⟨_, hconnected⟩, c', hc', hdpid, hsubset⟩ := exists_channel_of_changeOn hchange
      obtain rfl := halone ch name c c' hc hc' hconnected hdpid.symm
      obtain rfl : last = selected :=
        Option.some.inj ((modeOf_of_lastOn hc hlast).symm.trans hmode)
      obtain rfl : c' = c := Option.some.inj (hc'.symm.trans hc)
      rw [run_apply hofctl, hlast]
      exact Finset.inter_eq_left.mpr hsubset
    · intro requests r ch c hc hne
      have hnone : changeOn ctl c.dpid r = none := by
        rw [Option.eq_none_iff_forall_not_mem]
        rintro ⟨name, selected⟩ hchange
        obtain ⟨⟨hname, hconnected⟩, c', hc', hdpid, _⟩ := exists_channel_of_changeOn hchange
        exact hne (hname.trans (halone ch name c c' hc hc' hconnected hdpid.symm).symm)
      rw [run, List.foldl_append, List.foldl_cons, List.foldl_nil, step_apply hofctl, hnone]
      rfl

/-! ## Two channels of one switch -/

/-- `ofctl_v1_0` as it is documented. -/
def openFlow : Ofctl where
  deleteFlowEntry tables dp := Function.update tables dp ∅
  addFlowEntry tables dp flow := Function.update tables dp
    (insert flow ((tables dp).filter fun e ↦ ¬ (e.priority = flow.priority ∧
      e.pattern = flow.pattern)))

theorem openFlow_documented : openFlow.Documented := ⟨fun _ _ ↦ rfl, fun _ _ _ ↦ rfl⟩

def sampleChannel : Channel where
  dpid := 3
  transp := ⟨0x0a010103, 1000, 3, 1, 3⟩
  scrypt := ⟨0x0a010103, 1001, 3, 1, 3⟩
  qcrypt := ⟨0x0a010103, 1002, 3, 1, 3⟩

def otherChannel : Channel where
  dpid := 3
  transp := ⟨0x0a010105, 1000, 5, 2, 4⟩
  scrypt := ⟨0x0a010105, 1001, 5, 2, 4⟩
  qcrypt := ⟨0x0a010105, 1002, 5, 2, 4⟩

/-- Both channels on switch 3. -/
def sharedSwitch : Controller where
  dst := ⟨0x0a010102, 1000⟩
  channels ch :=
    if ch = "1" then some sampleChannel
    else if ch = "2" then some otherChannel
    else none
  dpset dpid := dpid = 3

theorem distinct_sharedSwitch : sharedSwitch.Distinct := by
  intro ch ch' c c' hc hc' hne _
  have hdisjoint : Disjoint sampleChannel.sections otherChannel.sections := by decide
  simp only [sharedSwitch] at hc hc'
  split_ifs at hc hc' with hone hone' htwo' htwo hone' htwo'
  all_goals
    obtain rfl := Option.some.inj hc
    obtain rfl := Option.some.inj hc'
  · exact absurd (hone.trans hone'.symm) hne
  · exact hdisjoint
  · exact hdisjoint.symm
  · exact absurd (htwo.trans htwo'.symm) hne

theorem switchIsolation_sharedSwitch :
    SwitchIsolation openFlow ⟨0, []⟩ sharedSwitch (fun _ ↦ ∅) :=
  switchIsolation openFlow_documented ⟨0, []⟩ distinct_sharedSwitch (fun _ ↦ ∅)

/-- Channel 1 loses its flows when channel 2 gets its own. -/
theorem not_channelIsolation_sharedSwitch : openFlow.Documented ∧ sharedSwitch.Distinct ∧
    ¬ ChannelIsolation openFlow ⟨0, []⟩ sharedSwitch (fun _ ↦ ∅) := by
  refine ⟨openFlow_documented, distinct_sharedSwitch, fun h ↦ ?_⟩
  have hflows := h.installed [⟨"1", 1⟩, ⟨"2", 0⟩] "1" sampleChannel (some sampleChannel.qcrypt)
    rfl rfl
  exact absurd hflows (by decide)

end QNet.OpenFlow
