import Yarv.Isa.Machine
import Yarv.Progress

/-!
# One instruction

What decode and execute make of a word or a halfword, whatever runs around it.  `Takes f m` says that it is what `m`
asks for, in every cycle of decode and in every cycle of every run in which execute holds it.  The hart takes
everything for what it finds in it (`takes_hart`), so it takes `f` for what the instruction set finds in it exactly if
both find the same (`takes_iff`): not in a `LooseWord` or a `LooseHalf`, and in all others.
-/

namespace Yarv.Isa

open Clocked ExecuteStage ByteMem DecodeStage CoreMem

/-! ### An instruction in execute -/

namespace Fetched

/-- The two low bits tell a word from a halfword. -/
def Proper : Fetched → Prop
  | fault _ => False
  | half c => c.extractLsb' 0 2 ≠ 0b11#2
  | word w => w.extractLsb' 0 2 = 0b11#2

/-- The D/E register holds what decode makes of it. -/
def Held (d : De) : Fetched → Prop
  | fault _ => False
  | half c => d.valid = true ∧ d.isCompressed = true ∧ d.instr = cExpand c
  | word w => d.valid = true ∧ d.isCompressed = false ∧ d.instr = w

end Fetched

/-- The state the instruction in execute finds. -/
def archAt (s : CoreMem) : Arch where
  pc := s.core.de.pc
  regs := s.core.rf
  csr := s.core.csr.regs.read
  mem := ofWords 4 s.dmem.mem

section Cycle

variable (p : Params) (s : CoreMem) (i : CoreIn)

/-- A cycle has the effect `e`: fetch goes on there, the commit shows it, and it is done to the state. -/
structure Does (e : Effect) : Prop where
  pc : s.core.goesOn p (s.coreIn p i) = e.pc
  event : eventEv p s i = some (.commit ⟨s.core.de.pc, s.core.de.instr, e.reg, e.access⟩)
  regs : (s.next p i).core.rf = (e.apply (archAt s)).regs
  csr : ∀ b, ¬Volatile b → (s.next p i).core.csr.regs.read b = e.csr b
  mem : ofWords 4 (s.next p i).dmem.mem = e.mem

/-- What a cycle makes of the instruction in execute is `r`: it commits with that effect, or it traps with that cause
and value.  As long as it does not commit, no register and no byte changes; as long as nothing is entered either, it
stays in execute and no CSR changes. -/
structure Performs (r : Except Report Effect) : Prop where
  commits : s.core.ex.opCommits p (s.core.exIn (s.coreIn p i)) = true → ∃ e, r = .ok e ∧ Does p s i e
  traps : s.core.ex.syncTrapReq p (s.core.exIn (s.coreIn p i)) = true →
    r = .error (s.core.ex.trapCause p (s.core.exIn (s.coreIn p i)), s.core.ex.trapTval p (s.core.exIn (s.coreIn p i)))
  keeps : s.core.ex.opCommits p (s.core.exIn (s.coreIn p i)) = false →
    (s.next p i).core.rf = s.core.rf ∧ ofWords 4 (s.next p i).dmem.mem = ofWords 4 s.dmem.mem
  waits : s.core.ex.opCommits p (s.core.exIn (s.coreIn p i)) = false → s.core.entry p (s.coreIn p i) = false →
    (s.next p i).core.de = s.core.de ∧
      ∀ b, ¬Volatile b → (s.next p i).core.csr.regs.read b = s.core.csr.regs.read b

end Cycle

/-- A run executes `f` as `m`: each cycle with `f` in execute performs `m` from the state it finds, and `f` ends in a
commit, a trap or an interrupt within forty cycles that nothing outside blocks. -/
structure Executes (p : Params) (s : CoreMem) (inp : Nat → CoreIn) (f : Fetched)
    (m : Except Report Instr) : Prop where
  performs : ∀ t, f.Held (trace (CoreMem.next p) s inp t).core.de →
    Performs p (trace (CoreMem.next p) s inp t) (inp t)
      (m.bind (exec p (archAt (trace (CoreMem.next p) s inp t)) (outside (trace (CoreMem.next p) s inp t) (inp t))
        ((trace (CoreMem.next p) s inp t).core.de.pc + f.bytes)))
  ends : ∀ t n, f.Held (trace (CoreMem.next p) s inp t).core.de →
    40 ≤ (List.range n).countP
      (fun k => !CoreMem.blocked p (trace (CoreMem.next p) s inp (t + k)) (inp (t + k))) →
    ∃ k < n, (trace (CoreMem.next p) s inp (t + k)).core.de = (trace (CoreMem.next p) s inp t).core.de ∧
      (eventEv p (trace (CoreMem.next p) s inp (t + k)) (inp (t + k))).isSome = true

/-- The hart takes `f` for `m`: decode presents it so, and every run executes it so. -/
structure Takes (f : Fetched) (m : Except Report Instr) : Prop where
  decode : ∀ (p : Params) (q : DecodeStage) (i : DecodeIn), decodedValid q i = true → takeFault q i = false →
    found (src q i) = f → Presents m (deD p q i)
  execute : ∀ (p : Params) (boot : Word) (img : Nat → BitVec 64) (rf : RegFile) (s : CoreMem) (inp : Nat → CoreIn),
    s.IsReset boot img rf → Executes p s inp f m

/-! ### What the hart makes of it -/

section Hart

variable {p : Params} {s : CoreMem} {i : CoreIn} {f : Fetched} {a : Arch} {o : Outside}

/-- What the hart finds in a word or a halfword is what it finds in the word of the D/E register. -/
private theorem Fetched.Held.instr {d : De} (h : f.Held d) : f.instr hart = hartWord d.instr := by
  cases f with
  | fault a => exact h.elim
  | half c =>
    obtain ⟨-, -, hi⟩ := h
    rw [hi]
    exact instr_found ⟨0, c, 0, true⟩
  | word w =>
    obtain ⟨-, -, hi⟩ := h
    rw [hi]
    rfl

private theorem Fetched.Held.valid {d : De} (h : f.Held d) : d.valid = true := by
  cases f with
  | fault a => exact h.elim
  | half c => exact h.1
  | word w => exact h.1

private theorem Fetched.Held.bytes {d : De} (h : f.Held d) : f.bytes = if d.isCompressed then 2 else 4 := by
  cases f with
  | fault a => exact h.elim
  | half c => rw [h.2.1]; rfl
  | word w => rw [h.2.1]; rfl

/-- It is the item of an instruction, not of a fault. -/
private theorem Fetched.Held.item {d : De} (h : f.Held d) (hp : f.Proper) (hm : d.Made) :
    ∃ x : Item, x.fault = false ∧ ∃ pr : Pred, d = x.de d.rs1Data d.rs2Data pr := by
  obtain ⟨x, hfault, pr, -, hde⟩ := hm
  refine ⟨x, ?_, pr, hde⟩
  rw [Bool.eq_false_iff]
  intro hx
  have hc : d.isCompressed = false := by
    rw [hde, hfault hx]
    rfl
  have hi : d.instr = 0 := by
    rw [hde, hfault hx]
    rfl
  cases f with
  | fault a => exact h
  | half c =>
    rw [h.2.1] at hc
    cases hc
  | word w =>
    have hw : w = 0 := h.2.2.symm.trans hi
    have hlow : w.extractLsb' 0 2 = 0b11#2 := hp
    rw [hw] at hlow
    exact absurd hlow (by decide)

private theorem Agrees.of_unpredicted {d : De} {r : Except Report Effect} (h : Agrees p a o d.unpredicted r) :
    Agrees p a o d r := by
  cases r <;> exact h

/-- The D/E word of an item does what the hart finds in it, in every state that has its operands. -/
private theorem agrees_hartWord {x : Item} {d : De} {pr : Pred} (hf : x.fault = false)
    (hde : d = x.de d.rs1Data d.rs2Data pr) (hpc : a.pc = d.pc)
    (h1 : d.rs1Data = a.regs.read (rs1AddrDec d.instr)) (h2 : d.rs2Data = a.regs.read (rs2AddrDec d.instr)) :
    Agrees p a o d ((hartWord d.instr).bind (exec p a o (d.pc + if d.isCompressed then 2 else 4))) := by
  have hi : d.instr = x.src.instr32 := by
    rw [hde]
    rfl
  cases hj : hartDecode d.instr with
  | some j =>
    have hm : Means x.src.instr32 j := by
      rw [← hi]
      exact means_loose hj
    have hx : d.pc = x.src.pc := by
      rw [hde]
      rfl
    have hc : d.isCompressed = x.src.isCompressed := by
      rw [hde]
      rfl
    have hun : d.unpredicted = j.de a.pc x.src.instr32 x.src.isCompressed (a.regs.read j.rs1) (a.regs.read j.rs2)
        (rdField x.src.instr32) (csrAddrDec x.src.instr32) := by
      have hu : d.unpredicted = x.de d.rs1Data d.rs2Data ⟨false, false, 0, 0⟩ := congrArg De.unpredicted hde
      rw [hu, de_of_means hf hm, h1, h2, hi, hm.rs1, hm.rs2, hpc, hx]
    rw [hartWord_some.mpr hj]
    refine Agrees.of_unpredicted ?_
    rw [hun, ← hpc, hc]
    exact agrees_exec j hm.rd hm.csr
  | none =>
    have hpres : Presents (hartWord d.instr) d := by
      rw [hi, hde]
      exact Item.presents hf _ _ _
    have hill : d.illegal = true := by
      rw [← Bool.not_eq_false]
      intro hl
      obtain ⟨j, hok⟩ := hpres.legal.mp hl
      rw [hartWord_some, hj] at hok
      cases hok
    obtain ⟨hexc, hrep⟩ := hpres.report hill
    rw [hrep]
    refine ⟨by rw [De.traps, hexc, Bool.true_or], ?_⟩
    rw [Core.syncReport, hexc]
    rfl

/-- A cycle that commits the D/E word has its effect. -/
private theorem does_of_agrees {e : Effect} (hs : s.core.Sane p) (hm : s.core.de.Made) (hr : Steady p s)
    (hc : s.core.ex.opCommits p (s.core.exIn (s.coreIn p i)) = true)
    (ha : Agrees p (archAt s) (outside s i) s.core.de (.ok e)) : Does p s i e := by
  have hcar : Carries p (archAt s) s := ⟨hs, fun _ => hm, rfl, fun _ _ => rfl, rfl⟩
  have hret := hcar.retires hr hc
  obtain ⟨-, hstate, hreg, hacc⟩ := ha
  have hev : (archAt s).commitOn p (outside s i) s.core.de = ⟨s.core.de.pc, s.core.de.instr, e.reg, e.access⟩ := by
    rw [Arch.commitOn, hreg, hacc]
  refine ⟨?_, ?_, ?_, fun b hb => ?_, ?_⟩
  · rw [Core.goesOn_commit hs hm hc]
    exact congrArg Arch.pc hstate
  · rw [hret.event, hev]
  · rw [hret.regs, hstate]
  · rw [hret.csr b hb, hstate]
    rfl
  · rw [hret.mem, hstate]
    rfl

/-- A cycle without a commit. -/
private theorem keeps_of_not_commit (hs : s.core.Sane p)
    (hc : s.core.ex.opCommits p (s.core.exIn (s.coreIn p i)) = false) :
    (s.next p i).core.rf = s.core.rf ∧ ofWords 4 (s.next p i).dmem.mem = ofWords 4 s.dmem.mem := by
  refine ⟨Core.next_rf_of_not_commit hc, ?_⟩
  rw [bytes_next hs, accessEv_of_not_commit hc]
  rfl

/-- An instruction that waits. -/
private theorem waits_of_still (hs : s.core.Sane p) (hm : s.core.de.Made) (hv : s.core.de.valid = true)
    (hc : s.core.ex.opCommits p (s.core.exIn (s.coreIn p i)) = false) (he : s.core.entry p (s.coreIn p i) = false) :
    (s.next p i).core.de = s.core.de ∧
      ∀ b, ¬Volatile b → (s.next p i).core.csr.regs.read b = s.core.csr.regs.read b := by
  refine ⟨?_, fun b hb => Core.csr_of_still he hc hb⟩
  obtain ⟨k, hk⟩ := hm.kind
  rw [Core.entry, Bool.or_eq_false_iff] at he
  rcases hs.ex.outcome (i := s.core.exIn (s.coreIn p i)) hk rfl hv with ⟨hw, -⟩ | ⟨hall, -⟩ | ⟨hq, -⟩
  · change (s.core.next p (s.coreIn p i)).de = s.core.de
    rw [Core.next_de, Core.branchValid_of_waits hw ⟨k, hk⟩, hw.stall]
    rfl
  · rw [hall.commit] at hc
    cases hc
  · rcases hq.trap with ht | ht
    · rw [he.1] at ht
      cases ht
    · rw [he.2] at ht
      cases ht

/-- Execute performs what the hart finds in the word of the D/E register. -/
private theorem performs_word (hs : s.core.Sane p) (hm : s.core.de.Made) (hr : Steady p s) (hp : f.Proper)
    (hd : f.Held s.core.de) :
    Performs p s i
      ((f.instr hart).bind (exec p (archAt s) (outside s i) (s.core.de.pc + f.bytes))) := by
  have hv : s.core.de.valid = true := Fetched.Held.valid hd
  obtain ⟨x, hx, pr, hde⟩ := Fetched.Held.item hd hp hm
  have hi : s.core.de.instr = x.src.instr32 := by
    rw [hde]
    rfl
  obtain ⟨-, h1, h2, -⟩ := hs.fresh hv
  rw [Fetched.Held.instr hd, Fetched.Held.bytes hd]
  have ha : Agrees p (archAt s) (outside s i) s.core.de ((hartWord s.core.de.instr).bind
      (exec p (archAt s) (outside s i) (s.core.de.pc + if s.core.de.isCompressed then 2 else 4))) :=
    agrees_hartWord hx hde rfl h1 h2
  revert ha
  generalize (hartWord s.core.de.instr).bind _ = r
  intro ha
  refine ⟨fun hc => ?_, fun ht => ?_, fun hc => keeps_of_not_commit hs hc, fun hc he => waits_of_still hs hm hv hc he⟩
  · cases r with
    | ok e => exact ⟨e, rfl, does_of_agrees hs hm hr hc ha⟩
    | error r =>
      have hcar : Carries p (archAt s) s := ⟨hs, fun _ => hm, rfl, fun _ _ => rfl, rfl⟩
      have htraps := (hcar.retires hr hc).traps
      rw [ha.1] at htraps
      cases htraps
  · have htraps := (Core.traps_of_sync hs ht).2
    cases r with
    | ok e =>
      rw [ha.1] at htraps
      cases htraps
    | error r => rw [Core.trapReport_sync hs ht, ha.2]

section Run

variable {boot : Word} {img : Nat → BitVec 64} {rf : RegFile} {inp : Nat → CoreIn}

private theorem performs_run (h : s.IsReset boot img rf) (hp : f.Proper) (t : Nat)
    (hd : f.Held (trace (CoreMem.next p) s inp t).core.de) :
    Performs p (trace (CoreMem.next p) s inp t) (inp t)
      ((f.instr hart).bind (exec p (archAt (trace (CoreMem.next p) s inp t))
        (outside (trace (CoreMem.next p) s inp t) (inp t))
          ((trace (CoreMem.next p) s inp t).core.de.pc + f.bytes))) := by
  have hm : (trace (CoreMem.next p) s inp t).core.de.Made := by
    have hv := Fetched.Held.valid hd
    rw [core_run] at hv ⊢
    exact Core.made_run h.core _ t hv
  exact performs_word (CoreMem.sane_run h t) hm (steady_run h t) hp hd

/-- As long as nothing happens, the instruction stays in execute. -/
private theorem de_of_quiet (h : s.IsReset boot img rf) (hp : f.Proper) {t k : Nat}
    (hd : f.Held (trace (CoreMem.next p) s inp t).core.de)
    (hq : ∀ j < k, eventEv p (trace (CoreMem.next p) s inp (t + j)) (inp (t + j)) = none) :
    (trace (CoreMem.next p) s inp (t + k)).core.de = (trace (CoreMem.next p) s inp t).core.de := by
  induction k with
  | zero => rfl
  | succ k ih =>
    have hk := ih fun j hj => hq j (by omega)
    obtain ⟨he, hc⟩ := quiet_of_event (hq k (by omega))
    rw [← hk] at hd
    exact ((performs_run h hp (t + k) hd).waits hc he).1.trans hk

private theorem ends_run (h : s.IsReset boot img rf) (hp : f.Proper) {t n : Nat}
    (hd : f.Held (trace (CoreMem.next p) s inp t).core.de)
    (hn : 40 ≤ (List.range n).countP
      (fun k => !CoreMem.blocked p (trace (CoreMem.next p) s inp (t + k)) (inp (t + k)))) :
    ∃ k < n, (trace (CoreMem.next p) s inp (t + k)).core.de = (trace (CoreMem.next p) s inp t).core.de ∧
      (eventEv p (trace (CoreMem.next p) s inp (t + k)) (inp (t + k))).isSome = true := by
  have hsome : ∃ k, k < n ∧ (eventEv p (trace (CoreMem.next p) s inp (t + k)) (inp (t + k))).isSome = true := by
    by_contra hno
    push Not at hno
    have hnil : logFrom (eventEv p) (CoreMem.next p) s inp t n = [] := by
      refine logFrom_eq_nil.mpr fun k hk => ?_
      simpa using hno k hk
    have hlt := (ranked (p := p) h inp).countP_lt t n
    rw [hnil, List.length_nil] at hlt
    omega
  -- the first of them
  classical
  obtain ⟨hlt, hev⟩ := Nat.find_spec hsome
  refine ⟨Nat.find hsome, hlt, de_of_quiet h hp hd fun j hj => ?_, hev⟩
  have hmin := Nat.find_min hsome hj
  simpa [hj.trans hlt] using hmin

end Run

/-- **The hart takes every word and every halfword for what it finds in it.** -/
theorem takes_hart (hp : f.Proper) : Takes f (f.instr hart) := by
  refine ⟨fun p q i hv hf hq => ?_, fun p boot img rf s inp h =>
    ⟨fun t => performs_run h hp t, fun t n => ends_run h hp⟩⟩
  rw [← hq]
  exact presents_deD hv hf

end Hart

/-! ### The instruction set and the hart -/

section Compare

variable {f : Fetched} {w : Word} {c : BitVec 16}

/-- The hart finds every instruction of the instruction set. -/
private theorem instr_of_standard {x : Instr} (h : f.instr standard = .ok x) : f.instr hart = .ok x := by
  cases f with
  | fault a => cases h
  | half c =>
    cases hd : decodeRvc c with
    | none =>
      simp only [Fetched.instr, standard, hd, Option.map_none] at h
      cases h
    | some k =>
      simp only [Fetched.instr, standard, hd, Option.map_some] at h
      simp only [Fetched.instr, hart, settle_of_decode hd, hd, Option.map_some]
      exact h
  | word w =>
    cases hd : decode w with
    | none =>
      simp only [Fetched.instr, standard, hd] at h
      cases h
    | some i =>
      simp only [Fetched.instr, standard, hd] at h
      simp only [Fetched.instr, hart, hartDecode, hd, Option.some_or]
      exact h

/-- What an empty stage has in front of it. -/
private theorem src_probe (w : Word) : decodedValid probe (probeIn w) = true ∧ src probe (probeIn w) =
    if feIsCompressed (probeIn w) then ⟨0, w.extractLsb' 0 16, 0, true⟩ else ⟨w, 0, 0, false⟩ := by
  have htu : targetUpper probe (probeIn w) = false := by simp [targetUpper, probeIn]
  have htc : targetSpanComplete probe (probeIn w) = false := by simp [targetSpanComplete, targetSpan, htu]
  have htw : targetSpanWait probe (probeIn w) = false := by simp [targetSpanWait, targetSpan, htu]
  constructor
  · rw [decodedValid, htw]
    rfl
  · rw [src, htc, htw, htu]
    rfl

private theorem exists_found (hp : f.Proper) : ∃ w, found (src probe (probeIn w)) = f := by
  cases f with
  | fault a => exact hp.elim
  | half c =>
    have hlow : (c.setWidth 32).extractLsb' 0 16 = c := by
      refine BitVec.eq_of_getLsbD_eq fun i hi => ?_
      have h32 : i < 32 := by omega
      simp [hi, h32]
    have hc : feIsCompressed (probeIn (c.setWidth 32)) = true := by
      have hq : (c.setWidth 32).extractLsb' 0 2 = c.extractLsb' 0 2 := by
        refine BitVec.eq_of_getLsbD_eq fun i hi => ?_
        have h32 : i < 32 := by omega
        simp [hi, h32]
      change ((c.setWidth 32).extractLsb' 0 2 != 0b11#2) = true
      rw [hq, bne_iff_ne]
      exact hp
    refine ⟨c.setWidth 32, ?_⟩
    rw [(src_probe _).2, hc, if_pos rfl, hlow]
    rfl
  | word w =>
    have hc : feIsCompressed (probeIn w) = false := by
      change (w.extractLsb' 0 2 != 0b11#2) = false
      rw [bne_eq_false_iff_eq]
      exact hp
    refine ⟨w, ?_⟩
    rw [(src_probe _).2, hc]
    rfl

/-- The hart takes `f` for what the instruction set finds in it exactly if it finds the same. -/
theorem takes_iff (hp : f.Proper) : Takes f (f.instr standard) ↔ f.instr standard = f.instr hart := by
  constructor
  · intro h
    cases hs : f.instr standard with
    | ok x => exact (instr_of_standard hs).symm
    | error r =>
      obtain ⟨w, hw⟩ := exists_found hp
      have hstd := h.decode .pkg probe (probeIn w) (src_probe w).1 rfl hw
      have hhart := (takes_hart hp).decode .pkg probe (probeIn w) (src_probe w).1 rfl hw
      have hill : (deD .pkg probe (probeIn w)).illegal = true := by
        rw [← Bool.not_eq_false]
        intro hl
        obtain ⟨x, hx⟩ := hstd.legal.mp hl
        rw [hs] at hx
        cases hx
      rw [← hs, (hstd.report hill).2, (hhart.report hill).2]
  · intro h
    rw [h]
    exact takes_hart hp

private theorem instr_word_iff :
    (Fetched.word w).instr standard = (Fetched.word w).instr hart ↔ hartDecode w = decode w := by
  simp only [Fetched.instr, standard, hart]
  cases decode w <;> cases hartDecode w <;> simp [eq_comm]

private theorem instr_half_iff :
    (Fetched.half c).instr standard = (Fetched.half c).instr hart ↔ decodeRvc (settle c) = decodeRvc c := by
  simp only [Fetched.instr, standard, hart]
  cases hd : decodeRvc c with
  | some k => simp only [settle_of_decode hd, hd]
  | none => cases decodeRvc (settle c) <;> simp

/-- **The halfwords.**  The hart takes a halfword that is no hint for what the instruction set finds in it, unless it
is loose. -/
theorem takes_half_iff (hc : c.extractLsb' 0 2 ≠ 0b11#2) :
    (¬Hint c → Takes (.half c) ((Fetched.half c).instr standard)) ↔ ¬LooseHalf c := by
  rw [takes_iff (f := .half c) hc, instr_half_iff, decodeRvc_settle_iff]
  exact ⟨fun h hl => h (not_hint_of_loose hl) hl, fun h _ => h⟩

/-- The theorem at `c.srli x8, 1`, and at `c.lwsp x0, 0`, which is reserved. -/
theorem takes_half_srli : Takes (.half 0x8005#16) (.ok (.shiftImm .srli 8 8 1)) ∧
    Takes (.half 0x4002#16) (.error (mcauseIllegal, 0)) :=
  ⟨(takes_half_iff (c := 0x8005#16) (by decide)).mpr (by decide) (by decide),
    (takes_half_iff (c := 0x4002#16) (by decide)).mpr (by decide) (by decide)⟩

/-- The halfword of `c.jr` with `x0` is a breakpoint, and a `c.srli` by 33 shifts by one. -/
theorem reserved_halves_execute : ¬(∀ c : BitVec 16, c.extractLsb' 0 2 ≠ 0b11#2 → ¬Hint c →
      Takes (.half c) ((Fetched.half c).instr standard)) ∧
    (Fetched.half 0x8002#16).instr standard = .error (mcauseIllegal, 0) ∧
    (Fetched.half 0x9005#16).instr standard = .error (mcauseIllegal, 0) ∧
    eventEv .pkg (trace (CoreMem.next .pkg) (CoreMem.reset 0 (imgOf [0x0000001300008002#64])
      ⟨fun _ => 0⟩ fun _ => 0) (fun _ => .quiet) 3) .quiet = some (.trap 0 mcauseBreakpoint 0) ∧
    eventEv .pkg (trace (CoreMem.next .pkg) (CoreMem.reset 0 (imgOf [0x0000001390054415#64])
      ⟨fun _ => 0⟩ fun _ => 0) (fun _ => .quiet) 4) .quiet =
        some (.commit ⟨2, 0x00145413#32, some (8, 2), none⟩) := by
  refine ⟨fun h => ?_, by decide, by decide, by decide +kernel, by decide +kernel⟩
  have hlow : (0x8002#16).extractLsb' 0 2 ≠ 0b11#2 := by decide
  have htakes := (takes_iff (f := .half 0x8002#16) hlow).mp (h _ hlow (by decide))
  exact absurd (instr_half_iff.mp htakes) (by decide)

end Compare

end Yarv.Isa
