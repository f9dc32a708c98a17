import Yarv.CsrFacts

/-!
# The retire counter

`minstret` counts `ex_valid_q`, the commit of the cycle before, and its read is registered one cycle ahead of the
reading instruction.  `instret` is the count as the architecture has it: a commit counts in its own cycle, and a write
to `minstret` takes the place of the count of its own instruction.
-/

namespace Yarv.Core

open Clocked ExecuteStage

variable {p : Params} {s : Core} {i : CoreIn} {img : Nat → BitVec 64} {boot : Word} {rf : RegFile}
  {inp : Nat → CoreIn}

/-- The instruction in execute writes `minstret` in this cycle. -/
def writesInstret (p : Params) (s : Core) (i : CoreIn) : Bool := CsrRegfile.wr (s.csrIn p i) csrAddrMinstret

/-- The instructions committed before cycle `t`: since the start, or since the last write and from its value on. -/
def instret (p : Params) (s : Core) (inp : Nat → CoreIn) (t : Nat) : Word :=
  companion
    (fun n s i => if writesInstret p s i then csrWdata (s.exIn i)
    else if s.ex.opCommits p (s.exIn i) then n + 1 else n)
    (next p) s.csr.regs.minstret s inp t

/-- An instruction has written `minstret` before cycle `t`. -/
def instretWritten (p : Params) (s : Core) (inp : Nat → CoreIn) (t : Nat) : Bool :=
  companion (fun b s i => b || writesInstret p s i) (next p) false s inp t

private theorem next_minstret :
    (s.next p i).csr.regs.minstret =
      if writesInstret p s i then csrWdata (s.exIn i)
      else s.csr.regs.minstret + (BitVec.ofBool s.ex.exValidQ).setWidth 32 := by
  change (if CsrRegfile.wr (s.csrIn p i) csrAddrMinstret then csrWdata (s.exIn i)
    else if s.ex.exValidQ then s.csr.regs.minstret + 1 else s.csr.regs.minstret) = _
  unfold writesInstret
  cases s.ex.exValidQ with
  | true => rfl
  | false =>
    have hz : s.csr.regs.minstret + (BitVec.ofBool false).setWidth 32 = s.csr.regs.minstret := BitVec.add_zero _
    rw [hz]
    rfl

/-- The counter and the commit under way make up the count, and one more once `minstret` has been written. -/
private theorem instret_balance (h : s.IsReset boot img rf) (t : Nat) :
    (trace (next p) s inp t).csr.regs.minstret + (BitVec.ofBool (trace (next p) s inp t).ex.exValidQ).setWidth 32 =
      instret p s inp t + (BitVec.ofBool (instretWritten p s inp t)).setWidth 32 := by
  induction t with
  | zero =>
    have hv : s.ex.exValidQ = false := by
      rw [h.ex]
      rfl
    change s.csr.regs.minstret + (BitVec.ofBool s.ex.exValidQ).setWidth 32 = s.csr.regs.minstret + _
    rw [hv]
    rfl
  | succ t ih =>
    have hv : (trace (next p) s inp (t + 1)).ex.exValidQ =
        (trace (next p) s inp t).ex.opCommits p ((trace (next p) s inp t).exIn (inp t)) := rfl
    have hn : instret p s inp (t + 1) =
        if writesInstret p (trace (next p) s inp t) (inp t) then csrWdata ((trace (next p) s inp t).exIn (inp t))
        else if (trace (next p) s inp t).ex.opCommits p ((trace (next p) s inp t).exIn (inp t)) then
          instret p s inp t + 1
        else instret p s inp t := rfl
    have hb : instretWritten p s inp (t + 1) =
        (instretWritten p s inp t || writesInstret p (trace (next p) s inp t) (inp t)) := rfl
    rw [hv, hn, hb, trace_succ, next_minstret]
    cases hw : writesInstret p (trace (next p) s inp t) (inp t) with
    | true =>
      -- the write takes the place of every earlier count, the commit of its own instruction comes on top
      have hc : (trace (next p) s inp t).ex.opCommits p ((trace (next p) s inp t).exIn (inp t)) = true := by
        unfold writesInstret CsrRegfile.wr at hw
        rw [Bool.and_eq_true] at hw
        exact opCommits_of_csrWren hw.1
      rw [hc, Bool.or_true]
      rfl
    | false =>
      rw [Bool.or_false, if_neg Bool.false_ne_true, if_neg Bool.false_ne_true, ih]
      cases (trace (next p) s inp t).ex.opCommits p ((trace (next p) s inp t).exIn (inp t)) with
      | true =>
        rw [if_pos rfl, BitVec.add_assoc, BitVec.add_assoc, BitVec.add_comm (1 : Word)]
        rfl
      | false =>
        rw [if_neg Bool.false_ne_true]
        exact BitVec.add_zero _

/-- What a CSR instruction on `minstret` does when the count in front of it is `n`. -/
structure InstretExact (p : Params) (s : Core) (i : CoreIn) (n : Word) : Prop where
  /-- It reads the count, -/
  read : s.csr.csrRdataQ = n
  rd : (s.next p i).rf = s.rf.next true (rdField s.de.instr) n
  /-- and what it writes is the function of the count. -/
  write : ∀ v, (csrOpOf (funct3 s.de.instr)).written n (csrSource s.rf s.de.instr) = some v →
    (s.next p i).csr.regs.minstret = v

/-- A CSR instruction that has read the count is exact. -/
private theorem instretExact_of_read (h : s.Sane p) (hw : s.ex.exStateQ = .csrWait) (hd : CsrWord s.de)
    (ha : funct12 s.de.instr = csrAddrMinstret) {n : Word} (hr : s.csr.csrRdataQ = n) : InstretExact p s i n := by
  obtain ⟨hv, hcsr, hent, hmret, hcom, hval⟩ := csr_commits (i := i) h hw
  refine ⟨hr, ?_, ?_⟩
  · rw [next_rf_of_csr h hw hd, hr]
  · intro v hwritten
    have hport := csrPort_eq (p := p) (q := s.ex) (x := s.exIn i) hval
    have hop : (s.exIn i).de.csrOp = csrOpOf (funct3 s.de.instr) := hd.op
    have hrd : (s.exIn i).csrRdata = n := hr
    rw [hop, hrd, csrSrc_eq hd (h.fresh hv), hwritten] at hport
    cases hwr : s.ex.csrWren p (s.exIn i) with
    | false =>
      rw [hwr] at hport
      cases hport
    | true =>
      rw [hwr, if_pos rfl] at hport
      have hsel : writesInstret p s i = true := by
        have hen : (s.csrIn p i).csrWren = true := hwr
        have hadr : (s.csrIn p i).csrAddr = csrAddrMinstret := hd.addr.trans ha
        unfold writesInstret CsrRegfile.wr
        rw [hen, hadr]
        rfl
      rw [next_minstret, hsel, if_pos rfl]
      exact (Option.some.inj hport).symm

private theorem ofBool_cancel {x y : Word} {b c : Bool}
    (h : x + (BitVec.ofBool b).setWidth 32 = y + (BitVec.ofBool c).setWidth 32) : x = y ↔ b = c := by
  have hbit : ∀ b c : Bool, (BitVec.ofBool b).setWidth 32 = (BitVec.ofBool c).setWidth 32 → b = c := by decide
  constructor
  · intro hxy
    rw [hxy] at h
    exact hbit b c ((BitVec.add_right_inj _).mp h)
  · intro hbc
    rw [hbc] at h
    exact (BitVec.add_left_inj _).mp h

/-- A CSR instruction on `minstret` is exact if and only if the cycle in front of its read committed an instruction
just in case `minstret` had been written. -/
theorem instret_exact_iff (inp : Nat → CoreIn) (h : s.IsReset boot img rf) (u : Nat)
    (hc : (trace (next p) s inp (u + 1)).ex.opCommits p ((trace (next p) s inp (u + 1)).exIn (inp (u + 1))) = true)
    (hw : (trace (next p) s inp (u + 1)).de.csrWren = true)
    (ha : funct12 (trace (next p) s inp (u + 1)).de.instr = csrAddrMinstret) :
    InstretExact p (trace (next p) s inp (u + 1)) (inp (u + 1)) (instret p s inp (u + 1)) ↔
      (trace (next p) s inp u).ex.exValidQ = instretWritten p s inp u := by
  have hsane := sane_run (p := p) h inp (u + 1)
  have hwait := wait_of_commit hsane hc hw
  have hword := csrWord_run h (u + 1) hw
  have hst : CsrStarts p (trace (next p) s inp u) (inp u) :=
    csr_starts (sane_run h inp u) (csrStart_of_wait hwait)
  have hread : (trace (next p) s inp (u + 1)).csr.csrRdataQ = (trace (next p) s inp u).csr.regs.minstret := by
    have hde : (trace (next p) s inp (u + 1)).de = (trace (next p) s inp u).de := hst.de
    have hadr : (trace (next p) s inp u).de.csrAddr = csrAddrMinstret := by rw [← hde, hword.addr, ha]
    rw [trace_succ, hst.rdata, hadr]
    rfl
  have hcount : instret p s inp (u + 1) = instret p s inp u := by
    have hnw : writesInstret p (trace (next p) s inp u) (inp u) = false := by
      rw [Bool.eq_false_iff]
      intro hwr
      unfold writesInstret CsrRegfile.wr at hwr
      rw [Bool.and_eq_true] at hwr
      have := opCommits_of_csrWren hwr.1
      rw [hst.commit] at this
      cases this
    change (if writesInstret p (trace (next p) s inp u) (inp u) then _
      else if (trace (next p) s inp u).ex.opCommits p ((trace (next p) s inp u).exIn (inp u)) then _ else _) = _
    rw [hnw, hst.commit]
    rfl
  rw [← ofBool_cancel (instret_balance h u), hcount]
  constructor
  · intro hx
    rw [← hread]
    exact hx.read
  · intro heq
    exact instretExact_of_read hsane hwait hword ha (hread.trans heq)

theorem instret_exact_iff_first :
    InstretExact .pkg (trace (next .pkg) (reset 0 (imgOf [0x00000013B02020F3#64]) ⟨fun _ => 0⟩) (fun _ => .quiet) 4)
      .quiet
        (instret .pkg (reset 0 (imgOf [0x00000013B02020F3#64]) ⟨fun _ => 0⟩) (fun _ => .quiet) 4) ↔
      (trace (next .pkg) (reset 0 (imgOf [0x00000013B02020F3#64]) ⟨fun _ => 0⟩) (fun _ => .quiet) 3).ex.exValidQ =
        instretWritten .pkg (reset 0 (imgOf [0x00000013B02020F3#64]) ⟨fun _ => 0⟩) (fun _ => .quiet) 3 :=
  instret_exact_iff (p := .pkg) (fun _ => .quiet) (reset_isReset 0 (imgOf [0x00000013B02020F3#64]) ⟨fun _ => 0⟩) 3
    (by decide +kernel) (by decide +kernel) (by decide +kernel)

/-- `nop; csrrsi x1, minstret, 2`: the `nop` has committed, the read gives 0 and the write-back makes 2 of the
count. -/
theorem instret_lost :
    let run := trace (next .pkg) (reset 0 (imgOf [0xB02160F300000013#64]) ⟨fun _ => 0⟩) (fun _ => .quiet)
    (run 3).ex.opCommits .pkg ((run 3).exIn .quiet) = true ∧ (run 5).ex.opCommits .pkg ((run 5).exIn .quiet) = true ∧
      funct12 (run 5).de.instr = csrAddrMinstret ∧
      instret .pkg (reset 0 (imgOf [0xB02160F300000013#64]) ⟨fun _ => 0⟩) (fun _ => .quiet) 5 = 1 ∧
      (run 6).rf.read 1 = 0 ∧ (run 6).csr.regs.minstret = 2 := by
  decide +kernel

end Yarv.Core
