import Yarv.Cpu
import Yarv.ExecuteFacts
import Yarv.Lib.Clocked

/-!
# Commit and the register file

One cycle of the core as execute sees it: `Core.Sane` says that the D/E word was assembled by decode, that its
operands are those of the register file, and that the flops of execute belong to it.  It holds in every reachable
state (`Core.Sane.next`), whatever the program, the predictor, the data ports and the interrupt lines do.

`commitEv` is the commit of a cycle, `archRegs` the register file a list of commits leaves behind.  The operands in
the D/E register are those of `archRegs` after everything older (`operands_fresh`).
-/

namespace Yarv

open Clocked ExecuteStage DecodeStage

namespace Core

variable {p : Params} {s : Core} {i : CoreIn}

@[simp] theorem exIn_de : (s.exIn i).de = s.de := rfl

@[simp] theorem exIn_stall : (s.exIn i).stall = false := rfl

theorem next_rf : (s.next p i).rf =
    s.rf.next (s.ex.wbEn p (s.exIn i)) (wbAddr (s.exIn i)) (s.ex.wbData p (s.exIn i)) := rfl

theorem next_de : (s.next p i).de =
    if s.ex.branchValid p (s.exIn i) then De.zero
    else if s.ex.stallO p (s.exIn i) then s.de
    else deD p s.fe.decode (s.fe.decodeIn (s.feIn p i)) := rfl

/-! ### Invariant of the back end -/

/-- The D/E word is decoded from some source, with the operands the register file holds now. -/
structure Fresh (rf : RegFile) (d : De) : Prop where
  kind : ∃ k, d.HasKind k
  rs1 : d.rs1Data = rf.read (rs1AddrDec d.instr)
  rs2 : d.rs2Data = rf.read (rs2AddrDec d.instr)
  reg : d.rs1Addr = rs1AddrDec d.instr

/-- The back end is consistent. -/
structure Sane (p : Params) (s : Core) : Prop where
  ex : ExAt p s.de s.ex
  fresh : s.de.valid = true → Fresh s.rf s.de

/-- A halted core has nothing under way. -/
theorem Sane.idle_of_halt {s : Core} (h : s.Sane p) (hh : s.ex.wfiHaltQ = true) : s.ex.exStateQ = .idle := by
  cases h.ex with
  | idle state => exact state
  | divBusy _ _ _ halt => simp [hh] at halt
  | csrWait _ _ _ halt => simp [hh] at halt
  | memLaunch _ _ _ halt => simp [hh] at halt
  | memTrap _ _ _ halt => simp [hh] at halt
  | memWait _ _ _ halt => simp [hh] at halt

/-- A read behind a write. -/
theorem read_next (f : RegFile) (en : Bool) (addr : BitVec 5) (data : Word) (a : BitVec 5) :
    (f.next en addr data).read a = if en && addr != 0 && a == addr then data else f.read a := by
  unfold RegFile.next
  cases hw : en && addr != 0 with
  | false => rfl
  | true =>
    have hne : addr ≠ 0 := by
      rw [Bool.and_eq_true, bne_iff_ne] at hw
      exact hw.2
    rw [if_pos rfl, Bool.true_and]
    unfold RegFile.read
    by_cases ha : a = addr
    · subst ha
      rw [if_neg hne, beq_self_eq_true, if_pos rfl]
      exact Function.update_self ..
    · simp [ha]

/-- The forwarded read sees the write of this cycle. -/
private theorem fwd_eq (a : BitVec 5) :
    fwd (s.fe.decodeIn (s.feIn p i)) a = (s.next p i).rf.read a := by
  rw [next_rf, read_next]
  rfl

/-- The register file is written by a commit only. -/
theorem next_rf_of_not_commit (h : s.ex.opCommits p (s.exIn i) = false) : (s.next p i).rf = s.rf := by
  have hw : s.ex.wbEn p (s.exIn i) = false := by
    cases hw : s.ex.wbEn p (s.exIn i) with
    | false => rfl
    | true => rw [opCommits_of_wbEn hw] at h; exact absurd h (by decide)
  rw [next_rf, hw]
  rfl

/-- The word decode assembles carries the operands of the register file behind the clock edge. -/
private theorem fresh_deD (h : decodedValid s.fe.decode (s.fe.decodeIn (s.feIn p i)) = true) :
    Fresh (s.next p i).rf (deD p s.fe.decode (s.fe.decodeIn (s.feIn p i))) :=
  ⟨(made_deD h).kind, fwd_eq _, fwd_eq _, rfl⟩

theorem branchValid_of_trap (h : trapRedirectReq p s.ex (s.exIn i) = true) :
    s.ex.branchValid p (s.exIn i) = true := by
  rw [branchValid, h, Bool.or_true]

/-- A cycle that waits redirects nothing. -/
theorem branchValid_of_waits (h : Waits p s.ex (s.exIn i)) (hk : ∃ k, s.de.HasKind k) :
    s.ex.branchValid p (s.exIn i) = false := by
  obtain ⟨k, hk⟩ := hk
  cases hc : s.ex.cfResolving p (s.exIn i) with
  | true =>
    have := (opCommits_of_cfResolving (i := s.exIn i) hk hc).1
    rw [h.commit] at this
    exact absurd this (by decide)
  | false => simp [branchValid, mispredict, hc, h.trap]

/-- Decode and execute keep the back end consistent. -/
theorem Sane.next (h : s.Sane p) (i : CoreIn) : (s.next p i).Sane p := by
  cases hv : s.de.valid with
  | false =>
    obtain ⟨hc, hsync, hmret, hint, hst, hrest⟩ := h.ex.bubble (i := s.exIn i) rfl hv
    refine ⟨hrest.exAt _, ?_⟩
    rw [next_de]
    split_ifs with hb hs
    · exact fun hz => absurd hz (by decide)
    · exact fun hz => absurd hz (by rw [hv]; decide)
    · exact fresh_deD
  | true =>
    obtain ⟨k, hk⟩ := (h.fresh hv).kind
    rcases h.ex.outcome (i := s.exIn i) hk rfl hv with ⟨hw, hex⟩ | ⟨hc, hrest⟩ | ⟨hq, hrest⟩
    · have hde : (s.next p i).de = s.de := by
        rw [next_de, branchValid_of_waits hw ⟨k, hk⟩, hw.stall]
        rfl
      refine ⟨by rw [hde]; exact hex, fun _ => ?_⟩
      rw [hde, next_rf_of_not_commit hw.commit]
      exact h.fresh hv
    · refine ⟨hrest.exAt _, ?_⟩
      rw [next_de, hc.stall, if_neg (c := false = true) (by decide)]
      split_ifs with hb
      · exact fun hz => absurd hz (by decide)
      · exact fresh_deD
    · refine ⟨hrest.exAt _, ?_⟩
      have hb : s.ex.branchValid p (s.exIn i) = true :=
        branchValid_of_trap (by rcases hq.trap with ht | ht <;> simp [trapRedirectReq, ht])
      rw [next_de, hb, if_pos rfl]
      exact fun hz => absurd hz (by decide)

theorem IsReset.sane {boot : Word} {img : Nat → BitVec 64} {rf : RegFile} (h : s.IsReset boot img rf) :
    s.Sane p := by
  refine ⟨.idle (by rw [h.ex]; rfl) (by rw [h.ex]; rfl), fun hv => ?_⟩
  have hde : s.de = De.zero := h.fe.decode.de
  rw [hde] at hv
  exact absurd hv (by decide)

/-- Every reachable state is consistent. -/
theorem sane_run {boot : Word} {img : Nat → BitVec 64} {rf : RegFile} (h : s.IsReset boot img rf)
    (inp : Nat → CoreIn) (t : Nat) : (trace (next p) s inp t).Sane p :=
  trace_invariant h.sane (fun _ i hs => hs.next i) t

/-- Every instruction in the D/E register was assembled by decode. -/
theorem made_run {boot : Word} {img : Nat → BitVec 64} {rf : RegFile} (h : s.IsReset boot img rf)
    (inp : Nat → CoreIn) (t : Nat) (hv : (trace (next p) s inp t).de.valid = true) :
    (trace (next p) s inp t).de.Made := by
  induction t with
  | zero =>
    have hde : s.de = De.zero := h.fe.decode.de
    rw [trace_zero, hde] at hv
    cases hv
  | succ t ih =>
    rw [trace_succ, next_de] at hv ⊢
    split_ifs at hv ⊢
    · cases hv
    · exact ih hv
    · exact made_deD hv

/-! ### Commits -/

/-- A committed instruction: its D/E word and the value it writes back. -/
structure Commit where
  de : De
  wbData : Word

/-- The commit of a cycle. -/
def commitEv (p : Params) (s : Core) (i : CoreIn) : Option Commit :=
  if s.ex.opCommits p (s.exIn i) then some ⟨s.de, s.ex.wbData p (s.exIn i)⟩ else none

/-- The register file behind a commit. -/
def Commit.write (f : RegFile) (c : Commit) : RegFile := f.next c.de.regWrite c.de.rd c.wbData

/-- The register file behind a list of commits, oldest first. -/
def archRegs (f : RegFile) (l : List Commit) : RegFile := l.foldl Commit.write f

/-- A commit writes its register, in its cycle. -/
theorem wbEn_of_commit (hk : ∃ k, s.de.HasKind k) (h : s.ex.opCommits p (s.exIn i) = true) :
    s.ex.wbEn p (s.exIn i) = s.de.regWrite := by
  obtain ⟨k, hk⟩ := hk
  simp only [opCommits, Bool.or_eq_true] at h
  rcases h with h | h
  · -- `mret` has no destination.
    simp only [mretReq, Bool.and_eq_true] at h
    have hm : k = .mret := by
      have := h.2
      rw [isMretOp_kind (i := s.exIn i) hk] at this
      simpa using this
    have hw : s.de.regWrite = false := by
      cases hw : s.de.regWrite with
      | false => rfl
      | true => exact absurd hm (hk.regWrite hw).2.1
    simp [wbEn, hw]
  · simp only [Bool.and_eq_true, Bool.not_eq_true'] at h
    simp [wbEn, h.1.1.2, h.1.2, h.2, show s.de.valid = true from h.1.1.1]

/-- The register file follows the commits. -/
private theorem next_rf_eq (h : s.Sane p) (i : CoreIn) :
    (s.next p i).rf = archRegs s.rf (commitEv p s i).toList := by
  cases hc : s.ex.opCommits p (s.exIn i) with
  | false =>
    rw [next_rf_of_not_commit hc, commitEv, hc]
    rfl
  | true =>
    have hv : s.de.valid = true := by
      cases hv : s.de.valid with
      | true => rfl
      | false => rw [(h.ex.bubble (i := s.exIn i) rfl hv).1] at hc; exact absurd hc (by decide)
    rw [next_rf, wbEn_of_commit (h.fresh hv).kind hc, commitEv, hc]
    rfl

/-- The register file of a run is the one its commits leave behind. -/
private theorem rf_run {boot : Word} {img : Nat → BitVec 64} {rf : RegFile} (h : s.IsReset boot img rf)
    (inp : Nat → CoreIn) (t : Nat) : (trace (next p) s inp t).rf =
    archRegs rf (logFrom (commitEv p) (next p) s inp 0 t) := by
  induction t with
  | zero => exact h.rf
  | succ t ih =>
    rw [trace_succ, next_rf_eq (sane_run h inp t), logFrom_succ, archRegs, archRegs, List.foldl_append, Nat.zero_add,
      ih, archRegs]

/-! ### Operand freshness -/

/-- In every reachable state the operands in the D/E register are the values the committed instructions, all the older
ones, have left in the source registers; a source that is `x0` or is not read holds zero. -/
theorem operands_fresh {boot : Word} {img : Nat → BitVec 64} {rf : RegFile} (inp : Nat → CoreIn)
    (h : s.IsReset boot img rf) (t : Nat) (hv : (trace (next p) s inp t).de.valid = true) :
    let d := (trace (next p) s inp t).de
    let regs := archRegs rf (logFrom (commitEv p) (next p) s inp 0 t)
    d.rs1Data = (if (opcodeTree d.instr).usesRs1 then regs.read (rs1Field d.instr) else 0) ∧
      d.rs2Data = (if (opcodeTree d.instr).usesRs2 then regs.read (rs2Field d.instr) else 0) := by
  obtain ⟨-, h1, h2, -⟩ := (sane_run (p := p) h inp t).fresh hv
  rw [rf_run h inp t] at h1 h2
  constructor
  · rw [h1, rs1AddrDec]
    split
    · rfl
    · rfl
  · rw [h2, rs2AddrDec]
    split
    · rfl
    · rfl

/-- The theorem at the word behind a load of 5 into `x1`: `addi x2, x1, 0` holds the 5. -/
theorem operands_fresh_addi :
    (trace (next .pkg) (reset 0 (imgOf [0x0000811300500093#64]) ⟨fun _ => 0⟩) (fun _ => .quiet) 4).de.rs1Data = 5 :=
  (operands_fresh (p := .pkg) (fun _ => .quiet) (reset_isReset 0 (imgOf [0x0000811300500093#64]) ⟨fun _ => 0⟩) 4
    (by decide +kernel)).1.trans (by decide +kernel)

end Core

end Yarv
