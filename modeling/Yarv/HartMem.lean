import Yarv.Hart
import Yarv.Refinement

/-!
# The hart and its memories

The hart with the D-mem on its native port: fetch, decode, execute, the register file, the CSR file, the trap unit,
the predictor and the two memories.  Its core and its D-mem run as those of `CoreMem` under the answers of the
predictor (`view_run`), so what it commits is what the interpreter commits (`isa_refinement`).
-/

namespace Yarv

open Clocked ExecuteStage ByteMem

/-- The flops of the hart and the D-mem. -/
structure HartMem where
  hart : Hart
  dmem : NativeRam 32

namespace HartMem

variable (p : Params) (s : HartMem) (i : HartIn)

/-- The core and the D-mem. -/
def view : CoreMem := ⟨s.hart.core, s.dmem⟩

/-- The answer of the D-mem; the request it answers takes nothing from the other inputs of the cycle. -/
def dmemRsp : MemRsp := s.view.dmemRsp p (Hart.coreInWith i ⟨false, false, 0, 0⟩ Hart.noPush)

/-- The inputs of the hart; its own `memRsp` is not used. -/
def hartIn : HartIn := { i with memRsp := s.dmemRsp p i }

/-- The inputs of the core. -/
def coreIn : CoreIn := s.hart.coreIn p (s.hartIn p i)

/-- One clock edge. -/
def next : HartMem where
  hart := s.hart.next p (s.hartIn p i)
  dmem := NativeRam.next (dmemParams p) s.dmem (s.view.dmemIn p (Hart.coreInWith i ⟨false, false, 0, 0⟩ Hart.noPush))

/-- The commit of a cycle. -/
def retireEv (p : Params) (s : HartMem) (i : HartIn) : Option Retired := CoreMem.retireEv p s.view (s.coreIn p i)

/-- The state behind a reset; the predictor, the register file and the words of the D-mem are arbitrary. -/
structure IsReset (boot : Word) (img : Nat → BitVec 64) (rf : RegFile) (s : HartMem) : Prop where
  core : s.hart.core.IsReset boot img rf
  dmem : NativeRam.IsReset s.dmem

/-- The reset state whose other flops are zero. -/
def reset (boot : Word) (img : Nat → BitVec 64) (rf : RegFile) (mem : Nat → Word) : HartMem where
  hart := Hart.reset boot img rf
  dmem := { mem := mem, rifQ := false, rdDQ := 0, countQ := 0, skidQ := fun _ => 0 }

theorem reset_isReset (boot : Word) (img : Nat → BitVec 64) (rf : RegFile) (mem : Nat → Word) :
    (reset boot img rf mem).IsReset boot img rf :=
  ⟨Core.reset_isReset boot img rf, rfl, rfl, rfl⟩

variable {p s i}

theorem view_next : (s.next p i).view = s.view.next p (s.coreIn p i) := rfl

variable {inp : Nat → HartIn}

/-- The core and the D-mem of a run. -/
private theorem view_run (t : Nat) : (trace (next p) s inp t).view =
    trace (CoreMem.next p) s.view (fun u => (trace (next p) s inp u).coreIn p (inp u)) t := by
  induction t with
  | zero => rfl
  | succ t ih => rw [trace_succ, trace_succ, view_next, ih]

private theorem retire_log (t : Nat) : logFrom (retireEv p) (next p) s inp 0 t =
    logFrom (CoreMem.retireEv p) (CoreMem.next p) s.view
      (fun u => (trace (next p) s inp u).coreIn p (inp u)) 0 t := by
  induction t with
  | zero => rfl
  | succ t ih =>
    rw [logFrom_succ, logFrom_succ, ih, Nat.zero_add, ← view_run]
    rfl

variable {boot : Word} {img : Nat → BitVec 64} {rf : RegFile} {a : Arch}

/-- **ISA refinement.**  In every run of the hart and its memories, with silent interrupt lines, the committed
instructions are the first ones the interpreter commits, as long as no instruction of the interpreter spans the end of
the I-mem and no `mret` finds an odd `mepc`. -/
theorem isa_refinement (inp : Nat → HartIn) (h : s.IsReset boot img rf) (hb : boot.getLsbD 0 = false)
    (hi : ∀ t, (inp t).msip = false ∧ (inp t).mtip = false ∧ (inp t).meip = false)
    (ha : a = Arch.reset boot rf (ofWords 4 s.dmem.mem)) (t : Nat)
    (hs : ∀ k < t, (a.run p img k).InScope p img ∧ (a.run p img k).Sound p img) :
    ∃ k ≤ t, logFrom (retireEv p) (next p) s inp 0 t = a.commits p img k := by
  have hreset : s.view.IsReset boot img rf := ⟨h.core, h.dmem⟩
  have hsilent : ∀ u, ((trace (next p) s inp u).coreIn p (inp u)).Silent := by
    intro u
    obtain ⟨h1, h2, h3⟩ := hi u
    exact ⟨h1, h2, h3⟩
  obtain ⟨k, hk, -, hlog⟩ := CoreMem.retire_run (p := p) hreset hb hsilent ha t hs
  exact ⟨k, hk, (retire_log t).trans hlog⟩

/-- A store, a load, CSR accesses and a trap into address 0. -/
def refinementProgram : Nat → BitVec 64 :=
  imgOf [0x0010202300500093#64, 0x023141B300002103#64, 0x341022F334119073#64, 0x0000006F00000073#64]

/-- The theorem on that program. -/
theorem isa_refinement_trap : ∃ k ≤ 40,
    logFrom (retireEv .pkg) (next .pkg) (reset 0 refinementProgram ⟨fun _ => 0⟩ fun _ => 0) (fun _ => .quiet) 0 40 =
      (Arch.reset 0 ⟨fun _ => 0⟩ (ofWords 4 fun _ => 0#32)).commits .pkg refinementProgram k :=
  isa_refinement (p := .pkg) (fun _ => .quiet) (reset_isReset 0 refinementProgram ⟨fun _ => 0⟩ fun _ => 0) (by decide)
    (fun _ => ⟨rfl, rfl, rfl⟩) rfl 40 (by decide +kernel)

/-- `csrrwi mepc, 17`, `mret` and a jump to itself at 20. -/
def oddReturnProgram : Nat → BitVec 64 := imgOf [0x302000733418D073#64, 0x0000001300000013#64, 0x0000006F00000013#64]

/-- Behind the no-operation at 17 the hart commits the jump at 20 and the interpreter the one at 21. -/
theorem isa_refinement_odd_mepc :
    (∀ k < 12, ((Arch.reset 0 ⟨fun _ => 0⟩ (ofWords 4 fun _ => 0#32)).run .pkg oddReturnProgram k).InScope .pkg
        oddReturnProgram ∧
      FetchStage.outOfImem .pkg
        ((Arch.reset 0 ⟨fun _ => 0⟩ (ofWords 4 fun _ => 0#32)).run .pkg oddReturnProgram k).pc = false) ∧
    ¬∃ k ≤ 12,
      logFrom (retireEv .pkg) (next .pkg) (reset 0 oddReturnProgram ⟨fun _ => 0⟩ fun _ => 0) (fun _ => .quiet) 0 12 =
        (Arch.reset 0 ⟨fun _ => 0⟩ (ofWords 4 fun _ => 0#32)).commits .pkg oddReturnProgram k := by
  decide +kernel

end HartMem

end Yarv
