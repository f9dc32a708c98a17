import Yarv.Cpu
import Yarv.RamFacts

/-!
# The core and its D-mem

The core with the D-mem on its native port: 32 bits, byte strobes, one response outstanding.  What the core asks for
does not depend on the answer of the cycle (`dmemReq_eq`).
-/

namespace Yarv

open Clocked ExecuteStage

/-- The flops of the core and the D-mem. -/
structure CoreMem where
  core : Core
  dmem : NativeRam 32

/-- The parameters of the D-mem instance. -/
abbrev dmemParams (p : Params) : RamParams := ⟨p.dmemAddrW, 32, false, 1⟩

namespace CoreMem

variable (p : Params) (s : CoreMem) (i : CoreIn)

/-- No answer. -/
def noRsp : MemRsp := ⟨false, false, 0, false⟩

/-- The request the D-mem sees. -/
def dmemIn : RamReq 32 :=
  let r := s.core.dmemReq p { i with memRsp := noRsp }
  { valid := r.wvalid, we := r.we, addr := r.addr, wdata := r.wdata, wstrb := r.wstrb, rready := r.rready }

/-- Its answer. -/
def dmemRsp : MemRsp where
  wready := NativeRam.rspWready (dmemParams p) s.dmem (s.dmemIn p i)
  rvalid := NativeRam.rspRvalid (dmemParams p) s.dmem
  rdata := NativeRam.rspRdata (dmemParams p) s.dmem
  bvalid := NativeRam.rspBvalid

/-- The inputs of the core; its own `memRsp` is not used. -/
def coreIn : CoreIn := { i with memRsp := s.dmemRsp p i }

/-- One clock edge. -/
def next : CoreMem where
  core := s.core.next p (s.coreIn p i)
  dmem := NativeRam.next (dmemParams p) s.dmem (s.dmemIn p i)

/-- The state behind a reset; the words of the D-mem are arbitrary. -/
structure IsReset (boot : Word) (img : Nat → BitVec 64) (rf : RegFile) (s : CoreMem) : Prop where
  core : s.core.IsReset boot img rf
  dmem : NativeRam.IsReset s.dmem

/-- The reset state whose other flops are zero. -/
def reset (boot : Word) (img : Nat → BitVec 64) (rf : RegFile) (mem : Nat → Word) : CoreMem where
  core := Core.reset boot img rf
  dmem := { mem := mem, rifQ := false, rdDQ := 0, countQ := 0, skidQ := fun _ => 0 }

theorem reset_isReset (boot : Word) (img : Nat → BitVec 64) (rf : RegFile) (mem : Nat → Word) :
    (reset boot img rf mem).IsReset boot img rf :=
  ⟨Core.reset_isReset boot img rf, rfl, rfl, rfl⟩

variable {p s i}

/-- The wires to the D-mem are the request of the core. -/
theorem dmemReq_eq (r : MemRsp) : s.core.dmemReq p { i with memRsp := r } = s.core.dmemReq p i := rfl

/-- The core of a run. -/
theorem core_run (inp : Nat → CoreIn) (t : Nat) : (trace (next p) s inp t).core =
    trace (Core.next p) s.core (fun u => (trace (next p) s inp u).coreIn p (inp u)) t := by
  induction t with
  | zero => rfl
  | succ t ih =>
    rw [trace_succ, trace_succ, ← ih]
    rfl

end CoreMem

end Yarv
