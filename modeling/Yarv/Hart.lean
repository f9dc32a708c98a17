import Yarv.Cpu
import Yarv.Lib.Clocked

/-!
# The hart

The core closed with the branch predictor.  Decode asks for the PC of its source, fetch for the PCs of the words it is
about to push, and execute trains with the control flow it resolves; none of the three reads an answer of the cycle.
-/

namespace Yarv

/-- The flops of the core and of the predictor. -/
structure Hart where
  core : Core
  bp : BranchPredictor

/-- The inputs of the hart: the responses of the two data ports and the interrupt lines. -/
structure HartIn where
  memRsp : MemRsp
  periRsp : MemRsp
  msip : Bool
  mtip : Bool
  meip : Bool

/-- Both data ports ready and silent, no interrupt. -/
def HartIn.quiet : HartIn where
  memRsp := ⟨true, false, 0, false⟩
  periRsp := ⟨true, false, 0, false⟩
  msip := false
  mtip := false
  meip := false

namespace Hart

variable (p : Params) (s : Hart) (i : HartIn)

/-- The core inputs, for given answers of the predictor. -/
def coreInWith (l : BpLookupRsp) (u : BpPushRsp) : CoreIn where
  bpLookup := l
  bpPush := u
  memRsp := i.memRsp
  periRsp := i.periRsp
  msip := i.msip
  mtip := i.mtip
  meip := i.meip

/-- No answer. -/
def noPush : BpPushRsp := ⟨0, false, false, false, false⟩

/-- `bp_lookup_o.pc`: the PC of decode's source. -/
def lookupPc : Word :=
  (DecodeStage.src s.core.fe.decode
    (s.core.fe.decodeIn (s.core.feIn p (coreInWith i ⟨false, false, 0, 0⟩ noPush)))).pc

def bpLookup : BpLookupRsp := s.bp.lookup (s.lookupPc p i)

/-- `bp_push_o`: the PCs of the words fetch pushes. -/
def pushReq : BpPushReq :=
  FetchStage.bpPushReq s.core.fe.fetch (s.core.fe.fetchIn p (s.core.feIn p (coreInWith i (s.bpLookup p i) noPush)))

def bpPush : BpPushRsp := s.bp.push (s.pushReq p i)

/-- The inputs of the core. -/
def coreIn : CoreIn := coreInWith i (s.bpLookup p i) (s.bpPush p i)

/-- `bp_train_o`. -/
def train : BpTrain := s.core.ex.bpTrain p (s.core.exIn (s.coreIn p i))

/-- One clock edge. -/
def next : Hart where
  core := s.core.next p (s.coreIn p i)
  bp := s.bp.next (s.train p i)

/-- The state behind a reset, with the I-mem holding `img`. -/
structure IsReset (boot : Word) (img : Nat → BitVec 64) (rf : RegFile) (s : Hart) : Prop where
  core : s.core.IsReset boot img rf
  bp : s.bp.IsReset

/-- The reset state whose other flops are zero. -/
def reset (boot : Word) (img : Nat → BitVec 64) (rf : RegFile) : Hart where
  core := Core.reset boot img rf
  bp := { phtQ := fun _ => 0, ghrQ := 0, rasQ := fun _ => 0, rasPtrQ := 0, rasCntQ := 0 }

theorem reset_isReset (boot : Word) (img : Nat → BitVec 64) (rf : RegFile) :
    (reset boot img rf).IsReset boot img rf := ⟨Core.reset_isReset boot img rf, rfl, rfl, rfl⟩

end Hart

end Yarv
