import Yarv.Pkg

/-!
# `branch_predictor`

The gshare table with its global history, and the circular return-address stack.  Both lookups are combinational;
execute trains the predictor once for each resolved control-flow instruction.
-/

namespace Yarv

/-- The storage and the flops of `branch_predictor`; `ras_cnt_q` is a number in `0 .. 8`. -/
structure BranchPredictor where
  phtQ : BitVec 9 → BitVec 2
  ghrQ : BitVec 9
  rasQ : BitVec 3 → Word
  rasPtrQ : BitVec 3
  rasCntQ : Nat

namespace BranchPredictor

variable (q : BranchPredictor)

/-! ### Decode-time lookup -/

def lookupIndex (pc : Word) : BitVec 9 := pc.extractLsb' 1 9 ^^^ q.ghrQ

/-- `lookup_rsp_o`. -/
def lookup (pc : Word) : BpLookupRsp where
  phtTaken := (q.phtQ (q.lookupIndex pc)).getLsbD 1
  rasValid := q.rasCntQ != 0
  rasTop := q.rasQ (q.rasPtrQ - 1)
  phtIndex := q.lookupIndex pc

/-! ### Push-time lookup -/

/-- `push_u0` and `push_u1`: the index of a word's aligned pair. -/
def pushU (pc : Word) : BitVec 8 := pc.extractLsb' 2 8 ^^^ q.ghrQ.extractLsb' 1 8

/-- The direction bit of one entry of the pair. -/
def pushCtr (pc : Word) (b : BitVec 1) : Bool := (q.phtQ (q.pushU pc ++ b)).getLsbD 1

/-- `push_rsp_o`. -/
def push (r : BpPushReq) : BpPushRsp where
  ghr := q.ghrQ
  pred0Lo := if q.ghrQ.getLsbD 0 then q.pushCtr r.pc0 1 else q.pushCtr r.pc0 0
  pred0Hi := if q.ghrQ.getLsbD 0 then q.pushCtr r.pc0 0 else q.pushCtr r.pc0 1
  pred1Lo := if q.ghrQ.getLsbD 0 then q.pushCtr r.pc1 1 else q.pushCtr r.pc1 0
  pred1Hi := if q.ghrQ.getLsbD 0 then q.pushCtr r.pc1 0 else q.pushCtr r.pc1 1

/-! ### Training -/

def satUpdate (c : BitVec 2) (t : Bool) : BitVec 2 :=
  if t then (if c = 0b11#2 then 0b11#2 else c + 1) else if c = 0b00#2 then 0b00#2 else c - 1

/-- One clock edge. A call pushes, a return pops; the return's assignments come last. -/
def next (t : BpTrain) : BranchPredictor where
  phtQ :=
    if t.valid && t.cond then Function.update q.phtQ t.phtIndex (satUpdate (q.phtQ t.phtIndex) t.taken) else q.phtQ
  ghrQ := if t.valid && t.cond then q.ghrQ.extractLsb' 0 8 ++ BitVec.ofBool t.taken else q.ghrQ
  rasQ := if t.valid && t.call then Function.update q.rasQ q.rasPtrQ t.pushPc else q.rasQ
  rasPtrQ :=
    if t.valid && t.ret then q.rasPtrQ - 1 else if t.valid && t.call then q.rasPtrQ + 1 else q.rasPtrQ
  rasCntQ :=
    if t.valid && t.ret then (if q.rasCntQ = 0 then 0 else q.rasCntQ - 1)
    else if t.valid && t.call then (if q.rasCntQ = 8 then q.rasCntQ else q.rasCntQ + 1)
    else q.rasCntQ

/-- The flops at their reset values; the table and the stack slots are not reset. -/
structure IsReset (q : BranchPredictor) : Prop where
  ghr : q.ghrQ = 0
  rasPtr : q.rasPtrQ = 0
  rasCnt : q.rasCntQ = 0

end BranchPredictor

end Yarv
