import Yarv.Pkg

/-!
# `alu`

The adder, the comparator, the logic and shift unit, the two builds of the multiplier and the restoring divider.  All
operations but the divisions answer in the cycle they are asked; a division runs for 32 cycles behind `start_i`.
-/

namespace Yarv

/-- `div_state_e`. -/
inductive DivState
  | idle | run | done
  deriving DecidableEq, Repr, Inhabited

/-- The flops of `alu`; `div_rem_q` is the remainder over the quotient. -/
structure Alu where
  divStateQ : DivState
  divCntQ : BitVec 5
  divAQ : Word
  divNegQ : Bool
  divBzQ : Bool
  divRemQ : BitVec 64
  divDivisorQ : Word
  deriving DecidableEq

/-- The inputs of `alu`. -/
structure AluIn where
  a : Word
  b : Word
  op : AluOp
  shamt : BitVec 2
  start : Bool

namespace Alu

variable (p : Params) (q : Alu) (i : AluIn)

/-! ### Adder and comparator -/

def opIsSub : Bool := i.op == .sub || i.op == .slt || i.op == .sltu

def opIsLx : Bool := i.op == .lx

def addendB : Word := if opIsSub i then ~~~i.b else if opIsLx i then i.b <<< i.shamt else i.b

/-- `adder_sum`, with the carry out on top. -/
def adderSum : BitVec 33 :=
  i.a.setWidth 33 + (addendB i).setWidth 33 + (BitVec.ofBool (opIsSub i)).setWidth 33

/-- `ea_o`. -/
def ea : Word := (adderSum i).setWidth 32

def cmpLt : Bool :=
  if i.op == .sltu then !(adderSum i).getLsbD 32
  else if i.a.msb ^^ i.b.msb then i.a.msb else (adderSum i).getLsbD 31

/-! ### Logic and shifts -/

def shamtRb : BitVec 5 := i.b.extractLsb' 0 5

def logicShiftResult : Word :=
  match i.op with
  | .sll => i.a <<< shamtRb i
  | .srl => i.a >>> shamtRb i
  | .sra => i.a.sshiftRight' (shamtRb i)
  | .xor => i.a ^^^ i.b
  | .or => i.a ||| i.b
  | .and => i.a &&& i.b
  | _ => 0

def selAdder : Bool := i.op == .add || i.op == .sub || opIsLx i

def selCmp : Bool := i.op == .slt || i.op == .sltu

/-! ### Multiplier -/

def isMulOp : Bool := i.op == .mul || i.op == .mulh || i.op == .mulhsu || i.op == .mulhu

/-- `g_mul_shared`: one signed 33 x 33 product. -/
def mulShared : Word :=
  let aSigned := i.op != .mulhu
  let bSigned := i.op == .mul || i.op == .mulh
  let aExt : BitVec 33 := BitVec.ofBool (aSigned && i.a.msb) ++ i.a
  let bExt : BitVec 33 := BitVec.ofBool (bSigned && i.b.msb) ++ i.b
  let prod : BitVec 66 := aExt.signExtend 66 * bExt.signExtend 66
  if i.op != .mul then prod.extractLsb' 32 32 else prod.extractLsb' 0 32

/-- `g_mul_three`: one product for each signedness. -/
def mulThree : Word :=
  let mulSs : BitVec 64 := i.a.signExtend 64 * i.b.signExtend 64
  let mulUu : BitVec 64 := i.a.setWidth 64 * i.b.setWidth 64
  let mulSu : BitVec 64 := i.a.signExtend 64 * i.b.setWidth 64
  match i.op with
  | .mul => mulSs.extractLsb' 0 32
  | .mulh => mulSs.extractLsb' 32 32
  | .mulhsu => mulSu.extractLsb' 32 32
  | .mulhu => mulUu.extractLsb' 32 32
  | _ => 0

def mulResult : Word := if p.mulSharedDsp then mulShared i else mulThree i

/-! ### Divider -/

def isDivOp : Bool := i.op == .div || i.op == .divu || i.op == .rem || i.op == .remu

def divSigned : Bool := i.op == .div || i.op == .rem

def divAAbs : Word := if divSigned i && i.a.msb then -i.a else i.a

def divBAbs : Word := if divSigned i && i.b.msb then -i.b else i.b

/-- `div_rem_q << 1`. -/
def shifted : BitVec 64 := q.divRemQ <<< 1

def remPart : Word := q.shifted.extractLsb' 32 32

/-- The launch condition of a division. -/
def divStart : Bool := q.divStateQ == .idle && i.start && isDivOp i

def divNegD : Bool :=
  (i.op == .div && (i.a.msb ^^ i.b.msb) && i.b != 0) || (i.op == .rem && i.a.msb)

/-- One iteration of the restoring division. -/
def divRemStep : BitVec 64 :=
  if q.divDivisorQ.ule q.remPart then (q.remPart - q.divDivisorQ) ++ q.shifted.extractLsb' 1 31 ++ 1#1 else q.shifted

def divStateD : DivState :=
  match q.divStateQ with
  | .idle => if i.start && isDivOp i then .run else .idle
  | .run => if q.divCntQ = 31#5 then .done else .run
  | .done => .idle

def divCntD : BitVec 5 :=
  match q.divStateQ with
  | .idle => if i.start && isDivOp i then 0 else q.divCntQ
  | .run => if q.divCntQ = 31#5 then q.divCntQ else q.divCntQ + 1
  | .done => q.divCntQ

/-- One clock edge. -/
def next : Alu where
  divStateQ := divStateD q i
  divCntQ := divCntD q i
  divAQ := if divStart q i then divAAbs i else q.divAQ
  divNegQ := if divStart q i then divNegD i else q.divNegQ
  divBzQ := if divStart q i then i.b == 0 else q.divBzQ
  divRemQ :=
    if divStart q i then (0#32) ++ divAAbs i else if q.divStateQ = .run then divRemStep q else q.divRemQ
  divDivisorQ := if divStart q i then divBAbs i else q.divDivisorQ

/-- The flops at their reset values. -/
def reset : Alu where
  divStateQ := .idle
  divCntQ := 0
  divAQ := 0
  divNegQ := false
  divBzQ := false
  divRemQ := 0
  divDivisorQ := 0

def divQuotRaw : Word := q.divRemQ.extractLsb' 0 32

def divRemRaw : Word := q.divRemQ.extractLsb' 32 32

def divTakeRem : Bool := i.op == .rem || i.op == .remu

def divMag : Word :=
  if q.divBzQ then (if divTakeRem i then q.divAQ else BitVec.allOnes 32)
  else if divTakeRem i then q.divRemRaw else q.divQuotRaw

def divResult : Word := if q.divNegQ then -divMag q i else divMag q i

/-! ### Outputs -/

def earlyResult : Word :=
  if isDivOp i then divResult q i
  else if selCmp i then (BitVec.ofBool (cmpLt i)).setWidth 32
  else logicShiftResult i

/-- `result_o`. -/
def result : Word :=
  if isMulOp i then mulResult p i else if selAdder i then ea i else earlyResult q i

/-- `result_valid_o`. -/
def resultValid : Bool := if isDivOp i then q.divStateQ == .done else true

end Alu

end Yarv
