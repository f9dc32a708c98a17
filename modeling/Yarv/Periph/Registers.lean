import Yarv.Bus.RegSlave

/-!
# The register slaves without an engine

`axi4_lite_ram`, `msip_peri`, `clint_timer`, `axi4_lite_gpio` and `axi4_lite_plic` as devices behind the shared port.
Each reads its own address bits and merges its writes its own way: the RAM, GPIO and PLIC by strobe lane, the CLINT
and the MSIP bit as whole words.
-/

namespace Yarv

/-! ### `axi4_lite_ram` -/

/-- The storage: `2 ^ a` words. -/
structure AxiRam (a : Nat) where
  mem : BitVec a → Word

namespace AxiRam

variable {a : Nat}

def next (q : AxiRam a) (i : RegAccess (BitVec a) Unit) : AxiRam a where
  mem :=
    match i.wr with
    | some w => Function.update q.mem w.addr (mergeWr (q.mem w.addr) w.data w.strb)
    | none => q.mem

def device : RegDevice (BitVec a) (AxiRam a) Unit where
  sel addr := addr.extractLsb' 2 a
  hold _ _ := false
  read q _ r := q.mem r
  next := next

end AxiRam

/-! ### `msip_peri` -/

/-- `msip_q`. -/
structure MsipPeri where
  msipQ : Bool
  deriving DecidableEq, Repr

namespace MsipPeri

def next (q : MsipPeri) (i : RegAccess Unit Unit) : MsipPeri where
  msipQ := (i.wr.map fun w => w.data.getLsbD 0).getD q.msipQ

/-- The address and the strobes are not looked at. -/
def device : RegDevice Unit MsipPeri Unit where
  sel _ := ()
  hold _ _ := false
  read q _ _ := (BitVec.ofBool q.msipQ).setWidth 32
  next := next

end MsipPeri

/-! ### `clint_timer` -/

/-- The counter, the compare register and the two stages of the compare. -/
structure ClintTimer where
  mtimeQ : BitVec 64
  mtimecmpQ : BitVec 64
  geHiQ : Bool
  eqHiQ : Bool
  geLoQ : Bool
  mtipQ : Bool
  deriving DecidableEq, Repr

namespace ClintTimer

def REG_MTIME_LO : BitVec 2 := 0
def REG_MTIME_HI : BitVec 2 := 1
def REG_MTIMECMP_LO : BitVec 2 := 2
def REG_MTIMECMP_HI : BitVec 2 := 3

def lo (x : BitVec 64) : Word := x.extractLsb' 0 32

def hi (x : BitVec 64) : Word := x.extractLsb' 32 32

def reset : ClintTimer := ⟨0, BitVec.allOnes 64, false, false, false, false⟩

variable (q : ClintTimer)

def read (r : BitVec 2) : Word :=
  if r = REG_MTIME_LO then lo q.mtimeQ
  else if r = REG_MTIME_HI then hi q.mtimeQ
  else if r = REG_MTIMECMP_LO then lo q.mtimecmpQ
  else hi q.mtimecmpQ

/-- `mtimecmp` behind a committed write; the strobes are not looked at, and `mtime` is read-only. -/
def mtimecmpD (wr : Option (RegWrite (BitVec 2))) : BitVec 64 :=
  match wr with
  | some w =>
    if w.addr = REG_MTIMECMP_LO then hi q.mtimecmpQ ++ w.data
    else if w.addr = REG_MTIMECMP_HI then w.data ++ lo q.mtimecmpQ
    else q.mtimecmpQ
  | none => q.mtimecmpQ

def next (i : RegAccess (BitVec 2) Unit) : ClintTimer where
  mtimeQ := q.mtimeQ + 1
  mtimecmpQ := q.mtimecmpD i.wr
  geHiQ := (hi q.mtimecmpQ).ult (hi q.mtimeQ)
  eqHiQ := hi q.mtimeQ == hi q.mtimecmpQ
  geLoQ := (lo q.mtimecmpQ).ule (lo q.mtimeQ)
  mtipQ := q.geHiQ || (q.eqHiQ && q.geLoQ)

def device : RegDevice (BitVec 2) ClintTimer Unit where
  sel addr := addr.extractLsb' 2 2
  hold _ _ := false
  read q _ r := q.read r
  next := next

theorem toNat_lo (x : BitVec 64) : (lo x).toNat = x.toNat % 2 ^ 32 := by simp [lo]

theorem toNat_hi (x : BitVec 64) : (hi x).toNat = x.toNat / 2 ^ 32 := by
  have hx := x.isLt
  rw [hi, BitVec.extractLsb'_toNat, Nat.shiftRight_eq_div_pow, Nat.mod_eq_of_lt (by omega)]

/-- The two stages compare the 64-bit values. -/
private theorem compare_halves (c m : BitVec 64) :
    ((hi c).ult (hi m) || (hi m == hi c && (lo c).ule (lo m))) = c.ule m := by
  rw [Bool.eq_iff_iff]
  simp only [Bool.or_eq_true, Bool.and_eq_true, beq_iff_eq, BitVec.ult, BitVec.ule, decide_eq_true_eq,
    ← BitVec.toNat_inj, toNat_hi, toNat_lo]
  have hc := c.isLt
  have hm := m.isLt
  omega

/-- In every run `mtip_o` is the unsigned compare of two cycles before. -/
theorem mtip_trace (q : ClintTimer) (acc : Nat → RegAccess (BitVec 2) Unit) (t : Nat) :
    (Clocked.trace next q acc (t + 2)).mtipQ = (Clocked.trace next q acc t).mtimecmpQ.ule (Clocked.trace next q acc t).mtimeQ := by
  rw [← compare_halves]
  rfl

end ClintTimer

/-! ### `axi4_lite_gpio` -/

/-- The flops of `axi4_lite_gpio` behind the bus flops, for `w` pins. -/
structure Gpio (w : Nat) where
  outQ : BitVec w
  dirQ : BitVec w
  gpioPrevQ : BitVec w
  intTypeQ : BitVec (2 * w)
  intEnQ : BitVec w
  pendQ : BitVec w
  deriving DecidableEq, Repr

namespace Gpio

def REG_VALUE : BitVec 3 := 0
def REG_OUT : BitVec 3 := 1
def REG_DIR : BitVec 3 := 2
def REG_INT_TYPE : BitVec 3 := 3
def REG_INT_EN : BitVec 3 := 4
def REG_INT_STATUS : BitVec 3 := 5

variable {w : Nat} (q : Gpio w) (pins : BitVec w)

def reset : Gpio w := ⟨0, 0, 0, 0, 0, 0⟩

/-- The event of pin `p` under its TYPE field. -/
def pendSetBit (p : Nat) : Bool :=
  let prev := q.gpioPrevQ.getLsbD p
  let cur := pins.getLsbD p
  match q.intTypeQ.getLsbD (2 * p + 1), q.intTypeQ.getLsbD (2 * p) with
  | false, false => cur
  | false, true => !prev && cur
  | true, false => prev && !cur
  | true, true => (!prev && cur) || (prev && !cur)

/-- `pend_set`. -/
def pendSet : BitVec w := (BitVec.ofBoolListLE ((List.range w).map (q.pendSetBit pins))).setWidth w

def irq : Bool := q.pendQ &&& q.intEnQ != 0

def read (a : BitVec 3) : Word :=
  if a = REG_VALUE then pins.setWidth 32
  else if a = REG_OUT then q.outQ.setWidth 32
  else if a = REG_DIR then q.dirQ.setWidth 32
  else if a = REG_INT_TYPE then q.intTypeQ.setWidth 32
  else if a = REG_INT_EN then q.intEnQ.setWidth 32
  else if a = REG_INT_STATUS then q.pendQ.setWidth 32
  else 0

/-- A register behind the edge: a write to `r` merges into it by strobe lane. -/
def merge {n : Nat} (i : RegAccess (BitVec 3) (BitVec w)) (r : BitVec 3) (old : BitVec n) : BitVec n :=
  match i.wr with
  | some x => if x.addr = r then mergeWr old x.data x.strb else old
  | none => old

/-- The bits a write to INT_STATUS clears. -/
def pendClr (i : RegAccess (BitVec 3) (BitVec w)) : BitVec w :=
  match i.wr with
  | some x => if x.addr = REG_INT_STATUS then x.data.setWidth w &&& (wrMask x.strb).setWidth w else 0
  | none => 0

def next (i : RegAccess (BitVec 3) (BitVec w)) : Gpio w where
  outQ := merge i REG_OUT q.outQ
  dirQ := merge i REG_DIR q.dirQ
  gpioPrevQ := i.ext
  intTypeQ := merge i REG_INT_TYPE q.intTypeQ
  intEnQ := merge i REG_INT_EN q.intEnQ
  pendQ := (q.pendQ &&& ~~~pendClr i) ||| q.pendSet i.ext

def device : RegDevice (BitVec 3) (Gpio w) (BitVec w) where
  sel a := a.extractLsb' 2 3
  hold _ _ := false
  read := read
  next := next

end Gpio

/-! ### `axi4_lite_plic` -/

/-- `enable_q`, for `n` sources; the pending vector is the lines. -/
structure Plic (n : Nat) where
  enableQ : BitVec n
  deriving DecidableEq, Repr

namespace Plic

def REG_PENDING : BitVec 3 := 0
def REG_ENABLE : BitVec 3 := 1
def REG_CLAIM : BitVec 3 := 2

variable {n : Nat} (q : Plic n) (irq : BitVec n)

def reset : Plic n := ⟨BitVec.allOnes n⟩

/-- Source `k` is enabled and pending; source 0 is none. -/
def claimable (k : Nat) : Bool := k != 0 && irq.getLsbD k && q.enableQ.getLsbD k

/-- `meip_o`. -/
def meip : Bool := (List.range n).any (q.claimable irq)

/-- `sel_id`: the descending scan keeps its last hit. -/
def selId : Nat := (List.range n).foldr (fun k r => if q.claimable irq k then k else r) 0

def read (a : BitVec 3) : Word :=
  if a = REG_PENDING then irq.setWidth 32
  else if a = REG_ENABLE then q.enableQ.setWidth 32
  else if a = REG_CLAIM then BitVec.ofNat 32 (q.selId irq)
  else 0

def next (i : RegAccess (BitVec 3) (BitVec n)) : Plic n where
  enableQ :=
    match i.wr with
    | some w => if w.addr = REG_ENABLE then mergeWr q.enableQ w.data w.strb else q.enableQ
    | none => q.enableQ

def device : RegDevice (BitVec 3) (Plic n) (BitVec n) where
  sel a := a.extractLsb' 2 3
  hold _ _ := false
  read := read
  next := next

end Plic

end Yarv
