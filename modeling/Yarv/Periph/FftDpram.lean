import Mathlib.Logic.Function.Basic
import Yarv.Pkg

/-!
# `fft_dpram`

A true dual-port RAM of 32-bit words in two 16-bit slices, both ports with a registered read output.  A slice is
written when both of its byte strobes are set; a port that does not write a slice reads it.
-/

namespace Yarv

/-- One port of the RAM. -/
structure DpPort (a : Nat) where
  en : Bool
  we : Bool
  addr : BitVec a
  wdata : Word
  wstrb : BitVec 4
  deriving DecidableEq, Repr

/-- One slice: its storage and the read outputs of its ports. -/
structure DpSlice (a : Nat) where
  mem : BitVec a → BitVec 16
  aRdata : BitVec 16
  bRdata : BitVec 16

/-- The two slices, `g_slice[0]` and `g_slice[1]`. -/
structure FftDpram (a : Nat) where
  lo : DpSlice a
  hi : DpSlice a

variable {a : Nat}

namespace DpPort

def off : DpPort a := ⟨false, false, 0, 0, 0xF#4⟩

def read (addr : BitVec a) : DpPort a := ⟨true, false, addr, 0, 0xF#4⟩

def write (addr : BitVec a) (wdata : Word) : DpPort a := ⟨true, true, addr, wdata, 0xF#4⟩

/-- `slice_we`, for the slice at bit `16 * s`. -/
def sliceWe (p : DpPort a) (s : Nat) : Bool := p.we && p.wstrb.getLsbD (2 * s) && p.wstrb.getLsbD (2 * s + 1)

end DpPort

namespace DpSlice

variable (q : DpSlice a) (s : Nat) (pa pb : DpPort a)

/-- One port's write. -/
def put (p : DpPort a) (m : BitVec a → BitVec 16) : BitVec a → BitVec 16 :=
  if p.en && p.sliceWe s then Function.update m p.addr (p.wdata.extractLsb' (16 * s) 16) else m

/-- One port's read output behind the edge. -/
def get (p : DpPort a) (old : BitVec 16) : BitVec 16 := if p.en && !p.sliceWe s then q.mem p.addr else old

/-- One clock edge of slice `s`. -/
def next : DpSlice a where
  mem := put s pb (put s pa q.mem)
  aRdata := q.get s pa q.aRdata
  bRdata := q.get s pb q.bRdata

end DpSlice

namespace FftDpram

variable (q : FftDpram a) (pa pb : DpPort a)

/-- The word at an address. -/
def mem (i : BitVec a) : Word := q.hi.mem i ++ q.lo.mem i

def aRdata : Word := q.hi.aRdata ++ q.lo.aRdata

def bRdata : Word := q.hi.bRdata ++ q.lo.bRdata

/-- One clock edge. -/
def next : FftDpram a := ⟨q.lo.next 0 pa pb, q.hi.next 1 pa pb⟩

/-- The halfwords of a word that a strobed write replaces. -/
def mergeHalves (old new : Word) (strb : BitVec 4) : Word :=
  (if strb.getLsbD 2 && strb.getLsbD 3 then new.extractLsb' 16 16 else old.extractLsb' 16 16) ++
    (if strb.getLsbD 0 && strb.getLsbD 1 then new.extractLsb' 0 16 else old.extractLsb' 0 16)

/-- One port's write, on whole words. -/
def putWord (p : DpPort a) (m : BitVec a → Word) : BitVec a → Word :=
  if p.en && p.we then Function.update m p.addr (mergeHalves (m p.addr) p.wdata p.wstrb) else m

/-! ### Words -/

theorem extract_hi (x y : BitVec 16) : (x ++ y : Word).extractLsb' 16 16 = x := by
  rw [BitVec.extractLsb'_append_eq_of_le (by decide)]
  exact BitVec.extractLsb'_eq_self

theorem extract_lo (x y : BitVec 16) : (x ++ y : Word).extractLsb' 0 16 = y := by
  rw [BitVec.extractLsb'_append_eq_of_add_le (by decide)]
  exact BitVec.extractLsb'_eq_self

@[simp] theorem mergeHalves_full (old new : Word) : mergeHalves old new 0xF#4 = new := by
  have h : new.extractLsb' 16 16 ++ new.extractLsb' 0 16 = new := BitVec.extractLsb'_append_extractLsb'
  exact h

@[simp] theorem putWord_off (m : BitVec a → Word) : putWord DpPort.off m = m := rfl

@[simp] theorem putWord_read (i : BitVec a) (m : BitVec a → Word) : putWord (DpPort.read i) m = m := rfl

@[simp] theorem putWord_write (i : BitVec a) (w : Word) (m : BitVec a → Word) :
    putWord (DpPort.write i w) m = Function.update m i w := by
  simp [putWord, DpPort.write]

/-- One port writes its slices as it would write words. -/
private theorem put_eq (pa : DpPort a) (m₁ m₀ : BitVec a → BitVec 16) (i : BitVec a) :
    DpSlice.put 1 pa m₁ i ++ DpSlice.put 0 pa m₀ i = putWord pa (fun i => m₁ i ++ m₀ i) i := by
  rw [DpSlice.put, DpSlice.put, putWord, DpPort.sliceWe, DpPort.sliceWe, mergeHalves, extract_hi, extract_lo]
  by_cases hi : i = pa.addr
  · subst hi
    cases pa.en <;> cases pa.we <;> cases pa.wstrb.getLsbD 0 <;> cases pa.wstrb.getLsbD 1 <;>
      cases pa.wstrb.getLsbD 2 <;> cases pa.wstrb.getLsbD 3 <;> simp
  · cases pa.en <;> cases pa.we <;> cases pa.wstrb.getLsbD 0 <;> cases pa.wstrb.getLsbD 1 <;>
      cases pa.wstrb.getLsbD 2 <;> cases pa.wstrb.getLsbD 3 <;> simp [hi]

/-- The storage behind the edge, as words. -/
theorem mem_next : (q.next pa pb).mem = putWord pb (putWord pa q.mem) := by
  funext i
  have ha : (fun j => DpSlice.put 1 pa q.hi.mem j ++ DpSlice.put 0 pa q.lo.mem j) = putWord pa q.mem := by
    funext j
    exact put_eq pa q.hi.mem q.lo.mem j
  rw [← ha]
  exact put_eq pb _ _ i

/-! ### Read outputs -/

variable {q pa pb}

theorem aRdata_read (he : pa.en = true) (hw : pa.we = false) : (q.next pa pb).aRdata = q.mem pa.addr := by
  simp [next, aRdata, mem, DpSlice.next, DpSlice.get, DpPort.sliceWe, he, hw]

theorem bRdata_read (he : pb.en = true) (hw : pb.we = false) : (q.next pa pb).bRdata = q.mem pb.addr := by
  simp [next, bRdata, mem, DpSlice.next, DpSlice.get, DpPort.sliceWe, he, hw]

theorem aRdata_off (he : pa.en = false) : (q.next pa pb).aRdata = q.aRdata := by
  simp [next, aRdata, DpSlice.next, DpSlice.get, he]

end FftDpram

end Yarv
