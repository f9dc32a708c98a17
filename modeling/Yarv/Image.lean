import Yarv.FetchStage
import Yarv.NativeRam

/-!
# The instruction image

The I-mem stores little-endian 64-bit words.  Here are its bytes, halfwords and words at a byte address, the address
arithmetic fetch does on a PC, and the sequence of buffer entries that fetch has to produce from a given PC on.
-/

namespace Yarv

/-! ### Bytes of the image -/

/-- Byte `a` of the image. -/
def imgByte (img : Nat → BitVec 64) (a : Nat) : BitVec 8 := (img (a / 8)).extractLsb' (8 * (a % 8)) 8

/-- The halfword at byte address `a`. -/
def imgHalf (img : Nat → BitVec 64) (a : Nat) : BitVec 16 := imgByte img (a + 1) ++ imgByte img a

/-- The word at byte address `a`. -/
def imgWord (img : Nat → BitVec 64) (a : Nat) : Word := imgHalf img (a + 2) ++ imgHalf img a

/-- The image that holds the listed 64-bit words and no-operations behind them. -/
def imgOf (l : List (BitVec 64)) (a : Nat) : BitVec 64 := l.getD a 0x0000001300000013#64

variable {img : Nat → BitVec 64}

theorem imgHalf_eq {a : Nat} (h : a % 2 = 0) : imgHalf img a = (img (a / 8)).extractLsb' (8 * (a % 8)) 16 := by
  have hd : (a + 1) / 8 = a / 8 := by omega
  have hm : 8 * ((a + 1) % 8) = 8 * (a % 8) + 8 := by omega
  rw [imgHalf, imgByte, imgByte, hd, hm]
  exact BitVec.extractLsb'_append_extractLsb'_eq_extractLsb' rfl

private theorem imgWord_eq {a : Nat} (h : a % 4 = 0) :
    imgWord img a = (img (a / 8)).extractLsb' (8 * (a % 8)) 32 := by
  have hd : (a + 2) / 8 = a / 8 := by omega
  have hm : 8 * ((a + 2) % 8) = 8 * (a % 8) + 16 := by omega
  rw [imgWord, imgHalf_eq (by omega), imgHalf_eq (by omega), hd, hm]
  exact BitVec.extractLsb'_append_extractLsb'_eq_extractLsb' rfl

/-! ### Addresses -/

theorem toNat_and_not7 (a : Word) : (a &&& ~~~7#32).toNat = a.toNat / 8 * 8 := by
  have h : a &&& ~~~7#32 = (a >>> 3) <<< 3 := by
    ext i hi
    interval_cases i <;> simp
  have ha := a.isLt
  rw [h, BitVec.toNat_shiftLeft, BitVec.toNat_ushiftRight, Nat.shiftLeft_eq, Nat.shiftRight_eq_div_pow]
  omega

theorem toNat_and_not3 (a : Word) : (a &&& ~~~3#32).toNat = a.toNat / 4 * 4 := by
  have h : a &&& ~~~3#32 = (a >>> 2) <<< 2 := by
    ext i hi
    interval_cases i <;> simp
  have ha := a.isLt
  rw [h, BitVec.toNat_shiftLeft, BitVec.toNat_ushiftRight, Nat.shiftLeft_eq, Nat.shiftRight_eq_div_pow]
  omega

theorem even_iff {n : Nat} (a : BitVec n) : a.getLsbD 0 = false ↔ a.toNat % 2 = 0 := by
  simp [BitVec.getLsbD, Nat.testBit_eq_decide_div_mod_eq]

theorem getLsbD_one_eq (a : Word) : a.getLsbD 1 = decide (a.toNat / 2 % 2 = 1) := by
  simp [BitVec.getLsbD, Nat.testBit_eq_decide_div_mod_eq]

private theorem getLsbD_two_eq (a : Word) : a.getLsbD 2 = decide (a.toNat / 4 % 2 = 1) := by
  simp [BitVec.getLsbD, Nat.testBit_eq_decide_div_mod_eq]

/-- The address lies outside the implemented I-mem. -/
theorem outOfImem_iff (p : Params) (a : Word) :
    FetchStage.outOfImem p a = true ↔ 2 ^ p.imemAddrW ≤ a.toNat := by
  have h : (a >>> p.imemAddrW).toNat = a.toNat / 2 ^ p.imemAddrW := by
    rw [BitVec.toNat_ushiftRight, Nat.shiftRight_eq_div_pow]
  have hz : (a >>> p.imemAddrW = 0) ↔ a.toNat / 2 ^ p.imemAddrW = 0 := by
    rw [← h]
    constructor
    · intro he
      rw [he]
      rfl
    · intro he
      exact BitVec.eq_of_toNat_eq he
  rw [FetchStage.outOfImem, bne_iff_ne, ne_eq, hz, Nat.div_eq_zero_iff]
  have : 0 < 2 ^ p.imemAddrW := Nat.two_pow_pos _
  omega

theorem outOfImem_eq_false_iff (p : Params) (a : Word) :
    FetchStage.outOfImem p a = false ↔ a.toNat < 2 ^ p.imemAddrW := by
  rw [← Bool.not_eq_true, outOfImem_iff]
  omega

/-! ### Fetch order -/

/-- The first address of the next 8-byte block. -/
def blockNext (a : Word) : Word := (a &&& ~~~7#32) + 8

/-- The address of the entry behind the one at `a`: the next word, or the next block behind an unfetchable one. -/
def nextFetch (p : Params) (a : Word) : Word :=
  if FetchStage.outOfImem p a then blockNext a else (a &&& ~~~3#32) + 4

theorem toNat_blockNext (a : Word) : (blockNext a).toNat = (a.toNat / 8 * 8 + 8) % 2 ^ 32 := by
  rw [blockNext, BitVec.toNat_add, toNat_and_not7]
  rfl

theorem nextFetch_of_out {p : Params} {a : Word} (h : FetchStage.outOfImem p a = true) :
    nextFetch p a = blockNext a := by
  rw [nextFetch, if_pos h]

theorem nextFetch_of_in {p : Params} {a : Word} (h : FetchStage.outOfImem p a = false) :
    nextFetch p a = (a &&& ~~~3#32) + 4 := by
  rw [nextFetch, h]
  rfl

/-- From the high half of a block fetch moves to the next block. -/
theorem nextFetch_high {p : Params} {a : Word} (h : a.getLsbD 2 = true) : nextFetch p a = blockNext a := by
  unfold nextFetch
  split
  · rfl
  · rw [getLsbD_two_eq, decide_eq_true_iff] at h
    apply BitVec.eq_of_toNat_eq
    rw [toNat_blockNext, BitVec.toNat_add, toNat_and_not3]
    have : (4 : Word).toNat = 4 := rfl
    omega

/-- The stamp of the high half of the block of `a`. -/
def highPc (a : Word) : Word := (a &&& ~~~7#32) + 4

theorem toNat_highPc (a : Word) : (highPc a).toNat = a.toNat / 8 * 8 + 4 := by
  have ha := a.isLt
  rw [highPc, BitVec.toNat_add, toNat_and_not7]
  have : (4 : Word).toNat = 4 := rfl
  omega

/-- From the low half of a fetchable block fetch moves to its high half, which is fetchable too. -/
theorem nextFetch_low {p : Params} {a : Word} (hin : FetchStage.outOfImem p a = false)
    (h : a.getLsbD 2 = false) : nextFetch p a = highPc a := by
  rw [nextFetch_of_in hin]
  rw [getLsbD_two_eq, decide_eq_false_iff_not] at h
  apply BitVec.eq_of_toNat_eq
  have ha := a.isLt
  rw [toNat_highPc, BitVec.toNat_add, toNat_and_not3]
  have : (4 : Word).toNat = 4 := rfl
  omega

theorem highPc_in {p : Params} {a : Word} (hin : FetchStage.outOfImem p a = false) :
    FetchStage.outOfImem p (highPc a) = false := by
  rw [outOfImem_eq_false_iff] at hin ⊢
  rw [toNat_highPc]
  have h8 : (8 : Nat) ∣ 2 ^ p.imemAddrW := by
    have := Nat.pow_dvd_pow 2 (show 3 ≤ p.imemAddrW by have := p.imemAddrW_ge; omega)
    exact this
  omega

theorem highPc_bit (a : Word) : (highPc a).getLsbD 2 = true := by
  rw [getLsbD_two_eq, toNat_highPc, decide_eq_true_iff]
  omega

theorem blockNext_highPc (a : Word) : blockNext (highPc a) = blockNext a := by
  apply BitVec.eq_of_toNat_eq
  rw [toNat_blockNext, toNat_blockNext, toNat_highPc]
  omega

/-! ### Entries -/

/-- What decode reads of a buffer entry, the prediction bits aside. -/
structure Slot where
  instr : Word
  pc : Word
  fault : Bool
  deriving DecidableEq, Repr

def BufEntry.slot (e : BufEntry) : Slot := ⟨e.instr, e.pc, e.fault⟩

/-- The entry fetch produces at the address `a`. -/
def slotAt (p : Params) (img : Nat → BitVec 64) (a : Word) : Slot :=
  if FetchStage.outOfImem p a then ⟨0, a, true⟩ else ⟨imgWord img (a.toNat / 4 * 4), a, false⟩

/-- The `n` entries from the address `a` on. -/
def slotsFrom (p : Params) (img : Nat → BitVec 64) (a : Word) (n : Nat) : List Slot :=
  (List.iterate (nextFetch p) a n).map (slotAt p img)

section Slots

variable (p : Params) (img : Nat → BitVec 64) (a : Word)

theorem slotAt_pc : (slotAt p img a).pc = a := by
  unfold slotAt
  split
  · rfl
  · rfl

@[simp] theorem length_slotsFrom (n : Nat) : (slotsFrom p img a n).length = n := by
  simp [slotsFrom]

theorem getElem_slotsFrom {n k : Nat} (h : k < (slotsFrom p img a n).length) :
    (slotsFrom p img a n)[k] = slotAt p img ((nextFetch p)^[k] a) := by
  simp [slotsFrom, List.getElem_iterate]

theorem slotsFrom_add (m n : Nat) :
    slotsFrom p img a (m + n) = slotsFrom p img a m ++ slotsFrom p img ((nextFetch p)^[m] a) n := by
  simp [slotsFrom, List.iterate_add]

theorem slotsFrom_drop {n k : Nat} (h : k ≤ n) :
    (slotsFrom p img a n).drop k = slotsFrom p img ((nextFetch p)^[k] a) (n - k) := by
  obtain ⟨m, rfl⟩ := Nat.exists_eq_add_of_le h
  rw [slotsFrom_add, List.drop_left' (length_slotsFrom p img a k), Nat.add_sub_cancel_left]

theorem slotsFrom_one : slotsFrom p img a 1 = [slotAt p img a] := rfl

theorem slotsFrom_two : slotsFrom p img a 2 = [slotAt p img a, slotAt p img (nextFetch p a)] := rfl

end Slots

/-- The word index the I-mem decodes from an address inside its range. -/
theorem wordAddr_in {p : Params} {a : Word} (hin : FetchStage.outOfImem p a = false) :
    a.toNat % 2 ^ p.imemAddrW / 8 = a.toNat / 8 := by
  rw [outOfImem_eq_false_iff] at hin
  rw [Nat.mod_eq_of_lt hin]

/-- The half of a fetched block that holds the address `a` is the image word there. -/
theorem extract_word (img : Nat → BitVec 64) (a : Word) :
    (img (a.toNat / 8)).extractLsb' (if a.getLsbD 2 then 32 else 0) 32 = imgWord img (a.toNat / 4 * 4) := by
  rw [imgWord_eq (by omega), getLsbD_two_eq]
  have hd : a.toNat / 4 * 4 / 8 = a.toNat / 8 := by omega
  rw [hd]
  congr 1
  split <;> rename_i h <;> simp only [decide_eq_true_eq] at h <;> omega

end Yarv
