import Yarv.Periph.Spi

/-!
# An SPI exchange

`SpiLink` is the engine wired to the ideal slave of a mode.  The slave looks at the SCK edges and at MOSI only: it
samples MOSI, as held before the edge, on one kind of edge and moves MISO on to its next bit on the other.
-/

namespace Yarv

/-- An exchange: the mode and the divisor held for its length, the bytes the slave answers with and the level MISO has
before a `CPHA = 1` slave sees its first edge. -/
structure SpiExchange where
  cpol : Bool
  cpha : Bool
  clkdiv : BitVec 16
  resp : Nat → Byte
  level : Bool

/-- The ideal slave: the MOSI bits it has captured and how often it has changed MISO. -/
structure SpiTarget where
  bits : List Bool
  moved : Nat
  deriving DecidableEq, Repr

/-- The engine and the slave. -/
structure SpiLink (wt wr : Nat) where
  spi : Spi wt wr
  tgt : SpiTarget

namespace SpiExchange

open ShiftReg Clocked

variable (e : SpiExchange)

/-- The slave's bytes as one bit stream. -/
def stream (k : Nat) : Bool := (e.resp (k / 8)).getMsbD (k % 8)

/-- MISO after `k` changes: with `CPHA = 0` the first bit is there before the first edge. -/
def miso (k : Nat) : Bool :=
  if e.cpha then
    match k with
    | 0 => e.level
    | k + 1 => e.stream k
  else e.stream k

/-- One clock edge of the slave; leading is away from the idle level. -/
def see (g : SpiTarget) (sck sck' mosi : Bool) : SpiTarget :=
  let leading := sck != sck' && sck' != e.cpol
  let trailing := sck != sck' && sck' == e.cpol
  { bits := if (if e.cpha then trailing else leading) then g.bits ++ [mosi] else g.bits
    moved := if (if e.cpha then leading else trailing) then g.moved + 1 else g.moved }

variable {wt wr : Nat}

/-- One clock edge of the two; the register port sees the engine only. -/
def next (l : SpiLink wt wr) (i : RegAccess (BitVec 3) Unit) : SpiLink wt wr :=
  let q := l.spi.next { i with ext := e.miso l.tgt.moved }
  ⟨q, e.see l.tgt l.spi.sckQ q.sckQ l.spi.mosi⟩

/-- The linked engine as the device behind the register port. -/
def device : RegDevice (BitVec 3) (SpiLink wt wr) Unit where
  sel a := a.extractLsb' 2 3
  hold _ _ := false
  read l _ a := l.spi.read a
  next := e.next

/-! ### The phases of a byte

After `2 * i + h` divider ticks of a byte the slave has captured `captured i h` bits, the engine has taken `sampled i
h` and has shifted MOSI `changed i h` times. -/

def captured (i : Nat) (h : Bool) : Nat := if e.cpha then i else i + h.toNat

def sampled (i : Nat) (h : Bool) : Nat := if e.cpha then i + h.toNat else i

def changed (i : Nat) (h : Bool) : Nat := if e.cpha then i else i + h.toNat - 1

/-- What the slave captures of a byte: with `CPHA = 0` the top bit twice and never the last one. -/
def seen (b : Byte) : List Bool := if e.cpha then msbBits b else b.getMsbD 0 :: (msbBits b).take 7

/-- The MISO levels the engine samples for its byte `j`. -/
def samples (j : Nat) : List Bool := (List.range 8).map fun i => e.miso (8 * j + i)

/-- What it makes of them. -/
def got (j : Nat) : Byte := run 0 (e.samples j)

@[simp] theorem length_seen (b : Byte) : (e.seen b).length = 8 := by
  rw [seen]
  split <;> simp

@[simp] theorem length_samples (j : Nat) : (e.samples j).length = 8 := by simp [samples]

variable {e}

/-- The mode, the divisor and the enable are those of the exchange. -/
structure Held (e : SpiExchange) (l : SpiLink wt wr) : Prop where
  enable : l.spi.enableQ = true
  cpol : l.spi.cpolQ = e.cpol
  cpha : l.spi.cphaQ = e.cpha
  clkdiv : l.spi.clkdivQ = e.clkdiv

/-- In the middle of byte `b`, behind the bytes `ps`. -/
structure Shifting (e : SpiExchange) (ps : List Byte) (b : Byte) (i : Nat) (h : Bool) (l : SpiLink wt wr) : Prop where
  state : l.spi.stateQ = .shift
  sck : l.spi.sckQ = (e.cpol ^^ h)
  first : l.spi.firstEdgeQ = (decide (i = 0) && !h)
  shift : l.spi.shiftQ = run b (List.replicate (e.changed i h) false)
  cnt : l.spi.bitCntQ = BitVec.ofNat 3 (7 - e.changed i h)
  rx : ∃ r, l.spi.rxQ = run r ((e.samples ps.length).take (e.sampled i h))
  bits : l.tgt.bits = ps.flatMap e.seen ++ (e.seen b).take (e.captured i h)
  moved : l.tgt.moved = 8 * ps.length + e.sampled i h
  bound : e.sampled i h ≤ 7

/-- Between two bytes; the last edge of a `CPHA = 1` byte comes when the idle engine restores SCK. -/
structure Rest (e : SpiExchange) (ls : List Byte) (l : SpiLink wt wr) : Prop where
  moved : l.tgt.moved = 8 * ls.length
  settled : l.spi.sckQ = e.cpol → l.tgt.bits = ls.flatMap e.seen
  pending : l.spi.sckQ ≠ e.cpol → e.cpha = true ∧ l.tgt.bits ++ [l.spi.mosi] = ls.flatMap e.seen

/-- The bit the engine drives after `k` shifts. -/
private theorem mosi_run (b : Byte) {k : Nat} (hk : k < 8) :
    (run b (List.replicate k false)).getLsbD 7 = b.getMsbD k := by
  rw [getLsbD_run_old _ _ (by simp; omega) (by omega), List.length_replicate, BitVec.getMsbD]
  simp [hk]

variable {l : SpiLink wt wr} {ps : List Byte} {b : Byte} {i : Nat} {h : Bool} (a : RegAccess (BitVec 3) Unit)

/-- The settings hold as long as nobody writes CTRL or CLKDIV. -/
theorem Held.next (hh : Held e l) (hctrl : a.wrAt Spi.REG_CTRL = none) (hdiv : a.wrAt Spi.REG_CLKDIV = none) :
    Held e (e.next l a) := by
  have h1 : RegAccess.wrAt { a with ext := e.miso l.tgt.moved } Spi.REG_CTRL = none := hctrl
  have h2 : RegAccess.wrAt { a with ext := e.miso l.tgt.moved } Spi.REG_CLKDIV = none := hdiv
  exact ⟨by simp [SpiExchange.next, Spi.next, RegAccess.ctrlBit, h1, hh.enable],
    by simp [SpiExchange.next, Spi.next, RegAccess.ctrlBit, h1, hh.cpol],
    by simp [SpiExchange.next, Spi.next, RegAccess.ctrlBit, h1, hh.cpha],
    by simp [SpiExchange.next, Spi.next, h2, hh.clkdiv]⟩

/-- Between two divider ticks nothing moves. -/
theorem Shifting.hold (hs : Shifting e ps b i h l) (hh : Held e l) (ht : l.spi.divTick = false) :
    Shifting e ps b i h (e.next l a) := by
  have hsck : (e.next l a).spi.sckQ = l.spi.sckQ := by
    simp [next, Spi.next, hh.enable, hs.state, ht]
  have hsee : (e.next l a).tgt = l.tgt := by
    change e.see l.tgt l.spi.sckQ (e.next l a).spi.sckQ l.spi.mosi = l.tgt
    rw [hsck]
    cases hc : e.cpha <;> simp [see, hc]
  refine ⟨?_, hsck ▸ hs.sck, ?_, ?_, ?_, ?_, hsee ▸ hs.bits, hsee ▸ hs.moved, hs.bound⟩
  · simp [next, Spi.next, Spi.stateD, Spi.sampleEdge, hs.state, ht]
  · simpa [next, Spi.next, hs.state, ht] using hs.first
  · simpa [next, Spi.next, Spi.shifts, Spi.changeEdge, hs.state, ht] using hs.shift
  · simpa [next, Spi.next, Spi.shifts, Spi.changeEdge, hs.state, ht] using hs.cnt
  · simpa [next, Spi.next, Spi.sampleEdge, hs.state, ht] using hs.rx

private theorem seen_get (e : SpiExchange) (b : Byte) {k : Nat} (hk : k < 8) :
    (e.seen b)[k]? = some (b.getMsbD (if e.cpha then k else k - 1)) := by
  cases hc : e.cpha with
  | true => simp only [seen, hc, if_true, msbBits_get b hk]
  | false =>
    rcases k with _ | k
    · simp [seen, hc]
    · rw [seen, hc, if_neg Bool.false_ne_true, List.getElem?_cons_succ, List.getElem?_take_of_lt (by omega),
        msbBits_get b (by omega)]
      rfl

private theorem samples_get (e : SpiExchange) (j : Nat) {k : Nat} (hk : k < 8) :
    (e.samples j)[k]? = some (e.miso (8 * j + k)) := by
  rw [samples, List.getElem?_map, List.getElem?_range hk]
  rfl

private theorem changed_eq (e : SpiExchange) (i : Nat) (h : Bool) :
    e.changed i h = if e.cpha then e.captured i h else e.captured i h - 1 := by
  rw [changed, captured]
  cases e.cpha <;> rfl

/-- On a sample tick MOSI has changed as often as MISO was taken. -/
private theorem changed_of_sample (e : SpiExchange) {i : Nat} {h : Bool} (hx : (e.cpha ^^ h) = true) :
    e.changed i h = e.sampled i h := by
  rw [changed, sampled]
  cases hc : e.cpha <;> cases h <;> simp_all

/-- Which branch a divider tick takes: even ticks of a byte are leading edges of SCK. -/
private theorem Shifting.sampleEdge (hs : Shifting e ps b i h l) (hh : Held e l) (ht : l.spi.divTick = true) :
    l.spi.sampleEdge = (e.cpha ^^ h) := by
  rw [Spi.sampleEdge, ht, hh.cpha, hh.cpol, hs.sck]
  cases e.cpha <;> cases e.cpol <;> cases h <;> rfl

private theorem Shifting.changeEdge (hs : Shifting e ps b i h l) (hh : Held e l) (ht : l.spi.divTick = true) :
    l.spi.changeEdge = !(e.cpha ^^ h) := by
  rw [Spi.changeEdge, ht, hh.cpha, hh.cpol, hs.sck]
  cases e.cpha <;> cases e.cpol <;> cases h <;> rfl

private theorem Shifting.next_sck (hs : Shifting e ps b i h l) (hh : Held e l) (ht : l.spi.divTick = true) :
    (e.next l a).spi.sckQ = (e.cpol ^^ !h) := by
  simp only [next, Spi.next, hh.enable, hs.state, ht, hs.sck]
  cases e.cpol <;> cases h <;> rfl

private theorem Shifting.mosi (hs : Shifting e ps b i h l) (hk : e.changed i h < 8) :
    l.spi.mosi = b.getMsbD (e.changed i h) := by
  rw [Spi.mosi, hs.shift, mosi_run b hk]

/-- The slave at a divider tick. -/
private theorem Shifting.next_tgt (hs : Shifting e ps b i h l) (hh : Held e l) (ht : l.spi.divTick = true) :
    (e.next l a).tgt =
      ⟨if e.cpha ^^ h then l.tgt.bits else l.tgt.bits ++ [l.spi.mosi],
        if e.cpha ^^ h then l.tgt.moved + 1 else l.tgt.moved⟩ := by
  change e.see l.tgt l.spi.sckQ (e.next l a).spi.sckQ l.spi.mosi = _
  rw [hs.next_sck a hh ht, hs.sck, see]
  cases e.cpha <;> cases e.cpol <;> cases h <;> rfl

/-- A tick on which the slave captures and the engine changes MOSI, the phantom one excepted. -/
theorem Shifting.tick_change (hs : Shifting e ps b i h l) (hh : Held e l) (ht : l.spi.divTick = true)
    (hx : (e.cpha ^^ h) = false) : Shifting e ps b (i + h.toNat) (!h) (e.next l a) := by
  have hb := hs.bound
  have hsamp : l.spi.sampleEdge = false := by rw [hs.sampleEdge hh ht, hx]
  have hchg : l.spi.changeEdge = true := by rw [hs.changeEdge hh ht, hx]; rfl
  have hcap : e.captured i h < 8 := by
    simp only [sampled, captured] at hb ⊢
    cases hc : e.cpha <;> cases h <;> simp_all <;> omega
  have hcap' : e.captured (i + h.toNat) (!h) = e.captured i h + 1 := by
    simp only [captured]
    cases hc : e.cpha <;> cases h <;> simp_all
  have hsmp' : e.sampled (i + h.toNat) (!h) = e.sampled i h := by
    simp only [sampled]
    cases hc : e.cpha <;> cases h <;> simp_all
  have hle : e.changed i h < 7 := by
    simp only [changed, sampled] at hb ⊢
    cases hc : e.cpha <;> cases h <;> simp_all
    omega
  -- the engine shifts on every change tick but the first one of a `CPHA = 0` byte
  have hshift : l.spi.shifts = !(decide (i = 0) && !h && !e.cpha) := by
    have hne : (l.spi.bitCntQ != 0) = true := by
      rw [bne_iff_ne, hs.cnt]
      intro h0
      have h1 := congrArg BitVec.toNat h0
      rw [BitVec.toNat_ofNat, Nat.mod_eq_of_lt (by omega)] at h1
      simp at h1
      omega
    rw [Spi.shifts, hchg, hs.first, hh.cpha, hne]
    rfl
  have hchd' : e.changed (i + h.toNat) (!h) = e.changed i h + if l.spi.shifts then 1 else 0 := by
    rw [hshift]
    simp only [changed]
    cases hc : e.cpha <;> cases h
    all_goals simp_all
    rcases Nat.eq_zero_or_pos i with rfl | hi
    · rfl
    · rw [if_neg (by omega)]
      omega
  have hdec : ∀ c < 7, BitVec.ofNat 3 (7 - c) - 1 = BitVec.ofNat 3 (7 - (c + 1)) := by decide
  refine ⟨?_, hs.next_sck a hh ht, ?_, ?_, ?_, ?_, ?_, ?_, ?_⟩
  · simp [next, Spi.next, Spi.stateD, hsamp, hs.state]
  · simp only [next, Spi.next, hs.state, ht]
    cases hc : e.cpha <;> cases h <;> simp_all
  · simp only [next, Spi.next, hs.state, hchd', hs.shift]
    cases l.spi.shifts with
    | false => rfl
    | true => rw [if_pos rfl, if_pos rfl, List.replicate_succ', run_concat]
  · simp only [next, Spi.next, hs.state, hchd', hs.cnt]
    cases l.spi.shifts with
    | false => rfl
    | true => exact hdec _ hle
  · rw [hsmp']
    simpa [next, Spi.next, hsamp] using hs.rx
  · rw [hs.next_tgt a hh ht, hx, hcap', hs.bits, List.take_add_one, e.seen_get b hcap, hs.mosi (by omega),
      e.changed_eq]
    simp
  · rw [hs.next_tgt a hh ht, hx, hsmp', hs.moved]
    rfl
  · rwa [hsmp']

/-- A tick on which the slave moves on and the engine takes a bit that is not the last one. -/
theorem Shifting.tick_sample (hs : Shifting e ps b i h l) (hh : Held e l) (ht : l.spi.divTick = true)
    (hx : (e.cpha ^^ h) = true) (hlt : e.sampled i h < 7) :
    Shifting e ps b (i + h.toNat) (!h) (e.next l a) := by
  have hsamp : l.spi.sampleEdge = true := by rw [hs.sampleEdge hh ht, hx]
  have hshift : l.spi.shifts = false := by rw [Spi.shifts, hs.changeEdge hh ht, hx]; rfl
  have hcap' : e.captured (i + h.toNat) (!h) = e.captured i h := by
    simp only [captured]
    cases hc : e.cpha <;> cases h <;> simp_all
  have hsmp' : e.sampled (i + h.toNat) (!h) = e.sampled i h + 1 := by
    simp only [sampled]
    cases hc : e.cpha <;> cases h <;> simp_all
  have hchd' : e.changed (i + h.toNat) (!h) = e.changed i h := by rw [e.changed_eq, e.changed_eq, hcap']
  have hcnt : l.spi.bitCntQ ≠ 0#3 := by
    rw [hs.cnt, e.changed_of_sample hx]
    intro h0
    have h1 := congrArg BitVec.toNat h0
    rw [BitVec.toNat_ofNat, Nat.mod_eq_of_lt (by omega)] at h1
    simp at h1
    omega
  refine ⟨?_, hs.next_sck a hh ht, ?_, ?_, ?_, ?_, ?_, ?_, ?_⟩
  · simp [next, Spi.next, Spi.stateD, hsamp, hs.state, hcnt]
  · simp only [next, Spi.next, hs.state, ht]
    cases hc : e.cpha <;> cases h <;> simp_all
  · simpa [next, Spi.next, hs.state, hshift, hchd'] using hs.shift
  · simpa [next, Spi.next, hs.state, hshift, hchd'] using hs.cnt
  · obtain ⟨r, hr⟩ := hs.rx
    refine ⟨r, ?_⟩
    rw [hsmp', List.take_add_one, e.samples_get _ (by omega), ← hs.moved, Option.toList_some, run_concat, ← hr]
    simp [next, Spi.next, hsamp, hs.state]
  · rw [hs.next_tgt a hh ht, hx, hcap', hs.bits]
    rfl
  · rw [hs.next_tgt a hh ht, hx, hsmp', hs.moved]
    rfl
  · omega

/-- The eighth sample ends the byte. -/
theorem Shifting.tick_last (hs : Shifting e ps b i h l) (hh : Held e l) (ht : l.spi.divTick = true)
    (hx : (e.cpha ^^ h) = true) (hlt : e.sampled i h = 7) :
    (e.next l a).spi.stateQ = .done ∧ (e.next l a).spi.divCntQ = e.clkdiv ∧
      (e.next l a).spi.rxQ = e.got ps.length ∧ Rest e (ps ++ [b]) (e.next l a) := by
  have hsamp : l.spi.sampleEdge = true := by rw [hs.sampleEdge hh ht, hx]
  have hshift : l.spi.shifts = false := by rw [Spi.shifts, hs.changeEdge hh ht, hx]; rfl
  have hcnt : l.spi.bitCntQ = 0#3 := by rw [hs.cnt, e.changed_of_sample hx, hlt]
  have hsck := hs.next_sck a hh ht
  have htgt := hs.next_tgt a hh ht
  rw [hx, if_pos rfl, if_pos rfl, hs.bits] at htgt
  refine ⟨?_, ?_, ?_, ?_, ?_, ?_⟩
  · simp [next, Spi.next, Spi.stateD, hsamp, hs.state, hcnt]
  · simp [next, Spi.next, ht, hh.clkdiv]
  · obtain ⟨r, hr⟩ := hs.rx
    have h1 : (e.next l a).spi.rxQ = shiftIn l.spi.rxQ (e.miso l.tgt.moved) := by
      simp [next, Spi.next, hsamp, hs.state]
    have h2 : e.samples ps.length = (e.samples ps.length).take 7 ++ [e.miso (8 * ps.length + 7)] := by
      rw [← Option.toList_some, ← e.samples_get _ (by decide), ← List.take_add_one, List.take_of_length_le (by simp)]
    rw [h1, hr, hs.moved, hlt, ← run_concat, ← h2, got]
    exact run_congr _ _ (by simp)
  · rw [htgt, hs.moved, hlt, List.length_append]
    rfl
  · intro h0
    rw [hsck] at h0
    have hc : e.cpha = false := by
      cases hc : e.cpha <;> cases h <;> simp_all
    have hcap : e.captured i h = 8 := by
      simp only [captured, sampled] at hlt ⊢
      cases h <;> simp_all
    rw [htgt, hcap, List.take_of_length_le (by simp)]
    simp
  · intro h0
    rw [hsck] at h0
    have hc : e.cpha = true := by
      cases hc : e.cpha <;> cases h <;> simp_all
    have hcap : e.captured i h = 7 := by
      simp only [captured, sampled] at hlt ⊢
      cases h <;> simp_all
    have hmosi : (e.next l a).spi.mosi = b.getMsbD 7 := by
      have h1 := hs.mosi (by rw [e.changed_of_sample hx]; omega)
      rw [e.changed_of_sample hx, hlt] at h1
      rw [← h1, Spi.mosi, Spi.mosi]
      simp [next, Spi.next, hs.state, hshift]
    refine ⟨hc, ?_⟩
    have h8 : e.seen b = (e.seen b).take 7 ++ [b.getMsbD 7] := by
      have h1 := e.seen_get b (show 7 < 8 by decide)
      rw [hc, if_pos rfl] at h1
      rw [← Option.toList_some, ← h1, ← List.take_add_one, List.take_of_length_le (by simp)]
    rw [htgt, hcap, hmosi, List.append_assoc, ← h8]
    simp

/-! ### Between two bytes -/

variable {ls fs : List Byte}

/-- The idle engine restores SCK, which is the last edge of a `CPHA = 1` byte. -/
theorem Rest.idle (hr : Rest e ls l) (hh : Held e l) (hi : l.spi.stateQ = .idle) :
    (e.next l a).spi.sckQ = e.cpol ∧ (e.next l a).tgt = ⟨ls.flatMap e.seen, 8 * ls.length⟩ := by
  have hsck : (e.next l a).spi.sckQ = e.cpol := by simp [next, Spi.next, hi, hh.cpol]
  have htgt : (e.next l a).tgt = e.see l.tgt l.spi.sckQ e.cpol l.spi.mosi := by rw [← hsck]; rfl
  refine ⟨hsck, ?_⟩
  rw [htgt]
  by_cases h0 : l.spi.sckQ = e.cpol
  · rw [← hr.settled h0, ← hr.moved, h0]
    simp [see]
  · obtain ⟨hc, hb⟩ := hr.pending h0
    rw [← hb, ← hr.moved]
    simp [see, hc, h0]

private theorem Rest.next_idle (hr : Rest e ls l) (hh : Held e l) (hi : l.spi.stateQ = .idle) :
    Rest e ls (e.next l a) := by
  obtain ⟨hsck, htgt⟩ := hr.idle a hh hi
  exact ⟨by rw [htgt], fun _ => by rw [htgt], fun h => absurd hsck h⟩

theorem Rest.next_done (hr : Rest e ls l) (hh : Held e l) (hd : l.spi.stateQ = .done) (ht : l.spi.divTick = false) :
    (e.next l a).spi.stateQ = .idle ∧ Rest e ls (e.next l a) := by
  have hsck : (e.next l a).spi.sckQ = l.spi.sckQ := by simp [next, Spi.next, hh.enable, hd, ht]
  have hmosi : (e.next l a).spi.mosi = l.spi.mosi := by
    rw [Spi.mosi, Spi.mosi]
    simp [next, Spi.next, hd]
  have hsee : (e.next l a).tgt = l.tgt := by
    change e.see l.tgt l.spi.sckQ (e.next l a).spi.sckQ l.spi.mosi = l.tgt
    rw [hsck]
    simp [see]
  refine ⟨by simp [next, Spi.next, Spi.stateD, hd], ?_⟩
  exact ⟨hsee ▸ hr.moved, by rw [hsck, hsee]; exact hr.settled, by rw [hsck, hsee, hmosi]; exact hr.pending⟩

/-- The launch of a byte. -/
private theorem Rest.launch (hr : Rest e ls l) (hh : Held e l) (hl : l.spi.launch = true) :
    Shifting e ls l.spi.tx.head 0 false (e.next l a) := by
  have hi : l.spi.stateQ = .idle := by
    rw [Spi.launch, Bool.and_eq_true, Bool.and_eq_true, beq_iff_eq] at hl
    exact hl.1.1
  obtain ⟨hsck, htgt⟩ := hr.idle a hh hi
  have hz : e.changed 0 false = 0 ∧ e.sampled 0 false = 0 ∧ e.captured 0 false = 0 := by
    simp [changed, sampled, captured]
  refine ⟨?_, by simpa using hsck, ?_, ?_, ?_, ⟨(e.next l a).spi.rxQ, ?_⟩, ?_, ?_, ?_⟩
  · simp [next, Spi.next, Spi.stateD, hi, hl]
  · simp [next, Spi.next, hi, hl]
  · simp [next, Spi.next, hi, hl, hz.1]
  · simp [next, Spi.next, hi, hl, hz.1]
  · rw [hz.2.1, List.take_zero, run_nil]
  · rw [htgt, hz.2.2]
    simp
  · rw [htgt, hz.2.1]
    rfl
  · omega

/-! ### The run -/

/-- The byte the engine takes from the TX FIFO in a cycle. -/
def launched (l : SpiLink wt wr) : Option Byte := if l.spi.launch then some l.spi.tx.head else none

/-- The byte it has received in a cycle, whether or not there is room for it. -/
def finished (l : SpiLink wt wr) : Option Byte := if l.spi.byteDone then some l.spi.rxQ else none

/-- Where the engine is when it has launched `ls` and finished `fs`. -/
inductive Phase (e : SpiExchange) (l : SpiLink wt wr) : List Byte → List Byte → Prop
  | idle {ls : List Byte} (hi : l.spi.stateQ = .idle) (hr : Rest e ls l) :
      Phase e l ls ((List.range ls.length).map e.got)
  | shift {ps : List Byte} {b : Byte} {i : Nat} {h : Bool} (hs : Shifting e ps b i h l) :
      Phase e l (ps ++ [b]) ((List.range ps.length).map e.got)
  | done {ps : List Byte} {b : Byte} (hd : l.spi.stateQ = .done) (ht : l.spi.divCntQ = e.clkdiv)
      (hg : l.spi.rxQ = e.got ps.length)
      (hr : Rest e (ps ++ [b]) l) : Phase e l (ps ++ [b]) ((List.range ps.length).map e.got)

/-- One clock edge. -/
theorem Phase.next (hp : Phase e l ls fs) (hh : Held e l) (hdiv : e.clkdiv ≠ 0) :
    Phase e (e.next l a) (ls ++ (launched l).toList) (fs ++ (finished l).toList) := by
  cases hp with
  | idle hi hr =>
    have hf : finished l = none := by simp [finished, Spi.byteDone, hi]
    rw [hf, Option.toList_none, List.append_nil]
    cases hl : l.spi.launch with
    | false =>
      rw [launched, hl, if_neg Bool.false_ne_true, Option.toList_none, List.append_nil]
      exact .idle (by simp [SpiExchange.next, Spi.next, Spi.stateD, hi, hl]) (hr.next_idle a hh hi)
    | true =>
      rw [launched, hl, if_pos rfl]
      exact .shift (hr.launch a hh hl)
  | shift hs =>
    have hf : finished l = none := by simp [finished, Spi.byteDone, hs.state]
    have hl : launched l = none := by simp [launched, Spi.launch, hs.state]
    rw [hf, hl, Option.toList_none, List.append_nil, List.append_nil]
    cases ht : l.spi.divTick with
    | false => exact .shift (hs.hold a hh ht)
    | true =>
      rename_i ps b i h
      cases hx : e.cpha ^^ h with
      | false => exact .shift (hs.tick_change a hh ht hx)
      | true =>
        rcases Nat.lt_or_eq_of_le hs.bound with hlt | heq
        · exact .shift (hs.tick_sample a hh ht hx hlt)
        · obtain ⟨h1, h2, h3, h4⟩ := hs.tick_last a hh ht hx heq
          exact .done h1 h2 h3 h4
  | done hd ht hg hr =>
    rename_i ps b
    have hl : launched l = none := by simp [launched, Spi.launch, hd]
    have hf : finished l = some (e.got ps.length) := by simp [finished, Spi.byteDone, hd, hg]
    obtain ⟨h1, h2⟩ := hr.next_done a hh hd (by rw [Spi.divTick, ht, beq_eq_false_iff_ne]; exact hdiv)
    have := Phase.idle h1 h2
    rw [List.length_append, List.length_singleton, List.range_succ, List.map_append] at this
    rwa [hl, hf, Option.toList_none, List.append_nil]

end SpiExchange

end Yarv
