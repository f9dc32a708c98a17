import Yarv.Bus.AxiPath
import Yarv.Periph.FftSlave

/-!
# `axi4_lite_fft` as a register slave

The FFT answers a DATA read from the output register of a memory and lets a read wait behind a write that commits,
which no register slave does.  With reads alone on the bus it acts as the register slave whose `rdata_mux` looks into
the buffer the CPU owns.
-/

namespace Yarv

/-- What stands behind the port. -/
def Fft.device {m : Nat} (rom : BitVec m → Word) : RegDevice (BitVec 11) (Fft m) Unit where
  sel := FftSlave.sel
  hold _ _ := false
  read q _ a := if a.getLsbD 10 then q.cpuBuf.mem (a.setWidth (m + 1)) else q.regRead (a.setWidth 3)
  next := Fft.next rom

namespace FftSlave

variable {m : Nat} (rom : BitVec m → Word)

/-- The device on the bus. -/
def slave : AxiSlave (FftSlave m) Unit where
  axi := axi
  next s i _ := s.next rom i

/-- The FFT and the register slave: the same flops, and the same word when one is there to be read. -/
structure Like (f : FftSlave m) (r : RegSlave (BitVec 11) (Fft m)) : Prop where
  core : f.core = r.core
  awSeen : f.port.awSeenQ = r.port.awSeenQ
  wSeen : f.port.wSeenQ = r.port.wSeenQ
  awaddr : f.port.awaddrWordQ = r.port.awaddrWordQ
  wdata : f.port.wdataQ = r.port.wdataQ
  wstrb : f.port.wstrbQ = r.port.wstrbQ
  bvalid : f.port.bvalidQ = r.port.bvalidQ
  rvalid : f.port.rvalidQ = r.port.rvalidQ
  csr : r.port.rvalidQ = true → f.rdIsDataQ = false → f.port.rdataQ = r.port.rdataQ
  data : r.port.rvalidQ = true → f.rdIsDataQ = true → Answers r.port.rdataQ f

variable {rom} {f : FftSlave m} {r : RegSlave (BitVec 11) (Fft m)} {i : AxiM}

/-! ### Handshakes -/

variable (rom)

private theorem Like.awHs (h : Like f r) : f.awHs i = r.awHs (Fft.device rom) i := by
  unfold FftSlave.awHs RegSlave.awHs Axi.awHs RegSlave.axi
  rw [h.awSeen, h.bvalid]
  exact congrArg (i.awvalid && ·) (Bool.and_true _).symm

private theorem Like.wHs (h : Like f r) : f.wHs i = r.wHs (Fft.device rom) i := by
  unfold FftSlave.wHs RegSlave.wHs Axi.wHs RegSlave.axi
  rw [h.wSeen, h.bvalid]

private theorem Like.bHs (h : Like f r) : f.bHs i = r.bHs (Fft.device rom) i := by
  unfold FftSlave.bHs RegSlave.bHs Axi.bHs RegSlave.axi FftSlave.axi
  rw [h.bvalid]

private theorem Like.doWrite (h : Like f r) : f.doWrite i = r.doWrite (Fft.device rom) i := by
  unfold FftSlave.doWrite RegSlave.doWrite RegSlave.awPresent RegSlave.wPresent
  rw [h.awHs rom, h.wHs rom, h.awSeen, h.wSeen, h.bvalid]
  exact (Bool.and_true _).symm

/-- Beside a read that is offered or waits no write commits. -/
private theorem Like.doWrite_false (h : Like f r) (ha : ReadAlone r.port i)
    (hr : i.arvalid = true ∨ r.port.rvalidQ = true) :
    f.doWrite i = false := by
  obtain ⟨hseen, hv⟩ := ha.write hr
  unfold FftSlave.doWrite
  rw [awHs_false hv, h.awSeen, hseen, Bool.or_false, Bool.false_and, Bool.false_and]

/-- So a read that is offered is taken as the register slave takes it. -/
private theorem Like.arready (h : Like f r) (ha : ReadAlone r.port i) (hv : i.arvalid = true) :
    (f.axi i).arready = (r.axi (Fft.device rom) i).arready := by
  change ((!f.port.rvalidQ || i.rready) && !f.doWrite i) = (!r.port.rvalidQ || (r.port.rvalidQ && i.rready))
  rw [h.doWrite_false ha (Or.inl hv), h.rvalid]
  cases r.port.rvalidQ <;> cases i.rready <;> rfl

private theorem Like.arHs (h : Like f r) (ha : ReadAlone r.port i) : f.arHs i = r.arHs (Fft.device rom) i := by
  unfold FftSlave.arHs RegSlave.arHs Axi.arHs
  cases hv : i.arvalid with
  | false => rfl
  | true => exact h.arready rom ha hv

private theorem Like.access (h : Like f r) (ha : ReadAlone r.port i) :
    f.access i = r.access (Fft.device rom) ⟨i, ()⟩ := by
  unfold FftSlave.access RegSlave.access FftSlave.waddrEff FftSlave.wdataEff FftSlave.wstrbEff RegSlave.waddrEff
    RegSlave.wdataEff RegSlave.wstrbEff
  rw [h.doWrite rom, h.arHs rom ha, h.awHs rom, h.wHs rom, h.awaddr, h.wdata, h.wstrb]
  rfl

variable {rom}

/-! ### The word of a read -/

/-- The word that is there is the word of the register slave. -/
private theorem Like.rdata (h : Like f r) (hv : r.port.rvalidQ = true) : (f.axi i).rdata = r.port.rdataQ := by
  cases hd : f.rdIsDataQ with
  | true => exact (h.data hv hd).axi.2
  | false =>
    change (if f.rdIsDataQ then f.cpuRdData else f.port.rdataQ) = _
    rw [hd, if_neg Bool.false_ne_true]
    exact h.csr hv hd

/-- A read that waits behind the edge has just been taken, or it has waited before. -/
private theorem rvalid_next (hv : (r.portNext (Fft.device rom) i ()).rvalidQ = true) :
    r.arHs (Fft.device rom) i = true ∨ r.arHs (Fft.device rom) i = false ∧ r.port.rvalidQ = true ∧
      i.rready = false := by
  change (if r.arHs (Fft.device rom) i then true else if r.port.rvalidQ && i.rready then false else r.port.rvalidQ) =
    true at hv
  cases har : r.arHs (Fft.device rom) i with
  | true => exact Or.inl rfl
  | false =>
    rw [har, if_neg Bool.false_ne_true] at hv
    cases hr : r.port.rvalidQ with
    | false =>
      rw [hr] at hv
      cases hv
    | true =>
      rw [hr] at hv
      cases hready : i.rready with
      | true =>
        rw [hready] at hv
        cases hv
      | false => exact Or.inr ⟨rfl, rfl, rfl⟩

/-- The register slave keeps the word of a read that waits, and samples the word of one that is taken. -/
private theorem rdataQ_next : (r.portNext (Fft.device rom) i ()).rdataQ =
    if r.arHs (Fft.device rom) i then (Fft.device rom).read r.core () (sel i.araddr) else r.port.rdataQ := rfl

private theorem Like.csr_next (h : Like f r) (ha : ReadAlone r.port i)
    (hv : (r.portNext (Fft.device rom) i ()).rvalidQ = true)
    (hd : (f.next rom i).rdIsDataQ = false) : (f.portNext i).rdataQ = (r.portNext (Fft.device rom) i ()).rdataQ := by
  have har := h.arHs rom ha
  change (if f.arHs i then (sel i.araddr).getLsbD 10 else f.rdIsDataQ) = false at hd
  change (if f.arHs i then f.core.regRead ((sel i.araddr).setWidth 3) else f.port.rdataQ) = _
  rw [rdataQ_next]
  rw [har] at hd ⊢
  rcases rvalid_next hv with ht | ⟨ht, hr, -⟩
  · rw [ht, if_pos rfl] at hd ⊢
    rw [if_pos rfl, h.core]
    change _ = if (sel i.araddr).getLsbD 10 then _ else _
    rw [hd, if_neg Bool.false_ne_true]
  · rw [ht, if_neg Bool.false_ne_true] at hd ⊢
    exact h.csr hr hd

private theorem Like.data_next (h : Like f r) (ha : ReadAlone r.port i)
    (hv : (r.portNext (Fft.device rom) i ()).rvalidQ = true)
    (hd : (f.next rom i).rdIsDataQ = true) : Answers (r.portNext (Fft.device rom) i ()).rdataQ (f.next rom i) := by
  have har := h.arHs rom ha
  have hd' : (if f.arHs i then (sel i.araddr).getLsbD 10 else f.rdIsDataQ) = true := hd
  rw [rdataQ_next]
  rw [har] at hd'
  rcases rvalid_next hv with ht | ⟨ht, hr, hready⟩
  · rw [ht, if_pos rfl] at hd'
    rw [ht, if_pos rfl]
    change Answers (if (sel i.araddr).getLsbD 10 then r.core.cpuBuf.mem _ else _) _
    rw [hd', if_pos rfl, ← h.core]
    exact answers_of_arHs (har.trans ht) hd'
  · -- it has waited: nothing is accessed in this cycle
    rw [ht, if_neg Bool.false_ne_true] at hd'
    rw [ht, if_neg Bool.false_ne_true]
    have hstay : f.rHs i = false := by rw [rHs_eq, hready, Bool.and_false]
    exact (h.data hr hd').wait (h.doWrite_false ha (Or.inr hr)) (har.trans ht) hstay

/-! ### The device on the bus -/

private theorem Like.next (h : Like f r) (ha : ReadAlone r.port i) :
    Like (f.next rom i) (r.next (Fft.device rom) ⟨i, ()⟩) := by
  have haw := h.awHs rom (i := i)
  have hw := h.wHs rom (i := i)
  have hdo := h.doWrite rom (i := i)
  have hb := h.bHs rom (i := i)
  have har := h.arHs rom ha
  refine ⟨?_, ?_, ?_, ?_, ?_, ?_, ?_, ?_, fun hv hd => h.csr_next ha hv hd, fun hv hd => h.data_next ha hv hd⟩
  · change Fft.next rom f.core (f.access i) = Fft.next rom r.core (r.access (Fft.device rom) ⟨i, ()⟩)
    rw [h.core, h.access rom ha]
  · change (if f.doWrite i then false else f.port.awSeenQ || f.awHs i) = _
    rw [hdo, h.awSeen, haw]
    rfl
  · change (if f.doWrite i then false else f.port.wSeenQ || f.wHs i) = _
    rw [hdo, h.wSeen, hw]
    rfl
  · change (if f.awHs i then sel i.awaddr else f.port.awaddrWordQ) = _
    rw [haw, h.awaddr]
    rfl
  · change (if f.wHs i then i.wdata else f.port.wdataQ) = _
    rw [hw, h.wdata]
    rfl
  · change (if f.wHs i then i.wstrb else f.port.wstrbQ) = _
    rw [hw, h.wstrb]
    rfl
  · change (if f.bHs i then false else f.port.bvalidQ || f.doWrite i) = _
    rw [hb, h.bvalid, hdo]
    rfl
  · change (if f.arHs i then true else if f.port.rvalidQ && i.rready then false else f.port.rvalidQ) = _
    rw [har, h.rvalid]
    rfl

/-- The FFT acts as a register slave. -/
theorem actsAs : ActsAs (slave rom) (Fft.device rom) Like := by
  refine ⟨?_, ?_⟩
  · intro f r i h ha
    refine ⟨?_, ?_, h.bvalid, h.rvalid, h.arready rom ha, h.rdata⟩
    · change (!f.port.awSeenQ && !f.port.bvalidQ) = (!r.port.awSeenQ && !r.port.bvalidQ && true)
      rw [h.awSeen, h.bvalid, Bool.and_true]
    · change (!f.port.wSeenQ && !f.port.bvalidQ) = (!r.port.wSeenQ && !r.port.bvalidQ)
      rw [h.wSeen, h.bvalid]
  · rintro f r i ⟨⟩ h ha
    exact h.next ha

end FftSlave

end Yarv
