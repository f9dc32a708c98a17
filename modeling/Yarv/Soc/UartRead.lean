import Yarv.Isa.Machine
import Yarv.Periph.UartLoop
import Yarv.Soc.UartLine

/-!
# From the serial line to the program

A program that loads RXDATA only after STATUS has shown RX_READY, as `uart_getc` does, gets every byte the receiver
has queued once and in order.  Whether it does so is a condition on its own loads (`Polled`): between such a STATUS
load and the RXDATA load the FIFO can only grow, so the load finds a byte, and the device pops what it returns.
-/

namespace Yarv

open Clocked ByteMem MmioPath

namespace Uart

variable {wt wr : Nat} {q : Uart wt wr} {acc : Nat → RegAccess (BitVec 3) Bool} {tx rx : List Byte}

/-! ### What software knows of RX_READY -/

/-- What a read returns: the register and the word. -/
def readEv (q : Uart wt wr) (i : RegAccess (BitVec 3) Bool) : Option (BitVec 3 × Word) :=
  i.rd.map fun a => (a, q.read a)

/-- RX_READY as the last STATUS read has shown it; `none` once a byte is taken without knowing of one. -/
def poll : Option Bool → BitVec 3 × Word → Option Bool
  | none, _ => none
  | some ready, x =>
    if x.1 = REG_RXDATA then (if ready then some false else none)
    else if x.1 = REG_STATUS then some (x.2.getLsbD 1)
    else some ready

/-- What a list of reads leaves known. -/
def polls (l : List (BitVec 3 × Word)) : Option Bool := l.foldl poll (some false)

/-- Every RXDATA read comes after a STATUS read of its own that has shown RX_READY. -/
def Polled (l : List (BitVec 3 × Word)) : Prop := (polls l).isSome

/-- The byte of an RXDATA read. -/
def rxByte (x : BitVec 3 × Word) : Option Byte := if x.1 = REG_RXDATA then some (x.2.setWidth 8) else none

/-- The reads of the first `t` cycles. -/
def reads (q : Uart wt wr) (acc : Nat → RegAccess (BitVec 3) Bool) (t : Nat) : List (BitVec 3 × Word) :=
  logFrom readEv Uart.next q acc 0 t

private theorem polls_concat (l : List (BitVec 3 × Word)) (x : BitVec 3 × Word) :
    polls (l ++ [x]) = poll (polls l) x := by
  rw [polls, List.foldl_append]
  rfl

/-- STATUS shows whether the FIFO holds a byte. -/
private theorem status_rxReady (q : Uart wt wr) : q.status.getLsbD 1 = q.rxReady := by
  unfold status
  simp only [BitVec.getLsbD_append]
  simp

/-- A FIFO that is not popped keeps its byte. -/
private theorem rx_kept {l : List Byte} (h : q.rx.Holds l) {i : RegAccess (BitVec 3) Bool}
    (hp : q.rxFifoPop i = false) (hne : q.rx.empty = false) : (q.next i).rx.empty = false := by
  have hpush : (q.rxFifoPush i).isSome = true → l.length < 2 ^ wr ∨ false = true := by
    intro hi
    refine Or.inl (lt_of_le_of_ne h.length_le fun hfull => ?_)
    have hf : q.rx.full = true := h.full_iff.mpr hfull
    simp [rxFifoPush, hf, hp] at hi
  have hnext := h.step (fun hc => absurd hc Bool.false_ne_true) hpush
  have hrx : (q.next i).rx = q.rx.step (q.rxFifoPush i) false := by
    rw [← hp]
    rfl
  rw [← hrx, if_neg Bool.false_ne_true] at hnext
  rw [← Bool.not_eq_true, h.empty_iff] at hne
  rw [← Bool.not_eq_true, hnext.empty_iff, List.append_eq_nil_iff]
  exact fun hc => hne hc.1

private theorem not_pop {i : RegAccess (BitVec 3) Bool} (h : i.rd ≠ some REG_RXDATA) : q.rxFifoPop i = false := by
  rw [rxFifoPop, rxRead, beq_eq_false_iff_ne.mpr h, Bool.false_and]

/-- RXDATA is read where RX_READY is known, and leaves nothing known. -/
private theorem poll_rxdata {known ready : Bool} {v : Word} (h : poll (some known) (REG_RXDATA, v) = some ready) :
    known = true ∧ ready = false := by
  cases known with
  | false => cases h
  | true =>
    cases h
    exact ⟨rfl, rfl⟩

/-- What another register leaves known is right. -/
private theorem poll_known {a : BitVec 3} {known ready : Bool} (ha : a ≠ REG_RXDATA)
    (hk : known = true → q.rx.empty = false) (h : poll (some known) (a, q.read a) = some ready) (hr : ready = true) :
    q.rx.empty = false := by
  rw [poll, if_neg ha] at h
  split at h
  next hst =>
    -- STATUS: what is known is what the FIFO has shown
    obtain rfl := hst
    have hshown : (q.read REG_STATUS).getLsbD 1 = q.rxReady := status_rxReady q
    have hready : q.rxReady = true := by
      rw [← hshown]
      exact (Option.some.inj h).trans hr
    rw [rxReady, Bool.not_eq_true'] at hready
    exact hready
  next =>
    cases h
    exact hk hr

/-- The byte of an RXDATA read is the head of the FIFO. -/
private theorem rxByte_rxdata (q : Uart wt wr) : rxByte (REG_RXDATA, q.read REG_RXDATA) = some q.rx.head := by
  rw [rxByte, if_pos rfl, read, if_pos rfl]
  simp

/-- Software that polls reads what the FIFO pops, and knows of a byte only where there is one. -/
private theorem polled_run (h0 : Quiet q tx rx) (t : Nat) {ready : Bool} (hp : polls (reads q acc t) = some ready) :
    (reads q acc t).filterMap rxByte = rxPops q acc t ∧ (ready = true → (coreAt q acc t).rx.empty = false) := by
  induction t generalizing ready with
  | zero =>
    cases hp
    exact ⟨rfl, fun hc => absurd hc Bool.false_ne_true⟩
  | succ t ih =>
    have hqueue : ∃ l, (coreAt q acc t).rx.Holds l ∧ rx ++ rxPushes q acc t = rxPops q acc t ++ l := rx_run h0 t
    obtain ⟨l, hl, -⟩ := hqueue
    have hreads : reads q acc (t + 1) = reads q acc t ++ (readEv (coreAt q acc (0 + t)) (acc (0 + t))).toList :=
      logFrom_succ 0 t
    have hpops : rxPops q acc (t + 1) = rxPops q acc t ++
        (Fifo.popped (fun q => q.rx) (fun q i => q.rxFifoPop i) (coreAt q acc (0 + t)) (acc (0 + t))).toList :=
          logFrom_succ 0 t
    rw [Nat.zero_add, readEv] at hreads
    rw [Nat.zero_add, Fifo.popped] at hpops
    have hnext : coreAt q acc (t + 1) = (coreAt q acc t).next (acc t) := rfl
    cases hrd : (acc t).rd with
    | none =>
      have hpop : (coreAt q acc t).rxFifoPop (acc t) = false := by
        refine not_pop ?_
        rw [hrd]
        exact (Option.some_ne_none REG_RXDATA).symm
      rw [hrd, Option.map_none, Option.toList_none, List.append_nil] at hreads
      rw [hpop, if_neg Bool.false_ne_true, Option.toList_none, List.append_nil] at hpops
      rw [hreads] at hp
      obtain ⟨hbytes, hready⟩ := ih hp
      rw [hreads, hpops, hnext]
      exact ⟨hbytes, fun hr => rx_kept hl hpop (hready hr)⟩
    | some a =>
      rw [hrd, Option.map_some, Option.toList_some] at hreads
      rw [hreads, polls_concat] at hp
      cases hk : polls (reads q acc t) with
      | none =>
        rw [hk] at hp
        cases hp
      | some known =>
        rw [hk] at hp
        obtain ⟨hbytes, hready⟩ := ih hk
        by_cases hrx : a = REG_RXDATA
        · -- the byte is there, and the read takes it
          subst hrx
          obtain ⟨rfl, rfl⟩ := poll_rxdata hp
          have hpop : (coreAt q acc t).rxFifoPop (acc t) = true := by
            rw [rxFifoPop, rxRead, hrd, rxReady, hready rfl]
            rfl
          rw [hpop, if_pos rfl, Option.toList_some] at hpops
          refine ⟨?_, fun hc => absurd hc Bool.false_ne_true⟩
          rw [hreads, hpops, List.filterMap_append, hbytes, List.filterMap_cons_some (rxByte_rxdata _),
            List.filterMap_nil]
        · have hpop : (coreAt q acc t).rxFifoPop (acc t) = false :=
            not_pop fun hc => hrx (Option.some.inj (hrd.symm.trans hc))
          rw [hpop, if_neg Bool.false_ne_true, Option.toList_none, List.append_nil] at hpops
          have hbyte : rxByte (a, (coreAt q acc t).read a) = none := if_neg hrx
          refine ⟨?_, fun hr => ?_⟩
          · rw [hreads, hpops, List.filterMap_append, hbytes, List.filterMap_cons_none hbyte, List.filterMap_nil,
              List.append_nil]
          · rw [hnext]
            exact rx_kept hl hpop (poll_known hrx hready hp hr)

/-- A read pops one byte at most. -/
private theorem readEv_of_popped (q : Uart wt wr) (i : RegAccess (BitVec 3) Bool)
    (h : (Fifo.popped (fun q : Uart wt wr => q.rx) (fun q i => q.rxFifoPop i) q i).isSome = true) :
    (readEv q i).isSome = true := by
  unfold Fifo.popped at h
  split at h
  next hp =>
    have hpop : q.rxFifoPop i = true := hp
    rw [rxFifoPop, rxRead, Bool.and_eq_true, beq_iff_eq] at hpop
    rw [readEv, hpop.1]
    rfl
  next => cases h

end Uart

namespace TopModule

variable {s : TopModule} {img : Nat → BitVec 64} {rf : RegFile} {a : Arch} {tx rx : List Byte}

/-! ### The reads of the accesses -/

/-- The word an answer carries. -/
def respWord : MmioResp → Option Word
  | .ack => none
  | .data v => some v

/-- The register of the UART an access reads, and the word it gets. -/
def uartRead (y : Exchange) : Option (BitVec 3 × Word) :=
  if !y.1.write && window y.1.addr == some W_UART then (respWord y.2).map fun v =>
    (y.1.addr.extractLsb' 2 3, v) else none

/-- A store reads nothing. -/
private theorem uartRead_store {y : Exchange} (h : y.1.write = true) : uartRead y = none := by
  rw [uartRead, h, Bool.not_true, Bool.false_and, if_neg Bool.false_ne_true]

/-- The UART is read by the request that is performed. -/
private theorem readEv_uartIn (c : ∀ k, (slot k).State) (i : SeqIn windows fun k => (slot k).Pins) :
    Uart.readEv (c W_UART) (uartIn i) = (exchange c i).bind uartRead := by
  have hin := uartIn_target i
  obtain ⟨op, e⟩ := i
  cases op with
  | none => rfl
  | some r =>
    change _ = uartRead (r.bus, answer windows.lowest devices c e r)
    have hlow : windows.target r.addr = windows.lowest r.addr := congrFun windows_target r.addr
    refine (congrArg (Uart.readEv (c W_UART)) hin).trans ?_
    cases hwe : r.we with
    | true =>
      have hbus : r.bus.write = true := hwe
      rw [uartRead_store hbus]
      by_cases hw : windows.target r.addr = some W_UART
      · refine (congrArg (Uart.readEv (c W_UART)) (opAccess_write hw hwe)).trans ?_
        rfl
      · refine (congrArg (Uart.readEv (c W_UART)) (opAccess_other hw _)).trans ?_
        rfl
    | false =>
      have hbus : r.bus.write = false := hwe
      by_cases hw : windows.target r.addr = some W_UART
      · have hwin : (window r.bus.addr == some W_UART) = true := beq_iff_eq.mpr (hlow.symm.trans hw)
        have hans : answer windows.lowest devices c e r = .data ((c W_UART).read (r.addr.extractLsb' 2 3)) :=
          (congrArg (fun f => answer f devices c e r) windows_target.symm).trans (answer_read hw hwe)
        refine (congrArg (Uart.readEv (c W_UART)) (opAccess_read hw hwe)).trans ?_
        rw [uartRead, hbus, hwin, hans]
        rfl
      · have hwin : (window r.bus.addr == some W_UART) = false := beq_eq_false_iff_ne.mpr fun hc => hw (hlow.trans hc)
        refine (congrArg (Uart.readEv (c W_UART)) (opAccess_other hw _)).trans ?_
        rw [uartRead, hwin, Bool.and_false, if_neg Bool.false_ne_true]
        rfl

/-! ### Runs -/

section Run

variable (s) (inp : Nat → TopIn)

/-- The loads the program makes from the UART. -/
def loads (img : Nat → BitVec 64) (a : Arch) (t : Nat) : List (BitVec 3 × Word) :=
  (a.exchanges .pkg img (CoreMem.outsides .pkg s.cpu.view (coreInp s inp) t)).filterMap uartRead

/-- The bytes the receiver has queued. -/
def queued (t : Nat) : List Byte := Uart.rxPushes s.uart (uartAcc s inp) t

/-- What the program has read of the line in the first `t` cycles. -/
structure Delivers (img : Nat → BitVec 64) (a : Arch) (t : Nat) : Prop where
  /-- If the program polls, the bytes of its RXDATA loads are those the receiver has queued, in order and each once,
  but for those in the FIFO and one whose load has still to commit. -/
  read : Uart.Polled (loads s inp img a t) →
    ∃ rest, queued s inp t = (loads s inp img a t).filterMap Uart.rxByte ++ rest ∧ rest.length ≤ 17
  /-- What the receiver completes it queues, unless the FIFO is full and not popped: then RX_OVERRUN is set. -/
  dropped : ∀ u, (run s inp u).uart.rxFrameDone = true →
    (run s inp u).uart.rxFifoPush (uartAcc s inp u) = some (run s inp u).uart.rxEng.shiftQ ∨
      ((run s inp u).uart.rx.full = true ∧ (run s inp (u + 1)).uart.rxOverrunQ = true ∧
        (run s inp (u + 1)).uart.rx = (run s inp u).uart.rx)

variable {s inp}

/-- The reads of the UART are those of the requests that are performed. -/
private theorem reads_eq (t : Nat) : Uart.reads s.uart (uartAcc s inp) t = (asked s inp t).filterMap uartRead :=
  uart_log readEv_uartIn t

/-- The program has read what the devices had been asked for at some time, and by now they have been asked for one
word more at most. -/
private theorem exists_reads (h : s.IsReset img rf) (inp : Nat → TopIn)
    (ha : a = Arch.reset 0 rf (ofWords 4 s.cpu.dmem.mem)) (t : Nat)
    (hs : ∀ u < t, (a.after .pkg img (CoreMem.outsides .pkg s.cpu.view (coreInp s inp) u)).Regular .pkg img) :
    ∃ u, u ≤ t ∧ Uart.reads s.uart (uartAcc s inp) u = loads s inp img a t ∧
      (Uart.reads s.uart (uartAcc s inp) t).length ≤ (loads s inp img a t).length + 1 := by
  obtain ⟨c, l, e, hahead, hprogram, hdevices⟩ := (inStep_run h inp ha t hs).accesses
  have hlate : l.filterMap uartRead = [] := by
    rw [List.filterMap_eq_nil_iff]
    intro y hy
    exact uartRead_store (hahead.store y hy)
  have hloads : loads s inp img a t = c.filterMap uartRead := by
    rw [loads, hprogram, List.filterMap_append, hlate, List.append_nil]
  have hasked : asked s inp t = c ++ e := hdevices
  have hprefix : c <+: asked s inp t := by
    rw [hasked]
    exact List.prefix_append c e
  obtain ⟨u, hu, hlog⟩ := exists_logFrom_eq hprefix
  have hthen : asked s inp u = c := hlog
  refine ⟨u, hu, ?_, ?_⟩
  · rw [reads_eq, hthen, hloads]
  · have hearly : (e.filterMap uartRead).length ≤ 1 :=
      (List.length_filterMap_le _ _).trans (le_trans (Nat.le_add_left _ _) hahead.le)
    rw [reads_eq, hasked, hloads, List.filterMap_append, List.length_append]
    omega

/-- A program that polls gets the bytes of the receiver. -/
private theorem read_of_polled (h : s.IsReset img rf) (hq : s.uart.Quiet tx []) (inp : Nat → TopIn)
    (ha : a = Arch.reset 0 rf (ofWords 4 s.cpu.dmem.mem)) (t : Nat)
    (hs : ∀ u < t, (a.after .pkg img (CoreMem.outsides .pkg s.cpu.view (coreInp s inp) u)).Regular .pkg img)
    (hp : Uart.Polled (loads s inp img a t)) :
    ∃ rest, queued s inp t = (loads s inp img a t).filterMap Uart.rxByte ++ rest ∧ rest.length ≤ 17 := by
  obtain ⟨u, hu, hreads, hlen⟩ := exists_reads h inp ha t hs
  obtain ⟨known, hk⟩ := Option.isSome_iff_exists.mp hp
  rw [← hreads] at hk hlen
  obtain ⟨hbytes, -⟩ := Uart.polled_run hq u hk
  -- what has been popped since, and what is in the FIFO
  have hpops : Uart.rxPops s.uart (uartAcc s inp) u <+: Uart.rxPops s.uart (uartAcc s inp) t := logFrom_prefix 0 hu
  obtain ⟨m, hm⟩ := hpops
  have hcount : (Uart.rxPops s.uart (uartAcc s inp) t).length + (Uart.reads s.uart (uartAcc s inp) u).length ≤
      (Uart.rxPops s.uart (uartAcc s inp) u).length + (Uart.reads s.uart (uartAcc s inp) t).length :=
    logFrom_length_le Uart.readEv_of_popped 0 hu
  have hrun : ∃ l, (Uart.coreAt s.uart (uartAcc s inp) t).rx.Holds l ∧
      [] ++ Uart.rxPushes s.uart (uartAcc s inp) t = Uart.rxPops s.uart (uartAcc s inp) t ++ l := Uart.rx_run hq t
  obtain ⟨fifo, hholds, hqueue⟩ := hrun
  refine ⟨m ++ fifo, ?_, ?_⟩
  · rw [← hreads, hbytes, ← List.append_assoc, hm]
    exact hqueue
  · have hfifo := hholds.length_le
    rw [← hm, List.length_append] at hcount
    rw [List.length_append]
    omega

end Run

/-! ### A program that polls -/

/-- `lui x1, 0x10000`, and then for ever `lw x2, 8(x1)` until `andi x2, x2, 2` is not zero, and `lw x3, 4(x1)`. -/
def pollProgram : Nat → BitVec 64 := imgOf [0x0080A103100000B7#64, 0xFE010CE300217113#64, 0xFE0008E30040A183#64]

section Poll

variable {a : Arch} {o : Outside}

/-- Where the program is, when `b` is RX_READY as it knows it. -/
inductive PollAt (a : Arch) : Bool → Prop
  | start (pc : a.pc = 0) : PollAt a false
  | status {b : Bool} (pc : a.pc = 4) (base : a.regs.read 1 = UART_BASE) : PollAt a b
  | mask {b : Bool} (pc : a.pc = 8) (base : a.regs.read 1 = UART_BASE) (word : (a.regs.read 2).getLsbD 1 = b) :
      PollAt a b
  | test {b : Bool} (pc : a.pc = 12) (base : a.regs.read 1 = UART_BASE) (word : a.regs.read 2 = if b then 2 else 0) :
    PollAt a b
  | take (pc : a.pc = 16) (base : a.regs.read 1 = UART_BASE) : PollAt a true
  | back {b : Bool} (pc : a.pc = 20) (base : a.regs.read 1 = UART_BASE) : PollAt a b

/-- What an instruction of the program does when no interrupt is taken. -/
private theorem poll_effect {n : Word} {i : Isa.Instr} {e : Isa.Effect} (hpc : a.pc = n) (hn : n.getLsbD 0 = false)
    (hirq : o.irq = none) (hi : (Isa.fetch .pkg pollProgram n).instr Isa.hart = .ok i)
    (hb : (Isa.fetch .pkg pollProgram n).bytes = 4) (he : Isa.exec .pkg a o (n + 4) i = .ok e) :
    a.stepOn .pkg pollProgram o = e.apply a ∧ a.exchangeOn .pkg pollProgram o =
      ((e.access.filter (·.1 == true)).map Prod.snd).map fun r => (r, if r.write then .ack else .data o.peri) := by
  have heven : a.pc.getLsbD 0 = false := by rw [hpc, hn]
  have hout : Isa.outcome Isa.hart .pkg pollProgram a o = .ok (i, e) := by
    rw [Isa.outcome, hpc, hi, hb]
    dsimp only
    rw [he]
    rfl
  constructor
  · rw [Isa.stepOn_eq heven, Isa.step, hirq, hout]
  · rw [Arch.exchangeOn, Isa.eventOn_eq heven, Isa.event, hirq, hout]
    rfl

private theorem read_same (f : RegFile) {r : Isa.Reg} (hr : r ≠ 0) (v : Word) : (f.next true r v).read r = v := by
  rw [Core.read_next, bne_iff_ne.mpr hr, beq_self_eq_true]
  rfl

private theorem read_other (f : RegFile) {r n : Isa.Reg} (hn : n ≠ r) (v : Word) :
    (f.next true r v).read n = f.read n := by
  rw [Core.read_next, beq_eq_false_iff_ne.mpr hn, Bool.and_false, if_neg Bool.false_ne_true]

/-- A load of a register of the UART. -/
private theorem exec_load {n : Word} {rd : Isa.Reg} {imm : BitVec 12} (hbase : a.regs.read 1 = UART_BASE)
    (ha : MemSize.w.Aligned (UART_BASE + imm.signExtend 32))
    (hp : (UART_BASE + imm.signExtend 32).getLsbD periAddrBit = true) :
    Isa.exec .pkg a o n (.load .lw rd 1 imm) = .ok { Isa.write a n rd o.peri with
      access := some (true, ⟨false, UART_BASE + imm.signExtend 32, 0, 0⟩) } := by
  rw [Isa.exec, hbase, Isa.load, Isa.LoadKind.size, if_pos ha, hp, if_pos rfl]
  rfl

/-- Bit 1 of a word. -/
private theorem and_two (v : Word) : v &&& 2 = if v.getLsbD 1 then 2 else 0 := by
  have hbit : ∀ i < 32, (2 : Word).getLsbD i = decide (i = 1) := by decide
  apply BitVec.eq_of_getLsbD_eq
  intro i hi
  rw [BitVec.getLsbD_and, hbit i hi]
  by_cases h1 : i = 1
  · subst h1
    cases v.getLsbD 1 <;> rfl
  · rw [decide_eq_false h1, Bool.and_false]
    cases v.getLsbD 1
    · exact BitVec.getLsbD_zero.symm
    · exact ((hbit i hi).trans (decide_eq_false h1)).symm

/-- What the reads of a step leave known. -/
def pollOn (a : Arch) (o : Outside) (b : Bool) : Option Bool :=
  ((a.exchangeOn .pkg pollProgram o).toList.filterMap uartRead).foldl Uart.poll (some b)

private theorem uartRead_load {addr : Word} (hw : window addr = some W_UART) (v : Word) :
    uartRead (⟨false, addr, 0, 0⟩, .data v) = some (addr.extractLsb' 2 3, v) := by
  rw [uartRead, hw]
  rfl

/-- Every step goes on polling. -/
private theorem PollAt.step {b : Bool} (h : PollAt a b) (hirq : o.irq = none) :
    ∃ b', PollAt (a.stepOn .pkg pollProgram o) b' ∧ pollOn a o b = some b' ∧
      (a.stepOn .pkg pollProgram o).csr = a.csr := by
  cases h with
  | start hpc =>
    obtain ⟨hs, hx⟩ :=
      poll_effect (o := o) hpc rfl hirq (i := .lui 1 0x10000) (by decide +kernel) (by decide +kernel) rfl
    rw [hs, pollOn, hx]
    exact ⟨false, .status rfl (read_same a.regs (by decide) _), rfl, rfl⟩
  | status hpc hbase =>
    obtain ⟨hs, hx⟩ :=
      poll_effect (o := o) hpc rfl hirq (i := .load .lw 2 1 8) (by decide +kernel) (by decide +kernel)
      (exec_load hbase (by decide) (by decide))
    rw [hs, pollOn, hx]
    refine ⟨o.peri.getLsbD 1, .mask rfl ?_ ?_, ?_, rfl⟩
    · exact (read_other a.regs (r := 2) (n := 1) (by decide) _).trans hbase
    · exact congrArg (BitVec.getLsbD · 1) (read_same a.regs (by decide) _)
    · change ([(⟨false, UART_BASE + (8#12).signExtend 32, 0, 0⟩, .data o.peri)].filterMap uartRead).foldl
        Uart.poll _ = _
      rw [List.filterMap_cons, uartRead_load (by decide)]
      rfl
  | mask hpc hbase hw =>
    obtain ⟨hs, hx⟩ :=
      poll_effect (o := o) hpc rfl hirq (i := .opImm .andi 2 2 2) (by decide +kernel) (by decide +kernel) rfl
    rw [hs, pollOn, hx]
    refine ⟨b, .test rfl ?_ ?_, rfl, rfl⟩
    · exact (read_other a.regs (r := 2) (n := 1) (by decide) _).trans hbase
    · rw [← hw, ← and_two]
      exact read_same a.regs (by decide) _
  | test hpc hbase hw =>
    have hbranch : Isa.exec .pkg a o (12 + 4) (.branch .eq 2 0 0xFFC) = .ok (Isa.goto a (if b then 16 else 4)) := by
      rw [Isa.exec, Isa.Cond.holds, hw, hpc]
      cases b <;> rfl
    obtain ⟨hs, hx⟩ := poll_effect (o := o) hpc rfl hirq (by decide +kernel) (by decide +kernel) hbranch
    rw [hs, pollOn, hx]
    cases b with
    | false => exact ⟨false, .status rfl hbase, rfl, rfl⟩
    | true => exact ⟨true, .take rfl hbase, rfl, rfl⟩
  | take hpc hbase =>
    obtain ⟨hs, hx⟩ :=
      poll_effect (o := o) hpc rfl hirq (i := .load .lw 3 1 4) (by decide +kernel) (by decide +kernel)
      (exec_load hbase (by decide) (by decide))
    rw [hs, pollOn, hx]
    refine ⟨false, .back rfl ?_, ?_, rfl⟩
    · exact (read_other a.regs (r := 3) (n := 1) (by decide) _).trans hbase
    · change ([(⟨false, UART_BASE + (4#12).signExtend 32, 0, 0⟩, .data o.peri)].filterMap uartRead).foldl
        Uart.poll _ = _
      rw [List.filterMap_cons, uartRead_load (by decide)]
      rfl
  | back hpc hbase =>
    have hbranch : Isa.exec .pkg a o (20 + 4) (.branch .eq 0 0 0xFF8) = .ok (Isa.goto a 4) := by
      rw [Isa.exec, Isa.Cond.holds, hpc]
      rfl
    obtain ⟨hs, hx⟩ := poll_effect (o := o) hpc rfl hirq (by decide +kernel) (by decide +kernel) hbranch
    rw [hs, pollOn, hx]
    exact ⟨b, .status rfl hbase, rfl, rfl⟩

section Run

variable {inp : Nat → TopIn} {t : Nat}

private theorem poll_regular (a : Arch) : a.Regular .pkg pollProgram := regular_of_plain (by decide +kernel) a

/-- A line that sends a byte at the bit time of the reset; the other pads rest. -/
def pollPads (t : Nat) : TopIn := { TopIn.idle with uartRxd := Serial.level 434 (0x41#8) t }

/-- The interpreter at the start of the program. -/
def pollStart : Arch := Arch.reset 0 ⟨fun _ => 0⟩ (ofWords 4 fun _ => 0#32)

variable (inp t) in
/-- Whatever comes in at the pads, no interrupt is taken, and the program polls. -/
private theorem polls_run :
    let l := CoreMem.outsides .pkg (outOfReset pollProgram).cpu.view (coreInp (outOfReset pollProgram) inp) t
    (∀ o ∈ l, o.irq = none) ∧ (pollStart.after .pkg pollProgram l).csr = pollStart.csr ∧
      ∃ b, PollAt (pollStart.after .pkg pollProgram l) b ∧
        Uart.polls (loads (outOfReset pollProgram) inp pollProgram pollStart t) = some b := by
  induction t with
  | zero => exact ⟨fun o ho => absurd ho List.not_mem_nil, rfl, false, .start rfl, rfl⟩
  | succ t ih =>
    obtain ⟨hnone, hcsr, b, hat, hpolls⟩ := ih
    have hstep : InStep (outOfReset pollProgram) inp pollProgram pollStart (t + 1) :=
      inStep_run (outOfReset_isReset pollProgram) inp rfl (t + 1) fun _ _ => poll_regular _
    dsimp only
    unfold loads
    rw [CoreMem.outsides, logFrom_succ, Nat.zero_add]
    cases ho : CoreMem.outsideEv .pkg
        (trace (CoreMem.next .pkg) (outOfReset pollProgram).cpu.view (coreInp (outOfReset pollProgram) inp) t)
        (coreInp (outOfReset pollProgram) inp t) with
    | none =>
      rw [Option.toList_none, List.append_nil]
      exact ⟨hnone, hcsr, b, hat, hpolls⟩
    | some o =>
      have hirq : o.irq = none := by
        rw [Option.eq_none_iff_forall_not_mem]
        intro c hc
        obtain ⟨-, hmie, -⟩ := (hstep.program.interrupts t (Nat.lt_succ_self t) o c ho hc).1 c hc
        rw [hcsr] at hmie
        cases hmie
      obtain ⟨b', hat', hb', hcsr'⟩ := hat.step hirq
      rw [Option.toList_some]
      refine ⟨fun x hx => ?_, ?_, b', ?_, ?_⟩
      · rcases List.mem_append.mp hx with hx | hx
        · exact hnone x hx
        · rw [List.mem_singleton.mp hx, hirq]
      · rw [Arch.after, List.foldl_append]
        exact hcsr'.trans hcsr
      · rw [Arch.after, List.foldl_append]
        exact hat'
      · rw [Arch.exchanges_concat, List.filterMap_append, Uart.polls, List.foldl_append]
        exact (congrArg (List.foldl Uart.poll · _) hpolls).trans hb'

/-- It never halts. -/
private theorem poll_awake (inp : Nat → TopIn) (t : Nat) : ¬(run (outOfReset pollProgram) inp t).cpu.view.Halted := by
  have h := outOfReset_isReset pollProgram
  have hawake : (trace (CoreMem.next .pkg) (outOfReset pollProgram).cpu.view
      (coreInp (outOfReset pollProgram) inp) t).core.ex.wfiHaltQ = false :=
    CoreMem.awake_run ⟨h.cpu.core, h.cpu.dmem⟩ rfl _ rfl t (fun _ _ => poll_regular _) fun _ _ =>
      (word_of_plain (by decide +kernel) _).2
  rw [← view_run] at hawake
  intro hhalt
  rw [hhalt.halt] at hawake
  cases hawake

/-- Two steps of it load STATUS. -/
private theorem poll_loads {l : List Outside} (hl : 2 ≤ l.length) (hirq : ∀ o ∈ l, o.irq = none) :
    ∃ v, (Uart.REG_STATUS, v) ∈ (pollStart.exchanges .pkg pollProgram l).filterMap uartRead := by
  obtain ⟨o, l, rfl⟩ := List.exists_cons_of_length_pos (lt_of_lt_of_le Nat.zero_lt_two hl)
  rw [List.length_cons] at hl
  obtain ⟨o', l, rfl⟩ := List.exists_cons_of_length_pos (Nat.le_of_succ_le_succ hl)
  obtain ⟨hs, -⟩ := poll_effect (a := pollStart) (o := o) rfl rfl (hirq o List.mem_cons_self) (i := .lui 1 0x10000)
    (by decide +kernel) (by decide +kernel) rfl
  have hbase : (pollStart.stepOn .pkg pollProgram o).regs.read 1 = UART_BASE := by
    rw [hs]
    exact read_same pollStart.regs (by decide) _
  obtain ⟨-, hx⟩ := poll_effect (a := pollStart.stepOn .pkg pollProgram o) (o := o') (n := 4) (by rw [hs]; rfl) rfl
    (hirq o' (by simp)) (i := .load .lw 2 1 8) (by decide +kernel) (by decide +kernel)
    (exec_load hbase (by decide) (by decide))
  refine ⟨o'.peri, List.mem_filterMap.mpr ⟨(⟨false, UART_BASE + (8#12).signExtend 32, 0, 0⟩, .data o'.peri), ?_, ?_⟩⟩
  · rw [Arch.exchanges, Arch.exchanges, hx]
    exact List.mem_append_right _ (List.mem_append_left _ (List.mem_singleton_self _))
  · exact uartRead_load (by decide) _

/-- It comes to load STATUS. -/
private theorem exists_poll (inp : Nat → TopIn) :
    ∃ t v, (Uart.REG_STATUS, v) ∈ loads (outOfReset pollProgram) inp pollProgram pollStart t := by
  have hq : (outOfReset pollProgram).uart.Quiet [] [] := ⟨rfl, rfl, rfl, Fifo.holds_reset _, Fifo.holds_reset _⟩
  have hagain : ∀ t, ∃ u, t ≤ u ∧ (CoreMem.outsideEv .pkg (trace (CoreMem.next .pkg) (outOfReset pollProgram).cpu.view
      (coreInp (outOfReset pollProgram) inp) u) (coreInp (outOfReset pollProgram) inp u)).isSome = true := by
    intro t
    rcases goes_on (outOfReset_isReset pollProgram) hq inp t with ⟨u, hu, he⟩ | ⟨u, -, hhalt⟩
    · refine ⟨u, hu, CoreMem.outsideEv_isSome ?_⟩
      rw [← view_run]
      exact he
    · exact absurd (hhalt u le_rfl) (poll_awake inp u)
  obtain ⟨t, ht⟩ := exists_le_length hagain 2
  obtain ⟨v, hv⟩ := poll_loads ht (polls_run inp t).1
  exact ⟨t, v, hv⟩

end Run

end Poll

/-! ### The result -/

/-- **What comes in.**  A program that polls gets the bytes of the receiver, in order, and misses none. -/
theorem delivers (h : s.IsReset img rf) (hq : s.uart.Quiet tx []) (inp : Nat → TopIn)
    (ha : a = Arch.reset 0 rf (ofWords 4 s.cpu.dmem.mem)) (t : Nat)
    (hs : ∀ u < t, (a.after .pkg img (CoreMem.outsides .pkg s.cpu.view (coreInp s inp) u)).Regular .pkg img) :
    Delivers s inp img a t := by
  refine ⟨read_of_polled h hq inp ha t hs, fun u hd => ?_⟩
  rw [uart_run h] at hd ⊢
  rw [uart_run h]
  rcases Uart.dropped_overrun _ (uartAcc s inp u) hd with hpush | ⟨hfull, -, hover, hrx⟩
  · exact Or.inl hpush
  · exact Or.inr ⟨hfull, hover, hrx⟩

/-- The chip on the program that polls, while a byte comes in at the bit time of the reset: it loads STATUS. -/
theorem delivers_poll : ∃ t v,
    (Uart.REG_STATUS, v) ∈ loads (outOfReset pollProgram) pollPads pollProgram pollStart t ∧
      Uart.Polled (loads (outOfReset pollProgram) pollPads pollProgram pollStart t) ∧
      Delivers (outOfReset pollProgram) pollPads pollProgram pollStart t := by
  obtain ⟨t, v, hv⟩ := exists_poll pollPads
  obtain ⟨-, -, b, -, hb⟩ := polls_run pollPads t
  refine ⟨t, v, hv, Option.isSome_iff_exists.mpr ⟨b, hb⟩, ?_⟩
  exact delivers (outOfReset_isReset pollProgram) ⟨rfl, rfl, rfl, Fifo.holds_reset _, Fifo.holds_reset _⟩
    pollPads rfl t
    fun _ _ => poll_regular _

end TopModule

end Yarv
