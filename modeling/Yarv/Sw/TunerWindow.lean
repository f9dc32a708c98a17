import Yarv.Sw.TunerCic

/-!
# What the tuner analyses

The samples behind every window: the ring holds what the decimator has made of the words it was given, the counter
`tuner_dirty` counts the samples since the last clear, and a window launched late enough behind it has no hole.  The
window a reading comes from is the one launched a frame before.
-/

namespace Yarv.Tuner

open Dropping

variable {T : Bank → Bank} {mic : Nat → BitVec 24} {s : Sys}

/-! ### Windows -/

section Windows

variable (T) (mic) (s)

/-- The words of these numbers. -/
def heardBy (ns : List Nat) : List Delivery := ns.map fun n => ⟨mic n, false⟩

/-- The first sample of a window, counted from the first that was ever made. -/
def Launch.first (w : Launch) : Nat := w.fed.length / TUNER_DECIM - TUNER_N

/-- The samples of a window are the last ones the decimator has made, its outputs for the words it was given, and the
words they are made of follow each other on the bus without a hole. -/
structure Launch.Clean (w : Launch) : Prop where
  outputs : ∀ i : BitVec 10,
    (w.samples i).toInt = clamp (unbiased 3 (Tuner.samples (heardBy mic w.fed)) (w.first + i.toNat + 1))
  unbroken : ∃ a, (w.fed.drop (TUNER_DECIM * w.first)).take (TUNER_DECIM * TUNER_N) =
    List.range' a (TUNER_DECIM * TUNER_N)

/-- The DATA page shows the transform of a clean window. -/
def Sound : Prop :=
  ∃ w, s.launches[1]? = some w ∧ s.fft.cpu = T (windowed w.samples) ∧ w.Clean mic

/-- The window was launched with `tuner_dirty` at zero, and for long enough: the words that were pending at the last
clear have left it too. -/
structure Launch.Ripe (w : Launch) : Prop where
  dirty : w.dirty = 0
  spare : w.pending ≤ TUNER_DECIM * (w.since - TUNER_N)

/-- The variables a word leaves to the next ones; the others are diagnostics and the count of `tuner_dirty`. -/
def Vars.chain (v : Vars) : Vars := { v with dirty := 0, rawMin := 0, rawMax := 0, frameOvr := false, ovrCount := 0 }

/-- The chain that was given these words from the start. -/
def fedBy (ns : List Nat) : Vars := (heardBy mic ns).foldl (fun v d => tuner_push_input v d.input) statics

/-- The chain is as the words it was given have left it. -/
def Fed (v : Vars) (ns : List Nat) : Prop := v.chain = (fedBy mic ns).chain

/-- The program before `i2s_flush`: the console and the splash have drained what they liked, and what is queued is
left over from then; nothing is launched yet. -/
structure Boot : Prop where
  pc : s.pc = .flushTest
  fed : Fed mic s.v s.line.taken
  settled : s.line.Settled
  queued : ∀ x ∈ s.line.queue, x.2 = received mic x.1
  busy : s.fft.busy = false
  launches : s.launches = []

end Windows

/-! ### The chain and its words -/

private theorem push_input_chain (v : Vars) (x : Word) :
    (tuner_push_input v x).chain = (tuner_push_input v.chain x).chain := by
  unfold tuner_push_input Vars.chain Vars.emits
  dsimp only
  split <;> rfl

private theorem push_input_dirty (v : Vars) (x : Word) : (tuner_push_input v x).dirty =
    if v.emits then (if v.dirty ≠ 0 then v.dirty - 1 else v.dirty) else v.dirty := by
  unfold tuner_push_input Vars.emits
  dsimp only
  split <;> rfl

private theorem Fed.of_chain {v v' : Vars} {ns : List Nat} (h : Fed mic v ns) (he : v'.chain = v.chain) :
    Fed mic v' ns := he.trans h

private theorem Fed.push {v : Vars} {ns : List Nat} (h : Fed mic v ns) (n : Nat) :
    Fed mic (tuner_push_input v ((received mic n).sshiftRight TUNER_IN_SHIFT)) (ns ++ [n]) := by
  have hlast : fedBy mic (ns ++ [n]) =
      tuner_push_input (fedBy mic ns) ((received mic n).sshiftRight TUNER_IN_SHIFT) := by
    rw [fedBy, heardBy, List.map_append, List.foldl_append]
    rfl
  rw [Fed, hlast, push_input_chain, h, ← push_input_chain]

private theorem Chained.of_chain {r n : ℕ} {x : ℕ → ℤ} {v v' : Vars} (h : Chained r x n v) (he : v'.chain = v.chain) :
    Chained r x n v' where
  value := (congrArg (fun v => v.dcX1.toInt) he).trans h.value
  state := (congrArg (fun v => v.dcY.toInt) he).trans h.state
  ringPos := (congrArg Vars.ringPos he).trans h.ringPos
  ring k hk hN := (congrArg (fun v => (v.ring (BitVec.ofNat 10 k)).toInt) he).trans (h.ring k hk hN)
  filter := by
    have hf : v'.chain.filter = v.chain.filter := by rw [he]
    change v'.chain.filter.Holds _ _ _ _
    rw [hf]
    exact h.filter
  phase := (congrArg Vars.cicPhase he).trans h.phase
  count := (congrArg Vars.ringCount he).trans h.count

/-- Behind every word the chain is what the decimation of the board makes of those before. -/
private theorem chained_take (all : List Delivery) {k : Nat} (hk : k ≤ all.length) :
    Chained 3 (samples all) k ((all.take k).foldl (fun v d => tuner_push_input v d.input) statics) := by
  induction k with
  | zero => exact chained_statics 3 (samples all)
  | succ k ih =>
    have hlt : k < all.length := hk
    obtain ⟨-, -, hin⟩ := next_word (List.drop_eq_getElem_cons hlt).symm
    rw [List.take_add_one, List.getElem?_eq_getElem hlt, Option.toList_some, List.foldl_append, List.foldl_cons,
      List.foldl_nil, push_input_board, hin]
    exact (ih hlt.le).push (by decide) (samples_bounds all)

private theorem Fed.chained {v : Vars} {ns : List Nat} (h : Fed mic v ns) :
    Chained 3 (samples (heardBy mic ns)) ns.length v := by
  have hall := chained_take (heardBy mic ns) le_rfl
  rw [List.take_length, heardBy, List.length_map] at hall
  exact hall.of_chain h

/-- The decimator groups the words by eights. -/
structure Chain (s : Sys) : Prop where
  phase : s.v.cicPhase = BitVec.ofNat 32 (s.line.taken.length % TUNER_DECIM)
  count : s.v.ringCount = BitVec.ofNat 32 s.made
  pos : s.v.ringPos = BitVec.ofNat 10 s.made

private theorem Fed.chain (h : Fed mic s.v s.line.taken) : Chain s :=
  ⟨h.chained.phase, h.chained.count, h.chained.ringPos⟩

/-- `tuner_dirty` counts the samples down from the last clear. -/
structure Counted (s : Sys) : Prop where
  dirty : s.v.dirty.toNat = TUNER_N - (s.made - s.clearedAt / TUNER_DECIM)
  cleared : s.clearedAt ≤ s.line.taken.length

private theorem emits_iff (h : Chain s) : s.v.emits = true ↔ s.line.taken.length % TUNER_DECIM = 7 := by
  have hlt : s.line.taken.length % TUNER_DECIM < 8 := Nat.mod_lt _ (by decide)
  rw [Vars.emits, h.phase]
  generalize s.line.taken.length % TUNER_DECIM = r at hlt
  revert r
  decide

theorem made_eq (s : Sys) : TUNER_DECIM * s.made + s.line.taken.length % TUNER_DECIM = s.line.taken.length :=
  Nat.div_add_mod _ _

section Push

variable {n : Nat} {x : Word} {q : List (Nat × Word)}

theorem push_taken (hq : s.line.queue = (n, x) :: q) : s.push.line.taken = s.line.taken ++ [n] := by
  simp [Sys.push, hq, Line.take]

theorem push_line (hq : s.line.queue = (n, x) :: q) : s.push.line = s.line.take := by simp [Sys.push, hq]

private theorem push_v (hq : s.line.queue = (n, x) :: q) :
    s.push.v = tuner_push_input s.v (x.sshiftRight TUNER_IN_SHIFT) := by simp [Sys.push, hq]

/-- A push that completes a group makes a sample of it. -/
private theorem push_made (h : Chain s) (hq : s.line.queue = (n, x) :: q) :
    s.push.made = if s.v.emits then s.made + 1 else s.made := by
  have hlen : s.push.line.taken.length = s.line.taken.length + 1 := by
    rw [push_taken hq, List.length_append]
    rfl
  have he := emits_iff h
  rw [Sys.made, Sys.made, hlen]
  unfold TUNER_DECIM at he ⊢
  split
  · rename_i hemit
    have := he.mp hemit
    omega
  · rename_i hopen
    have := mt he.mpr hopen
    omega

private theorem Counted.push (h : Counted s) (hc : Chain s) (hq : s.line.queue = (n, x) :: q) : Counted s.push := by
  have hcl : s.push.clearedAt = s.clearedAt := by simp [Sys.push, hq]
  have hlen : s.push.line.taken.length = s.line.taken.length + 1 := by
    rw [push_taken hq, List.length_append]
    rfl
  refine ⟨?_, by rw [hcl, hlen]; exact Nat.le_succ_of_le h.cleared⟩
  rw [hcl, push_v hq, push_input_dirty, push_made hc hq]
  cases he : s.v.emits with
  | false =>
    rw [if_neg Bool.false_ne_true, if_neg Bool.false_ne_true]
    exact h.dirty
  | true =>
    rw [if_pos rfl, if_pos rfl]
    have hle : s.clearedAt / TUNER_DECIM ≤ s.made := Nat.div_le_div_right h.cleared
    have hdirty := h.dirty
    by_cases h0 : s.v.dirty = 0
    · rw [if_neg (not_not.mpr h0), h0]
      rw [h0] at hdirty
      change 0 = _ at hdirty
      change 0 = _
      omega
    · rw [if_pos h0]
      have hpos : s.v.dirty.toNat ≠ 0 := fun hz => h0 (BitVec.eq_of_toNat_eq hz)
      rw [BitVec.toNat_sub_of_le (by rw [BitVec.le_def]; change 1 ≤ _; omega)]
      change _ - 1 = _
      omega

end Push

/-! ### The invariant -/

/-- The buffer the engine owns is that of the last launch, as it was filled or as the engine has left it. -/
structure Engine (T : Bank → Bank) (s : Sys) : Prop where
  done : s.fft.done = true → s.fft.busy = false
  owned : ∀ w, s.launches.head? = some w →
    s.fft.eng = if s.fft.busy then windowed w.samples else T (windowed w.samples)
  fresh : s.launches = [] → s.fft.busy = false

/-- What holds at every point of the program. -/
structure Core (T : Bank → Bank) (mic : Nat → BitVec 24) (s : Sys) : Prop where
  settled : s.line.Settled
  queued : ∀ x ∈ s.line.queue, x.2 = received mic x.1
  fed : Fed mic s.v s.line.taken
  engine : Engine T s
  clean : ∀ w ∈ s.launches, w.Ripe → w.Clean mic

theorem Core.chain (h : Core T mic s) : Chain s := h.fed.chain

/-- What holds from `i2s_flush` on. -/
structure Streaming (s : Sys) : Prop where
  counted : Counted s
  whole : s.line.Whole

/-- The words at each point: outside `tuner_drain` no word behind an unnoticed hole has been pushed, and before the
next check none is. -/
def Flow (s : Sys) : Prop :=
  match s.pc with
  | .flushTest | .flushPop | .flushClear => True
  | .drain _ _ => Streaming s
  | .pump _ _ .check | .pump _ _ .clear => Streaming s ∧ s.line.Ahead 0
  | _ => Streaming s ∧ s.line.Ahead 1

/-- The DATA page shows the transform of the window launched a frame before. -/
def Shows (T : Bank → Bank) (s : Sys) : Prop :=
  ∃ w, s.launches[1]? = some w ∧ s.fft.cpu = T (windowed w.samples)

/-- `tuner_fill_fft` before round `i`. -/
structure Filling (v : Vars) (cpu : Bank) (i : Nat) (r : BitVec 10) (w : Word) : Prop where
  round : i < TUNER_N
  index : r = v.ringPos + BitVec.ofNat 10 i
  taper : w = weight i
  stored : ∀ j < i, cpu (BitVec.ofNat 10 j) = windowed v.samples (BitVec.ofNat 10 j)

/-- Whether anything was launched before. -/
def Launched (first : Bool) (s : Sys) : Prop := if first then s.launches = [] else s.launches ≠ []

/-- The coprocessor at each point. -/
def Stage (T : Bank → Bank) (s : Sys) : Prop :=
  match s.pc with
  | .flushTest | .flushPop | .flushClear | .pump _ .prime _ => Launched true s
  | .fill first i r w => Launched first s ∧ s.fft.busy = false ∧ Filling s.v s.fft.cpu i r w
  | .startIrq first | .startCtrl first => Launched first s ∧ s.fft.busy = false ∧ s.fft.cpu = windowed s.v.samples
  | .frameCheck | .dirtyCheck | .analyse _ | .spot .discarded | .drain .discarded _ => Shows T s
  | _ => Launched false s

structure Inv (T : Bank → Bank) (mic : Nat → BitVec 24) (s : Sys) : Prop where
  core : Core T mic s
  flow : Flow s
  stage : Stage T s

private theorem Shows.launched (h : Shows T s) : Launched false s := by
  obtain ⟨w, hw, -⟩ := h
  intro hnil
  rw [hnil] at hw
  cases hw

/-! ### The environment -/

private theorem arrive_taken (l : Line Word) (x : Word) :
    (l.arrive RX_FIFO_DEPTH x).taken = l.taken ∧ (l.arrive RX_FIFO_DEPTH x).whole = l.whole := by
  rw [Line.arrive]
  split
  · exact ⟨rfl, rfl⟩
  · exact ⟨rfl, rfl⟩

/-- What arrives is the next word of the microphone. -/
private theorem arrive_queued (h : ∀ x ∈ s.line.queue, x.2 = received mic x.1) :
    ∀ x ∈ (s.line.arrive RX_FIFO_DEPTH (received mic s.line.heard)).queue, x.2 = received mic x.1 := by
  rw [Line.arrive]
  split
  · exact h
  · intro x hx
    rcases List.mem_append.mp hx with hx | hx
    · exact h x hx
    · rw [List.mem_singleton.mp hx]

private theorem Counted.of_eq {s' : Sys} (h : Counted s) (hd : s'.v.dirty = s.v.dirty)
    (ht : s'.line.taken = s.line.taken) (hc : s'.clearedAt = s.clearedAt) : Counted s' := by
  have hm : s'.made = s.made := by rw [Sys.made, Sys.made, ht]
  refine ⟨?_, ?_⟩
  · rw [hd, hm, hc]; exact h.dirty
  · rw [hc, ht]; exact h.cleared

private theorem Streaming.arrive (h : Streaming s) (x : Word) :
    Streaming { s with line := s.line.arrive RX_FIFO_DEPTH x } :=
  ⟨h.counted.of_eq rfl (arrive_taken _ x).1 rfl, h.whole.arrive _ x⟩

private theorem Inv.arrive (h : Inv T mic s) :
    Inv T mic { s with line := s.line.arrive RX_FIFO_DEPTH (received mic s.line.heard) } := by
  set x := received mic s.line.heard with hx
  have hfed : Fed mic s.v (s.line.arrive RX_FIFO_DEPTH x).taken := by
    rw [(arrive_taken _ x).1]
    exact h.core.fed
  refine ⟨⟨h.core.settled.arrive _ x, arrive_queued h.core.queued, hfed, ⟨h.core.engine.done, h.core.engine.owned,
    h.core.engine.fresh⟩, h.core.clean⟩, ?_, h.stage⟩
  have hf := h.flow
  have h0 : Streaming s → s.line.Ahead 0 → (s.line.arrive RX_FIFO_DEPTH x).Ahead 0 := fun hs ha =>
    ha.arrive hs.whole (by decide) x
  have h1 : Streaming s → s.line.Ahead 1 → (s.line.arrive RX_FIFO_DEPTH x).Ahead 1 := fun hs ha =>
    ha.arrive hs.whole (by decide) x
  unfold Flow at hf ⊢
  dsimp only at hf ⊢
  split at hf
  · trivial
  · trivial
  · trivial
  · exact hf.arrive x
  · exact ⟨hf.1.arrive x, h0 hf.1 hf.2⟩
  · exact ⟨hf.1.arrive x, h0 hf.1 hf.2⟩
  · exact ⟨hf.1.arrive x, h1 hf.1 hf.2⟩

private theorem Inv.finish (h : Inv T mic s) : Inv T mic { s with fft := s.fft.finish T } := by
  cases hb : s.fft.busy with
  | false =>
    have hf : s.fft.finish T = s.fft := by rw [FftPort.finish, hb, if_neg Bool.false_ne_true]
    rw [hf]
    exact h
  | true =>
    have hf : s.fft.finish T = { s.fft with busy := false, done := true, eng := T s.fft.eng } := by
      rw [FftPort.finish, hb, if_pos rfl]
    refine ⟨⟨h.core.settled, h.core.queued, h.core.fed, ⟨?_, fun w hw => ?_, ?_⟩, h.core.clean⟩, ?_, ?_⟩
    · rw [hf]
      exact fun _ => rfl
    · have ho := h.core.engine.owned w hw
      rw [hb, if_pos rfl] at ho
      rw [hf]
      exact congrArg T ho
    · rw [hf]
      exact fun _ => rfl
    · have hfl := h.flow
      have hst : Streaming s → Streaming { s with fft := s.fft.finish T } := fun hs =>
        ⟨hs.counted.of_eq rfl rfl rfl, hs.whole⟩
      unfold Flow at hfl ⊢
      dsimp only
      split at hfl
      · trivial
      · trivial
      · trivial
      · exact hst hfl
      · exact ⟨hst hfl.1, hfl.2⟩
      · exact ⟨hst hfl.1, hfl.2⟩
      · exact ⟨hst hfl.1, hfl.2⟩
    · have hs := h.stage
      unfold Stage at hs ⊢
      dsimp only
      rw [hf]
      split at hs
      · exact hs
      · exact hs
      · exact hs
      · exact hs
      · exact absurd (hs.2.1.symm.trans hb) Bool.false_ne_true
      · exact absurd (hs.2.1.symm.trans hb) Bool.false_ne_true
      · exact absurd (hs.2.1.symm.trans hb) Bool.false_ne_true
      · exact hs
      · exact hs
      · exact hs
      · exact hs
      · exact hs
      · exact hs

/-! ### The program -/

/-- Another program point changes nothing else. -/
private theorem Core.goto (h : Core T mic s) (pc : Pc) : Core T mic { s with pc := pc } :=
  ⟨h.settled, h.queued, h.fed, ⟨h.engine.done, h.engine.owned, h.engine.fresh⟩, h.clean⟩

private theorem Streaming.goto (h : Streaming s) (pc : Pc) : Streaming { s with pc := pc } :=
  ⟨h.counted.of_eq rfl rfl rfl, h.whole⟩

/-- Variables that the chain does not depend on. -/
private theorem Core.vars (h : Core T mic s) (v : Vars) (hv : v.chain = s.v.chain) : Core T mic { s with v := v } :=
  ⟨h.settled, h.queued, h.fed.of_chain hv, ⟨h.engine.done, h.engine.owned, h.engine.fresh⟩, h.clean⟩

/-- The head of `tuner_pump`. -/
private theorem Inv.pumpHead (h : Core T mic s) (hs : Streaming s) (ha : s.line.Ahead 1) (target : Word)
    (ret : PumpRet) (hl : Launched (ret = .prime) s) : Inv T mic (s.pumpHead target ret) := by
  unfold Sys.pumpHead
  by_cases hlt : s.v.ringCount.ult target = true
  · rw [if_pos hlt]
    refine ⟨h.goto _, ⟨hs.goto _, ha⟩, ?_⟩
    cases ret with
    | prime => exact hl
    | slice k => exact hl
  · rw [if_neg hlt]
    cases ret with
    | prime =>
      have hnil : s.launches = [] := hl
      refine ⟨h.goto _, ⟨hs.goto _, ha⟩, hl, h.engine.fresh hnil,
        ⟨by decide, ?_, rfl, fun j hj => absurd hj (Nat.not_lt_zero j)⟩⟩
      exact (BitVec.add_zero _).symm
    | slice k => exact ⟨h.goto _, ⟨hs.goto _, ha⟩, hl⟩

private theorem Inv.loopHead (h : Core T mic s) (hs : Streaming s) (ha : s.line.Ahead 1) (hl : Launched false s) :
    Inv T mic s.loopHead := by
  have h' : Core T mic { s with v := { s.v with rawMin := 32767, rawMax := -32768 } } := h.vars _ rfl
  exact Inv.pumpHead h' ⟨hs.counted.of_eq rfl rfl rfl, hs.whole⟩ ha _ (.slice 0) hl

/-- The clear of the overrun flag, which starts the count again. -/
private theorem streaming_clear (h : Core T mic s) (v : Vars) (hd : v.dirty = BitVec.ofNat 32 TUNER_N) :
    Streaming { s.clear with v := v } := by
  refine ⟨⟨?_, le_rfl⟩, h.settled.whole⟩
  change v.dirty.toNat = TUNER_N - (s.made - s.made)
  rw [hd, Nat.sub_self]
  rfl

private theorem Core.clear (h : Core T mic s) (v : Vars) (hv : v.chain = s.v.chain) :
    Core T mic { s.clear with v := v } :=
    ⟨h.settled.clear, h.queued, h.fed.of_chain hv, ⟨h.engine.done, h.engine.owned, h.engine.fresh⟩, h.clean⟩

/-- A pop leaves the coprocessor alone. -/
theorem push_frame (s : Sys) : s.push.fft = s.fft ∧ s.push.launches = s.launches ∧
    s.push.clearedAt = s.clearedAt := by
  rw [Sys.push]
  cases s.line.queue with
  | nil => exact ⟨rfl, rfl, rfl⟩
  | cons x q => exact ⟨rfl, rfl, rfl⟩

private theorem Core.push (h : Core T mic s) : Core T mic s.push := by
  obtain ⟨hf, hl, -⟩ := push_frame s
  cases hq : s.line.queue with
  | nil =>
    have hs : s.push = s := by simp [Sys.push, hq]
    rwa [hs]
  | cons x q =>
    obtain ⟨n, x⟩ := x
    refine ⟨?_, ?_, ?_, ⟨?_, ?_, ?_⟩, ?_⟩
    · rw [push_line hq]; exact h.settled.take
    · rw [push_line hq]; exact fun y hy => h.queued y (List.mem_of_mem_tail hy)
    · have hx : x = received mic n := h.queued (n, x) (by rw [hq]; exact List.mem_cons_self)
      rw [push_v hq, push_taken hq, hx]
      exact h.fed.push n
    · rw [hf]; exact h.engine.done
    · rw [hf, hl]; exact h.engine.owned
    · rw [hf, hl]; exact h.engine.fresh
    · rw [hl]; exact h.clean

private theorem Streaming.push (h : Streaming s) (hc : Chain s) : Streaming s.push := by
  cases hq : s.line.queue with
  | nil =>
    have hs : s.push = s := by simp [Sys.push, hq]
    rwa [hs]
  | cons x q =>
    obtain ⟨n, x⟩ := x
    refine ⟨h.counted.push hc hq, ?_⟩
    rw [push_line hq]
    exact h.whole.take

private theorem ahead_push (h : s.line.Ahead 1) : s.push.line.Ahead 0 := by
  cases hq : s.line.queue with
  | nil =>
    have hs : s.push = s := by simp [Sys.push, hq]
    rw [hs]
    exact h.mono (by decide)
  | cons x q =>
    obtain ⟨n, x⟩ := x
    rw [push_line hq]
    exact h.take

/-! #### Acquisition -/

private theorem inv_flush (h : Inv T mic s) (more : Bool)
    (hpc : s.pc = .flushTest ∨ s.pc = .flushPop ∨ s.pc = .flushClear) :
    Inv T mic (s.cpu more) := by
  have hs := h.stage
  rcases hpc with hpc | hpc | hpc
  · simp only [Stage, hpc] at hs
    simp only [Sys.cpu, hpc]
    cases s.line.queue.isEmpty with
    | true => exact ⟨h.core.goto _, trivial, hs⟩
    | false => exact ⟨h.core.goto _, trivial, hs⟩
  · simp only [Stage, hpc] at hs
    simp only [Sys.cpu, hpc]
    refine ⟨⟨h.core.settled.discard, fun x hx => h.core.queued x (List.mem_of_mem_tail hx), h.core.fed, ?_,
      h.core.clean⟩, trivial, hs⟩
    exact ⟨h.core.engine.done, h.core.engine.owned, h.core.engine.fresh⟩
  · simp only [Stage, hpc] at hs
    simp only [Sys.cpu, hpc]
    have hcore := h.core.clear { s.v with ovrCount := 0, frameOvr := false, dirty := BitVec.ofNat 32 TUNER_N } rfl
    exact Inv.pumpHead hcore (streaming_clear h.core _ rfl) (Line.ahead_of_down rfl 1) _ .prime hs

private theorem inv_pump (h : Inv T mic s) (more : Bool) {target : Word} {ret : PumpRet} {p : PumpPc}
    (hpc : s.pc = .pump target ret p) : Inv T mic (s.cpu more) := by
  have hf := h.flow
  have hs : Launched (ret = .prime) s := by
    have hst := h.stage
    simp only [Stage, hpc] at hst
    cases ret with
    | prime => exact hst
    | slice k => exact hst
  have hstage : ∀ (s' : Sys) (p' : PumpPc), s'.pc = .pump target ret p' → s'.launches = s.launches → Stage T s' := by
    intro s' p' hp hl
    simp only [Stage, hp]
    cases ret with
    | prime => exact hl.trans hs
    | slice k =>
      change s'.launches ≠ []
      rw [hl]
      exact hs
  cases p with
  | wait =>
    simp only [Flow, hpc] at hf
    simp only [Sys.cpu, hpc]
    cases s.line.queue.isEmpty with
    | true => exact ⟨h.core.goto _, ⟨hf.1.goto _, hf.2⟩, hstage _ .wait rfl rfl⟩
    | false => exact ⟨h.core.goto _, ⟨hf.1.goto _, hf.2⟩, hstage _ .pop rfl rfl⟩
  | pop =>
    simp only [Flow, hpc] at hf
    simp only [Sys.cpu, hpc]
    refine ⟨h.core.push.goto _, ⟨(hf.1.push h.core.chain).goto _, ahead_push hf.2⟩, hstage _ .check rfl ?_⟩
    exact (push_frame s).2.1
  | check =>
    simp only [Flow, hpc] at hf
    simp only [Sys.cpu, hpc]
    cases ho : s.line.ovr with
    | true => exact ⟨h.core.goto _, ⟨hf.1.goto _, hf.2⟩, hstage _ .clear rfl rfl⟩
    | false => exact Inv.pumpHead h.core hf.1 (Line.ahead_of_down ho 1) target ret hs
  | clear =>
    simp only [Sys.cpu, hpc]
    exact Inv.pumpHead (h.core.clear s.v.overrun rfl) (streaming_clear h.core s.v.overrun rfl)
      (Line.ahead_of_down rfl 1) target ret hs

/-! #### Display and console -/

/-- What a stretch of display or console keeps of the coprocessor. -/
def Shown (T : Bank → Bank) (a : Spot) (s : Sys) : Prop :=
  match a with
  | .discarded => Shows T s
  | _ => Launched false s

private theorem stage_spot {a : Spot} (hpc : s.pc = .spot a) : Stage T s ↔ Shown T a s := by
  cases a with
  | anim k | stalled | discarded | report => simp only [Stage, hpc, Shown]

private theorem stage_drain {a : Spot} {p : DrainPc} (hpc : s.pc = .drain a p) : Stage T s ↔ Shown T a s := by
  cases a with
  | anim k | stalled | discarded | report => simp only [Stage, hpc, Shown]

private theorem Shown.of_eq {a : Spot} {s' : Sys} (h : Shown T a s) (hf : s'.fft = s.fft)
    (hl : s'.launches = s.launches) :
    Shown T a s' := by
  cases a with
  | anim k | stalled | report =>
    change s'.launches ≠ []
    rw [hl]
    exact h
  | discarded =>
    obtain ⟨w, hw, hc⟩ := h
    exact ⟨w, by rw [hl]; exact hw, by rw [hf]; exact hc⟩

private theorem inv_spot (h : Inv T mic s) (more : Bool) {a : Spot} (hpc : s.pc = .spot a) :
    Inv T mic (s.cpu more) := by
  have hf := h.flow
  have hs := (stage_spot hpc).mp h.stage
  simp only [Flow, hpc] at hf
  simp only [Sys.cpu, hpc]
  cases more with
  | true =>
    rw [if_pos rfl]
    exact ⟨h.core.goto _, hf.1.goto _, (stage_drain rfl).mpr (hs.of_eq rfl rfl)⟩
  | false =>
    rw [if_neg Bool.false_ne_true]
    cases a with
    | anim k =>
      rw [Sys.leave]
      by_cases hk : k + 1 < TUNER_ANIM_STEPS
      · rw [if_pos hk]
        exact Inv.pumpHead h.core hf.1 hf.2 _ (.slice (k + 1)) hs
      · rw [if_neg hk]
        exact ⟨h.core.goto _, ⟨hf.1.goto _, hf.2⟩, hs⟩
    | stalled => exact Inv.loopHead h.core hf.1 hf.2 hs
    | discarded => exact ⟨h.core.goto _, ⟨hf.1.goto _, hf.2⟩, hs⟩
    | report => exact Inv.loopHead h.core hf.1 hf.2 hs

private theorem inv_drain (h : Inv T mic s) (more : Bool) {a : Spot} {p : DrainPc} (hpc : s.pc = .drain a p) :
    Inv T mic (s.cpu more) := by
  have hf := h.flow
  have hs := (stage_drain hpc).mp h.stage
  simp only [Flow, hpc] at hf
  have hgoto : ∀ p', Inv T mic { s with pc := .drain a p' } := fun p' =>
    ⟨h.core.goto _, hf.goto _, (stage_drain rfl).mpr (hs.of_eq rfl rfl)⟩
  cases p with
  | test =>
    simp only [Sys.cpu, hpc]
    exact hgoto _
  | read =>
    simp only [Sys.cpu, hpc]
    exact hgoto _
  | pop =>
    simp only [Sys.cpu, hpc]
    obtain ⟨hfft, hl, -⟩ := push_frame s
    exact ⟨h.core.push.goto _, (hf.push h.core.chain).goto _, (stage_drain rfl).mpr (hs.of_eq hfft hl)⟩
  | check =>
    simp only [Sys.cpu, hpc]
    cases ho : s.line.ovr with
    | true => exact hgoto _
    | false =>
      exact ⟨h.core.goto _, ⟨hf.goto _, Line.ahead_of_down ho 1⟩, (stage_spot rfl).mpr (hs.of_eq rfl rfl)⟩
  | clear =>
    simp only [Sys.cpu, hpc]
    refine ⟨(h.core.clear s.v.overrun rfl).goto _,
      ⟨(streaming_clear h.core s.v.overrun rfl).goto _, Line.ahead_of_down rfl 1⟩, ?_⟩
    exact (stage_spot rfl).mpr (hs.of_eq rfl rfl)

/-! #### A frame -/

private theorem windowed_word {v : Vars} {cpu : Bank} {i : Nat} {r : BitVec 10} {w : Word}
    (h : Filling v cpu i r w) {j : Nat} (hj : j < i + 1) :
    Function.update cpu (BitVec.ofNat 10 i) (fillWord i (v.ring r) w) (BitVec.ofNat 10 j) =
      windowed v.samples (BitVec.ofNat 10 j) := by
  have hi : (BitVec.ofNat 10 i).toNat = i := Nat.mod_eq_of_lt h.round
  rcases Nat.lt_succ_iff_lt_or_eq.mp hj with hj | rfl
  · have hne : BitVec.ofNat 10 j ≠ BitVec.ofNat 10 i := by
      intro hx
      have hn := congrArg BitVec.toNat hx
      have hlt := h.round
      rw [hi, BitVec.toNat_ofNat] at hn
      unfold TUNER_N at hlt
      omega
    rw [Function.update_of_ne hne, h.stored j hj]
  · rw [Function.update_self, windowed, hi, Vars.samples, ← h.index, ← h.taper]

/-- A round of `tuner_fill_fft`. -/
private theorem Filling.next {v : Vars} {cpu : Bank} {i : Nat} {r : BitVec 10} {w : Word} (h : Filling v cpu i r w)
    (hi : i + 1 < TUNER_N) :
    Filling v (Function.update cpu (BitVec.ofNat 10 i) (fillWord i (v.ring r) w)) (i + 1) (r + 1) (fillNext i w) := by
  refine ⟨hi, ?_, ?_, fun j hj => windowed_word h hj⟩
  · rw [h.index, BitVec.ofNat_add, BitVec.add_assoc]
    rfl
  · rw [h.taper]
    rfl

/-- The last round completes the buffer. -/
private theorem Filling.last {v : Vars} {cpu : Bank} {i : Nat} {r : BitVec 10} {w : Word} (h : Filling v cpu i r w)
    (hi : ¬i + 1 < TUNER_N) :
    Function.update cpu (BitVec.ofNat 10 i) (fillWord i (v.ring r) w) = windowed v.samples := by
  funext b
  have hb : b = BitVec.ofNat 10 b.toNat := (BitVec.ofNat_toNat 10 b).symm
  have hlt : b.toNat < i + 1 := lt_of_lt_of_le b.isLt (Nat.le_of_not_lt hi)
  rw [hb]
  exact windowed_word h hlt

/-- The samples of the window in the ring. -/
private theorem window_outputs (h : Core T mic s) (hN : TUNER_N ≤ s.made) (i : BitVec 10) :
    (s.window.samples i).toInt =
      clamp (unbiased 3 (samples (heardBy mic s.window.fed)) (s.window.first + i.toNat + 1)) := by
  have hi : i.toNat < TUNER_N := i.isLt
  have hslot : s.v.ringPos + i = BitVec.ofNat 10 (s.window.first + i.toNat) := by
    have hfirst : s.window.first = s.made - TUNER_N := rfl
    apply BitVec.eq_of_toNat_eq
    rw [h.chain.pos, hfirst, BitVec.toNat_add, BitVec.toNat_ofNat, BitVec.toNat_ofNat]
    unfold TUNER_N at hN hi ⊢
    omega
  have hring := h.fed.chained.ring (s.window.first + i.toNat)
  change s.made - TUNER_N + i.toNat < s.made → s.made ≤ s.made - TUNER_N + i.toNat + TUNER_N → _ at hring
  change (s.v.ring (s.v.ringPos + i)).toInt = _
  rw [hslot]
  exact hring (by omega) (by omega)

/-- A window launched late enough behind the last clear is clean. -/
private theorem window_clean (h : Core T mic s) (hs : Streaming s) (ha : s.line.Ahead 1) (hr : s.window.Ripe) :
    s.window.Clean mic := by
  have hmade := made_eq s
  have hd := hs.counted.dirty
  have h0 : s.v.dirty.toNat = 0 := by
    have hz : s.v.dirty = 0 := hr.dirty
    rw [hz]
    rfl
  have hsp : s.line.whole - TUNER_DECIM * (s.clearedAt / TUNER_DECIM) ≤
      TUNER_DECIM * (s.made - s.clearedAt / TUNER_DECIM - TUNER_N) := hr.spare
  -- the window begins behind every hole of before the last clear
  have hwhole : TUNER_N ≤ s.made ∧ s.line.whole ≤ TUNER_DECIM * (s.made - TUNER_N) := by
    unfold TUNER_DECIM at hsp hd ⊢
    unfold TUNER_N at hsp hd ⊢
    omega
  obtain ⟨a, hrun⟩ := (Line.unbroken hs.whole (ha.mono (by decide))).stretch
  refine ⟨window_outputs h hwhole.1, a + (TUNER_DECIM * (s.made - TUNER_N) - s.line.whole), ?_⟩
  refine hrun _ _ hwhole.2 ?_
  have hsum : TUNER_DECIM * (s.made - TUNER_N) + TUNER_DECIM * TUNER_N = TUNER_DECIM * s.made := by
    rw [← Nat.mul_add, Nat.sub_add_cancel hwhole.1]
  change TUNER_DECIM * (s.made - TUNER_N) + TUNER_DECIM * TUNER_N ≤ s.line.taken.length
  omega

private theorem inv_fill (h : Inv T mic s) (more : Bool) {first : Bool} {i : Nat} {r : BitVec 10} {w : Word}
    (hpc : s.pc = .fill first i r w) : Inv T mic (s.cpu more) := by
  have hf := h.flow
  have hs := h.stage
  simp only [Flow, hpc] at hf
  simp only [Stage, hpc] at hs
  simp only [Sys.cpu, hpc]
  obtain ⟨hl, hb, hfill⟩ := hs
  have hcore : ∀ pc, Core T mic { s with fft := s.fft.write i (fillWord i (s.v.ring r) w), pc := pc } := fun pc =>
    ⟨h.core.settled, h.core.queued, h.core.fed, ⟨h.core.engine.done, h.core.engine.owned,
      h.core.engine.fresh⟩, h.core.clean⟩
  have hstr : ∀ pc, Streaming { s with fft := s.fft.write i (fillWord i (s.v.ring r) w), pc := pc } := fun pc =>
    ⟨hf.1.counted.of_eq rfl rfl rfl, hf.1.whole⟩
  by_cases hi : i + 1 < TUNER_N
  · rw [if_pos hi]
    exact ⟨hcore _, ⟨hstr _, hf.2⟩, hl, hb, hfill.next hi⟩
  · rw [if_neg hi]
    exact ⟨hcore _, ⟨hstr _, hf.2⟩, hl, hb, hfill.last hi⟩

private theorem inv_startIrq (h : Inv T mic s) (more : Bool) {first : Bool} (hpc : s.pc = .startIrq first) :
    Inv T mic (s.cpu more) := by
  have hf := h.flow
  have hs := h.stage
  simp only [Flow, hpc] at hf
  simp only [Stage, hpc] at hs
  simp only [Sys.cpu, hpc]
  refine ⟨⟨h.core.settled, h.core.queued, h.core.fed, ⟨?_, h.core.engine.owned, h.core.engine.fresh⟩,
    h.core.clean⟩, ⟨⟨hf.1.counted.of_eq rfl rfl rfl, hf.1.whole⟩, hf.2⟩, hs⟩
  exact fun hd => absurd hd Bool.false_ne_true

/-- The START hands the window over and shows what the engine has made of the one before. -/
private theorem inv_startCtrl (h : Inv T mic s) (more : Bool) {first : Bool} (hpc : s.pc = .startCtrl first) :
    Inv T mic (s.cpu more) := by
  have hf := h.flow
  have hs := h.stage
  simp only [Flow, hpc] at hf
  simp only [Stage, hpc] at hs
  obtain ⟨hl, hb, hcpu⟩ := hs
  have hstart : s.fft.start = ⟨true, false, s.fft.eng, s.fft.cpu⟩ := by
    rw [FftPort.start, hb, if_neg Bool.false_ne_true]
  simp only [Sys.cpu, hpc, hb, hstart, if_neg Bool.false_ne_true]
  have hcore : ∀ pc, Core T mic
      { s with fft := ⟨true, false, s.fft.eng, s.fft.cpu⟩, launches := s.window :: s.launches, pc := pc } := by
    intro pc
    refine ⟨h.core.settled, h.core.queued, h.core.fed, ⟨?_, fun w hw => ?_, ?_⟩, fun w hw hr => ?_⟩
    · exact fun hd => absurd hd Bool.false_ne_true
    · cases hw
      exact hcpu
    · exact fun hnil => absurd hnil (List.cons_ne_nil _ _)
    · rcases List.mem_cons.mp hw with rfl | hw
      · exact window_clean h.core hf.1 hf.2 hr
      · exact h.core.clean w hw hr
  cases first with
  | true =>
    rw [if_pos rfl]
    exact Inv.loopHead (hcore _) ⟨hf.1.counted.of_eq rfl rfl rfl, hf.1.whole⟩ hf.2 (List.cons_ne_nil _ _)
  | false =>
    refine ⟨hcore _, ⟨⟨hf.1.counted.of_eq rfl rfl rfl, hf.1.whole⟩, hf.2⟩, ?_⟩
    have hne : s.launches ≠ [] := hl
    cases hls : s.launches with
    | nil => exact absurd hls hne
    | cons w ws =>
      have ho := h.core.engine.owned w (by rw [hls]; rfl)
      rw [hb, if_neg Bool.false_ne_true] at ho
      exact ⟨w, rfl, ho⟩

private theorem inv_frame (h : Inv T mic s) (more : Bool)
    (hpc : s.pc = .frameCheck ∨ s.pc = .dirtyCheck ∨ ∃ k, s.pc = .analyse k) :
    Inv T mic (s.cpu more) := by
  have hf := h.flow
  have hs := h.stage
  rcases hpc with hpc | hpc | ⟨k, hpc⟩
  · simp only [Flow, hpc] at hf
    simp only [Stage, hpc] at hs
    simp only [Sys.cpu, hpc]
    cases s.v.frameOvr with
    | true =>
      rw [if_pos rfl]
      exact ⟨(h.core.vars { s.v with frameOvr := false } rfl).goto _,
        ⟨⟨hf.1.counted.of_eq rfl rfl rfl, hf.1.whole⟩, hf.2⟩, hs⟩
    | false => exact ⟨h.core.goto _, ⟨hf.1.goto _, hf.2⟩, hs⟩
  · simp only [Flow, hpc] at hf
    simp only [Stage, hpc] at hs
    simp only [Sys.cpu, hpc]
    by_cases hd : s.v.dirty ≠ 0
    · rw [if_pos hd]
      exact Inv.loopHead h.core hf.1 hf.2 (Shows.launched hs)
    · rw [if_neg hd]
      exact ⟨h.core.goto _, ⟨hf.1.goto _, hf.2⟩, hs⟩
  · simp only [Flow, hpc] at hf
    simp only [Stage, hpc] at hs
    simp only [Sys.cpu, hpc]
    by_cases hk : k < TUNER_KHI
    · rw [if_pos hk]
      exact ⟨h.core.goto _, ⟨hf.1.goto _, hf.2⟩, hs⟩
    · rw [if_neg hk]
      exact ⟨h.core.goto _, ⟨hf.1.goto _, hf.2⟩, Shows.launched hs⟩

private theorem inv_fftWait (h : Inv T mic s) (more : Bool) {spin : Nat} (hpc : s.pc = .fftWait spin) :
    Inv T mic (s.cpu more) := by
  have hf := h.flow
  have hs := h.stage
  simp only [Flow, hpc] at hf
  simp only [Stage, hpc] at hs
  simp only [Sys.cpu, hpc]
  cases hd : s.fft.done with
  | true =>
    rw [if_pos rfl]
    refine ⟨h.core.goto _, ⟨hf.1.goto _, hf.2⟩, hs, h.core.engine.done hd, by decide, ?_, rfl, fun j hj => ?_⟩
    · exact (BitVec.add_zero _).symm
    · exact absurd hj (Nat.not_lt_zero j)
  | false =>
    rw [if_neg Bool.false_ne_true]
    by_cases hlim : FFT_SPIN_LIMIT ≤ spin + 1
    · rw [if_pos hlim]
      exact ⟨h.core.goto _, ⟨hf.1.goto _, hf.2⟩, hs⟩
    · rw [if_neg hlim]
      exact ⟨h.core.goto _, ⟨hf.1.goto _, hf.2⟩, hs⟩

/-! ### Every run -/

theorem Inv.cpu (h : Inv T mic s) (more : Bool) : Inv T mic (s.cpu more) := by
  cases hpc : s.pc with
  | flushTest => exact inv_flush h more (.inl hpc)
  | flushPop => exact inv_flush h more (.inr (.inl hpc))
  | flushClear => exact inv_flush h more (.inr (.inr hpc))
  | pump target ret p => exact inv_pump h more hpc
  | spot a => exact inv_spot h more hpc
  | drain a p => exact inv_drain h more hpc
  | fftWait spin => exact inv_fftWait h more hpc
  | fill first i r w => exact inv_fill h more hpc
  | startIrq first => exact inv_startIrq h more hpc
  | startCtrl first => exact inv_startCtrl h more hpc
  | frameCheck => exact inv_frame h more (.inl hpc)
  | dirtyCheck => exact inv_frame h more (.inr (.inl hpc))
  | analyse k => exact inv_frame h more (.inr (.inr ⟨k, hpc⟩))

theorem Inv.step (h : Inv T mic s) {s' : Sys} (hs : Step T mic s s') : Inv T mic s' := by
  cases hs with
  | arrive => exact h.arrive
  | finish => exact h.finish
  | cpu more => exact h.cpu more

theorem inv_boot (h : Boot mic s) : Inv T mic s := by
  refine ⟨⟨h.settled, h.queued, h.fed, ⟨fun _ => h.busy, fun w hw => ?_, fun _ => h.busy⟩, fun w hw => ?_⟩, ?_, ?_⟩
  · rw [h.launches] at hw
    cases hw
  · rw [h.launches] at hw
    cases hw
  · simp only [Flow, h.pc]
  · simp only [Stage, h.pc]
    exact h.launches

theorem Reaches.inv {s₀ : Sys} (hb : Boot mic s₀) (h : Reaches T mic s₀ s) : Inv T mic s := by
  induction h with
  | refl => exact inv_boot hb
  | tail _ hs ih => exact ih.step hs

end Yarv.Tuner
