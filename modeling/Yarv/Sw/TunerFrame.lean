import Yarv.Sw.TunerWindow

/-!
# Frames of the tuner

Runs of the main loop while the receiver keeps up: a pump takes the words it waits for, a frame fills and launches,
and the window is what its history says.  A quiet run reads clean spectra; one stall of the display is enough for a
spectrum with a hole.  `spectrum_clean` says when a reading has none.
-/

namespace Yarv.Tuner

open Dropping

variable {T : Bank → Bank} {mic : Nat → BitVec 24} {s s' s'' : Sys}

private theorem Inv.reaches (h : Inv T mic s) (hr : Reaches T mic s s') : Inv T mic s' := by
  induction hr with
  | refl => exact h
  | tail _ hs ih => exact ih.step hs

private theorem reaches_cpu (s : Sys) (more : Bool) :
    Reaches T mic s (s.cpu more) := Relation.ReflTransGen.single (.cpu more)

private theorem reaches_arrive (s : Sys) :
    Reaches T mic s { s with line := s.line.arrive RX_FIFO_DEPTH (received mic s.line.heard) } :=
  Relation.ReflTransGen.single .arrive

private theorem reaches_finish (s : Sys) : Reaches T mic s { s with fft := s.fft.finish T } :=
  Relation.ReflTransGen.single .finish

/-! ### Quiet stretches -/

/-- From `s` to `s'` the program has taken the next `n` words and left none in the queue. -/
structure Took (n : Nat) (s s' : Sys) : Prop where
  queue : s'.line.queue = []
  ovr : s'.line.ovr = false
  heard : s'.line.heard = s.line.heard + n
  taken : s'.line.taken = s.line.taken ++ List.range' s.line.heard n
  whole : s'.line.whole = s.line.whole
  clearedAt : s'.clearedAt = s.clearedAt

/-- It has not launched anything meanwhile. -/
structure Quiet (n : Nat) (s s' : Sys) : Prop extends Took n s s' where
  launches : s'.launches = s.launches
  busy : s'.fft.busy = s.fft.busy

/-- The receiver has nothing for the program. -/
structure Calm (s : Sys) : Prop where
  queue : s.line.queue = []
  ovr : s.line.ovr = false

private theorem Took.calm {n : Nat} (h : Took n s s') : Calm s' := ⟨h.queue, h.ovr⟩

private theorem Took.trans {n m : Nat} (h : Took n s s') (h' : Took m s' s'') : Took (n + m) s s'' where
  queue := h'.queue
  ovr := h'.ovr
  heard := by rw [h'.heard, h.heard, Nat.add_assoc]
  taken := by rw [h'.taken, h.taken, h.heard, List.append_assoc, List.range'_append_1]
  whole := h'.whole.trans h.whole
  clearedAt := h'.clearedAt.trans h.clearedAt

private theorem Quiet.trans {n m : Nat} (h : Quiet n s s') (h' : Quiet m s' s'') : Quiet (n + m) s s'' :=
  ⟨h.toTook.trans h'.toTook, h'.launches.trans h.launches, h'.busy.trans h.busy⟩

private theorem Took.length {n : Nat} (h : Took n s s') : s'.line.taken.length = s.line.taken.length + n := by
  rw [h.taken, List.length_append, List.length_range']

private theorem Took.made {n : Nat} (h : Took (TUNER_DECIM * n) s s') : s'.made = s.made + n := by
  rw [Sys.made, Sys.made, h.length, Nat.add_mul_div_left _ _ (by decide)]

/-- A step that leaves the receiver alone. -/
private theorem Calm.took (h : Calm s) (hl : s'.line = s.line) (hc : s'.clearedAt = s.clearedAt) : Took 0 s s' := by
  refine ⟨?_, ?_, ?_, ?_, ?_, hc⟩
  · rw [hl, h.queue]
  · rw [hl, h.ovr]
  · rw [hl, Nat.add_zero]
  · rw [hl, List.range'_zero, List.append_nil]
  · rw [hl]

private theorem Calm.quiet (h : Calm s) (hl : s'.line = s.line) (hc : s'.clearedAt = s.clearedAt)
    (hw : s'.launches = s.launches) (hb : s'.fft.busy = s.fft.busy) : Quiet 0 s s' := ⟨h.took hl hc, hw, hb⟩

/-! ### A pump -/

/-- Where `tuner_pump` goes on when it has its samples. -/
def PumpRet.exit (s : Sys) : PumpRet → Pc
  | .prime => .fill true 0 s.v.ringPos 0
  | .slice k => .spot (.anim k)

/-- A round of `tuner_pump` that has to wait for its word. -/
private theorem pump_word {target : Word} {ret : PumpRet} (hpc : s.pc = .pump target ret .wait) (hc : Calm s) :
    ∃ s', Reaches T mic s s' ∧ Quiet 1 s s' ∧
      s'.pc = if s'.v.ringCount.ult target then .pump target ret .wait else ret.exit s' := by
  let x := received mic s.line.heard
  let s₁ : Sys := { s with line := s.line.arrive RX_FIFO_DEPTH x }
  have harr : s.line.arrive RX_FIFO_DEPTH x = { s.line with
      heard := s.line.heard + 1, queue := [(s.line.heard, x)] } := by
    rw [Line.arrive_room (by rw [hc.queue]; decide), hc.queue]
    rfl
  let s₂ : Sys := { s₁ with pc := .pump target ret .pop }
  have h₂ : s₁.cpu false = s₂ := by
    have hp : s₁.pc = .pump target ret .wait := hpc
    have hq : s₁.line.queue.isEmpty = false := by
      change (s.line.arrive RX_FIFO_DEPTH x).queue.isEmpty = false
      rw [harr]
      rfl
    simp only [Sys.cpu, hp, hq]
    rfl
  have hq₂ : s₂.line.queue = [(s.line.heard, x)] := by
    change (s.line.arrive RX_FIFO_DEPTH x).queue = _
    rw [harr]
  let s₃ : Sys := { s₂.push with pc := .pump target ret .check }
  have h₃ : s₂.cpu false = s₃ := rfl
  have hline : s₃.line = { s.line with
      heard := s.line.heard + 1, queue := [], taken := s.line.taken ++ [s.line.heard] } := by
    change s₂.push.line = _
    rw [push_line hq₂]
    change (s.line.arrive RX_FIFO_DEPTH x).take = _
    rw [harr]
    rfl
  have h₄ : s₃.cpu false = s₃.pumpHead target ret := by
    have ho : s₃.line.ovr = false := by rw [hline]; exact hc.ovr
    have hp : s₃.pc = .pump target ret .check := rfl
    simp only [Sys.cpu, hp, ho]
    rfl
  obtain ⟨hfft, hlaunch, hclear⟩ := push_frame s₂
  refine ⟨s₃.pumpHead target ret, ?_, ⟨⟨?_, ?_, ?_, ?_, ?_, ?_⟩, ?_, ?_⟩, ?_⟩
  · have hr : Reaches T mic s (((s₁.cpu false).cpu false).cpu false) :=
      ((reaches_arrive s).trans (reaches_cpu s₁ false)).trans ((reaches_cpu _ false).trans (reaches_cpu _ false))
    rwa [h₂, h₃, h₄] at hr
  · exact congrArg Line.queue hline
  · exact (congrArg Line.ovr hline).trans hc.ovr
  · exact congrArg Line.heard hline
  · exact congrArg Line.taken hline
  · change s₃.line.whole = _
    rw [hline]
  · exact hclear
  · exact hlaunch
  · exact congrArg FftPort.busy hfft
  · change (s₃.pumpHead target ret).pc = if s₃.v.ringCount.ult target then _ else _
    unfold Sys.pumpHead
    cases ret with
    | prime => rfl
    | slice k => rfl

/-- A pump takes the words that its samples are made of. -/
private theorem pump_quiet (m : Nat) : ∀ {s : Sys} {goal : Nat} {ret : PumpRet}, Inv T mic s →
    s.pc = .pump (BitVec.ofNat 32 goal) ret .wait → Calm s → goal < 2 ^ 32 →
    s.line.taken.length + (m + 1) = TUNER_DECIM * goal →
    ∃ s', Reaches T mic s s' ∧ Quiet (m + 1) s s' ∧ s'.pc = ret.exit s' := by
  induction m with
  | zero =>
    intro s goal ret h hpc hc hg hn
    obtain ⟨s', hr, hq, hpc'⟩ := pump_word hpc hc
    refine ⟨s', hr, hq, ?_⟩
    have hmade : s'.made = goal := by
      have hlen := hq.length
      rw [Sys.made, hlen, hn, Nat.mul_div_cancel_left _ (by decide)]
    rw [hpc', (h.reaches hr).core.chain.count, hmade, if_neg]
    intro hlt
    rw [BitVec.ult_iff_lt, BitVec.lt_def] at hlt
    exact lt_irrefl _ hlt
  | succ m ih =>
    intro s goal ret h hpc hc hg hn
    obtain ⟨s₁, hr, hq, hpc₁⟩ := pump_word hpc hc
    have hlen := hq.length
    have hmade : s₁.made < goal := by
      rw [Sys.made, hlen]
      exact Nat.div_lt_of_lt_mul (by omega)
    have hlt : s₁.v.ringCount.ult (BitVec.ofNat 32 goal) = true := by
      rw [(h.reaches hr).core.chain.count, BitVec.ult_iff_lt, BitVec.lt_def, BitVec.toNat_ofNat, BitVec.toNat_ofNat]
      omega
    rw [if_pos hlt] at hpc₁
    obtain ⟨s', hr', hq', hpc'⟩ := ih (h.reaches hr) hpc₁ hq.calm hg (by omega)
    exact ⟨s', hr.trans hr', by rw [Nat.add_comm]; exact hq.trans hq', hpc'⟩

/-! ### Fill and START -/

variable (mic) in
/-- The rounds of `tuner_fill_fft`. -/
private theorem fill_quiet (m : Nat) : ∀ {s : Sys} {first : Bool} {i : Nat} {r : BitVec 10} {w : Word},
    s.pc = .fill first i r w → Calm s → i + (m + 1) = TUNER_N →
    ∃ s', Reaches T mic s s' ∧ Quiet 0 s s' ∧ s'.pc = .startIrq first := by
  induction m with
  | zero =>
    intro s first i r w hpc hc hi
    refine ⟨s.cpu false, reaches_cpu s false, ?_, ?_⟩
    · simp only [Sys.cpu, hpc]
      exact hc.quiet rfl rfl rfl rfl
    · simp only [Sys.cpu, hpc]
      rw [if_neg (by omega)]
  | succ m ih =>
    intro s first i r w hpc hc hi
    have hpc₁ : (s.cpu false).pc = .fill first (i + 1) (r + 1) (fillNext i w) := by
      simp only [Sys.cpu, hpc]
      rw [if_pos (by omega)]
    have hq₁ : Quiet 0 s (s.cpu false) := by
      simp only [Sys.cpu, hpc]
      exact hc.quiet rfl rfl rfl rfl
    obtain ⟨s', hr, hq, hpc'⟩ := ih hpc₁ hq₁.calm (by omega)
    exact ⟨s', (reaches_cpu s false).trans hr, hq₁.trans hq, hpc'⟩

/-- What the history says about the window that was launched last. -/
structure Shot (s : Sys) (w : Launch) : Prop where
  fed : w.fed = s.line.taken
  dirty : w.dirty.toNat = TUNER_N - (s.made - s.clearedAt / TUNER_DECIM)
  since : w.since = s.made - s.clearedAt / TUNER_DECIM
  pending : w.pending = s.line.whole - TUNER_DECIM * (s.clearedAt / TUNER_DECIM)

/-- From `s` to `s'` the window was launched that the ring has in `s'`. -/
structure Fired (n : Nat) (s s' : Sys) (w : Launch) : Prop extends Took n s s' where
  launches : s'.launches = w :: s.launches
  busy : s'.fft.busy = true
  shot : Shot s' w

private theorem window_shot (hs : Streaming s) : Shot s s.window where
  fed := rfl
  dirty := hs.counted.dirty
  since := rfl
  pending := rfl

private theorem Shot.of_eq {w : Launch} (h : Shot s w) (hl : s'.line = s.line) (hc : s'.clearedAt = s.clearedAt) :
    Shot s' w := by
  have hm : s'.made = s.made := by rw [Sys.made, Sys.made, hl]
  refine ⟨?_, ?_, ?_, ?_⟩
  · rw [hl]; exact h.fed
  · rw [hm, hc]; exact h.dirty
  · rw [hm, hc]; exact h.since
  · rw [hl, hc]; exact h.pending

/-- The START of a buffer that has been filled. -/
private theorem startCtrl_fired (h : Inv T mic s) {first : Bool} (hpc : s.pc = .startCtrl first) (hc : Calm s) :
    ∃ w, Fired 0 s (s.cpu false) w ∧ (s.cpu false).pc =
      if first then ((s.cpu false).pump (TUNER_HOP / TUNER_ANIM_STEPS) (.slice 0)).pc else .frameCheck := by
  have hs := h.stage
  have hf := h.flow
  simp only [Stage, hpc] at hs
  simp only [Flow, hpc] at hf
  have hb : s.fft.busy = false := hs.2.1
  have hstart : s.fft.start.busy = true := by rw [FftPort.start, hb, if_neg Bool.false_ne_true]
  have hshot := window_shot hf.1
  cases first with
  | true =>
    refine ⟨s.window, ⟨hc.took ?_ ?_, ?_, ?_, hshot.of_eq ?_ ?_⟩, ?_⟩ <;> simp only [Sys.cpu, hpc, hb]
    · rfl
    · rfl
    · rfl
    · exact hstart
    · rfl
    · rfl
    · rfl
  | false =>
    refine ⟨s.window, ⟨hc.took ?_ ?_, ?_, ?_, hshot.of_eq ?_ ?_⟩, ?_⟩ <;> simp only [Sys.cpu, hpc, hb]
    · rfl
    · rfl
    · rfl
    · exact hstart
    · rfl
    · rfl
    · rfl

/-- A fill and a START launch the window in the ring. -/
private theorem fill_start (h : Inv T mic s) {first : Bool} {r : BitVec 10} (hpc : s.pc = .fill first 0 r 0)
    (hc : Calm s) :
    ∃ s' w, Reaches T mic s s' ∧ Fired 0 s s' w ∧
      s'.pc = if first then (s'.pump (TUNER_HOP / TUNER_ANIM_STEPS) (.slice 0)).pc else .frameCheck := by
  obtain ⟨s₁, hr₁, hq₁, hpc₁⟩ := fill_quiet (T := T) mic (TUNER_N - 1) hpc hc rfl
  have hpc₂ : (s₁.cpu false).pc = .startCtrl first := by simp only [Sys.cpu, hpc₁]
  have hq₂ : Quiet 0 s₁ (s₁.cpu false) := by
    simp only [Sys.cpu, hpc₁]
    exact hq₁.calm.quiet rfl rfl rfl rfl
  have hr₂ : Reaches T mic s (s₁.cpu false) := hr₁.trans (reaches_cpu s₁ false)
  have hq : Quiet (TUNER_DECIM * 0) s (s₁.cpu false) := hq₁.trans hq₂
  obtain ⟨w, hw, hpc₃⟩ := startCtrl_fired (h.reaches hr₂) hpc₂ hq.calm
  refine ⟨(s₁.cpu false).cpu false, w, hr₂.trans (reaches_cpu _ false), ⟨?_, ?_, hw.busy, hw.shot⟩, hpc₃⟩
  · exact hq.toTook.trans hw.toTook
  · rw [hw.launches, hq.launches]

/-! ### A frame -/

/-- The decimator has no open group. -/
def Aligned (s : Sys) : Prop := TUNER_DECIM * s.made = s.line.taken.length

private theorem Aligned.took {n : Nat} (h : Aligned s) (ht : Took (TUNER_DECIM * n) s s') : Aligned s' := by
  rw [Aligned, ht.made, ht.length, Nat.mul_add, h]

private theorem pump_pc (h : Inv T mic s) {n : Nat} (hn : 0 < n) (hb : s.made + n < 2 ^ 32) (ret : PumpRet) :
    (s.pump n ret).pc = .pump (BitVec.ofNat 32 (s.made + n)) ret .wait := by
  have hlt : s.v.ringCount.ult (s.v.ringCount + BitVec.ofNat 32 n) = true := by
    rw [h.core.chain.count, ← BitVec.ofNat_add, BitVec.ult_iff_lt, BitVec.lt_def, BitVec.toNat_ofNat,
      BitVec.toNat_ofNat]
    omega
  rw [Sys.pump]
  unfold Sys.pumpHead
  rw [if_pos hlt, h.core.chain.count, ← BitVec.ofNat_add]

/-- Another program point does not change where a pump begins. -/
private theorem pump_again (s : Sys) (n : Nat) (ret : PumpRet) :
    (s.pump n ret).pc = ((s.pump n ret).pump n ret).pc := rfl

/-- A slice of a frame. -/
private theorem slice_quiet (h : Inv T mic s) {k : Nat}
    (hpc : s.pc = (s.pump (TUNER_HOP / TUNER_ANIM_STEPS) (.slice k)).pc)
    (hc : Calm s) (ha : Aligned s) (hb : s.made + 64 < 2 ^ 32) :
    ∃ s', Reaches T mic s s' ∧ Quiet (TUNER_DECIM * 64) s s' ∧ s'.pc = .spot (.anim k) := by
  have hpc' : s.pc = .pump (BitVec.ofNat 32 (s.made + 64)) (.slice k) .wait := hpc.trans (pump_pc h (by decide) hb _)
  refine pump_quiet 511 h hpc' hc hb ?_
  rw [← ha, Nat.mul_add]
  rfl

/-- The slices that are left of a frame. -/
private theorem slices_quiet (j : Nat) : ∀ {s : Sys} {k : Nat}, Inv T mic s → s.pc = .spot (.anim k) →
    Calm s → Aligned s → k + j + 1 = TUNER_ANIM_STEPS → s.made + 64 * j < 2 ^ 32 →
    ∃ s', Reaches T mic s s' ∧ Quiet (TUNER_DECIM * (64 * j)) s s' ∧ s'.pc = .fftWait 0 := by
  induction j with
  | zero =>
    intro s k _ hpc hc _ hk _
    refine ⟨s.cpu false, reaches_cpu s false, ?_, ?_⟩
    · simp only [Sys.cpu, hpc, Sys.leave]
      rw [if_neg Bool.false_ne_true, if_neg (by omega)]
      exact hc.quiet rfl rfl rfl rfl
    · simp only [Sys.cpu, hpc, Sys.leave]
      rw [if_neg Bool.false_ne_true, if_neg (by omega)]
  | succ j ih =>
    intro s k h hpc hc ha hk hb
    have hcpu : s.cpu false = s.pump (TUNER_HOP / TUNER_ANIM_STEPS) (.slice (k + 1)) := by
      simp only [Sys.cpu, hpc, Sys.leave]
      rw [if_neg Bool.false_ne_true, if_pos (by omega)]
    have hq₁ : Quiet (TUNER_DECIM * 0) s (s.cpu false) := by
      rw [hcpu]
      exact hc.quiet rfl rfl rfl rfl
    have hpc₁ : (s.cpu false).pc = ((s.cpu false).pump (TUNER_HOP / TUNER_ANIM_STEPS) (.slice (k + 1))).pc := by
      rw [hcpu]
      rfl
    have hm₁ := hq₁.made
    obtain ⟨s₂, hr₂, hq₂, hpc₂⟩ := slice_quiet (h.cpu false) hpc₁ hq₁.calm (ha.took hq₁.toTook) (by omega)
    have ha₂ : Aligned s₂ := (ha.took hq₁.toTook).took hq₂.toTook
    have hm₂ := hq₂.made
    have hr : Reaches T mic s s₂ := (reaches_cpu s false).trans hr₂
    obtain ⟨s', hr', hq', hpc'⟩ := ih (h.reaches hr) hpc₂ hq₂.calm ha₂ (by omega) (by omega)
    refine ⟨s', hr.trans hr', ?_, hpc'⟩
    have hsum : TUNER_DECIM * 0 + TUNER_DECIM * 64 + TUNER_DECIM * (64 * j) = TUNER_DECIM * (64 * (j + 1)) := by ring
    rw [← hsum]
    exact (hq₁.trans hq₂).trans hq'

/-- The end of a frame: the engine is done with the window before, and the one in the ring is launched. -/
private theorem frame_end (h : Inv T mic s) (hpc : s.pc = .fftWait 0) (hc : Calm s) (hb : s.fft.busy = true) :
    ∃ s' w, Reaches T mic s s' ∧ Fired 0 s s' w ∧ s'.pc = .dirtyCheck := by
  let s₁ : Sys := { s with fft := s.fft.finish T }
  have hdone : s₁.fft.done = true := by
    change (s.fft.finish T).done = true
    rw [FftPort.finish, hb, if_pos rfl]
  have h₂ : s₁.cpu false = { s₁ with pc := .fill false 0 s₁.v.ringPos 0 } := by
    have hp : s₁.pc = .fftWait 0 := hpc
    simp only [Sys.cpu, hp, hdone]
    rfl
  have hr₂ : Reaches T mic s (s₁.cpu false) := (reaches_finish s).trans (reaches_cpu s₁ false)
  have ht₂ : Took (TUNER_DECIM * 0) s (s₁.cpu false) := by
    rw [h₂]
    exact hc.took rfl rfl
  obtain ⟨s₃, w, hr₃, hw, hpc₃⟩ := fill_start (h.reaches hr₂) (r := s₁.v.ringPos) (by rw [h₂]) ht₂.calm
  have hlaunch : s₃.launches = w :: s.launches := by rw [hw.launches, h₂]
  have hr : Reaches T mic s s₃ := hr₂.trans hr₃
  have ht : Took 0 s s₃ := ht₂.trans hw.toTook
  rw [if_neg Bool.false_ne_true] at hpc₃
  -- the message about an overrun takes one stretch of the console more
  have hcheck : ∃ s', Reaches T mic s₃ s' ∧ s'.line = s₃.line ∧ s'.clearedAt = s₃.clearedAt ∧
      s'.launches = s₃.launches ∧ s'.fft = s₃.fft ∧ s'.pc = .dirtyCheck := by
    cases ho : s₃.v.frameOvr with
    | false =>
      have h₄ : s₃.cpu false = { s₃ with pc := .dirtyCheck } := by
        simp only [Sys.cpu, hpc₃, ho]
        rfl
      exact ⟨s₃.cpu false, reaches_cpu s₃ false, by rw [h₄], by rw [h₄], by rw [h₄], by rw [h₄], by rw [h₄]⟩
    | true =>
      have h₄ : s₃.cpu false = { s₃ with v := { s₃.v with frameOvr := false }, pc := .spot .discarded } := by
        simp only [Sys.cpu, hpc₃, ho]
        rfl
      have h₅ : (s₃.cpu false).cpu false = { s₃ with v := { s₃.v with frameOvr := false }, pc := .dirtyCheck } := by
        rw [h₄]
        rfl
      have hr₅ : Reaches T mic s₃ ((s₃.cpu false).cpu false) := (reaches_cpu s₃ false).trans (reaches_cpu _ false)
      rw [h₅] at hr₅
      exact ⟨_, hr₅, rfl, rfl, rfl, rfl, rfl⟩
  obtain ⟨s', hr', hline, hclear, hl, hfft, hpc'⟩ := hcheck
  refine ⟨s', w, hr.trans hr', ⟨?_, hl.trans hlaunch, ?_, hw.shot.of_eq hline hclear⟩, hpc'⟩
  · exact ht.trans (hw.calm.took hline hclear)
  · rw [hfft, hw.busy]

/-- The program is about to pump the first slice of a frame. -/
structure AtHop (T : Bank → Bank) (mic : Nat → BitVec 24) (s : Sys) : Prop where
  inv : Inv T mic s
  pc : s.pc = (s.pump (TUNER_HOP / TUNER_ANIM_STEPS) (.slice 0)).pc
  calm : Calm s
  aligned : Aligned s
  busy : s.fft.busy = true

/-- A window has been launched, and the program tests `tuner_dirty`. -/
structure Due (T : Bank → Bank) (mic : Nat → BitVec 24) (s : Sys) : Prop where
  inv : Inv T mic s
  pc : s.pc = .dirtyCheck
  calm : Calm s
  aligned : Aligned s
  busy : s.fft.busy = true

/-- The rest of a frame from its first stretch of display on. -/
private theorem frame_rest (h : Inv T mic s) (hpc : s.pc = .spot (.anim 0)) (hc : Calm s) (ha : Aligned s)
    (hb : s.fft.busy = true) (hm : s.made + 192 < 2 ^ 32) :
    ∃ s' w, Reaches T mic s s' ∧ Fired (TUNER_DECIM * 192) s s' w ∧ Due T mic s' := by
  obtain ⟨s₁, hr₁, hq₁, hpc₁⟩ := slices_quiet 3 h hpc hc ha rfl hm
  have hm₁ := hq₁.made
  have hb₁ : s₁.fft.busy = true := hq₁.busy.trans hb
  obtain ⟨s', w, hr', hw, hpc'⟩ := frame_end (h.reaches hr₁) hpc₁ hq₁.calm hb₁
  have hr : Reaches T mic s s' := hr₁.trans hr'
  have ht : Took (TUNER_DECIM * 192) s s' := hq₁.toTook.trans hw.toTook
  refine ⟨s', w, hr, ⟨ht, ?_, hw.busy, hw.shot⟩, ⟨h.reaches hr, hpc', hw.calm, ha.took ht, hw.busy⟩⟩
  rw [hw.launches, hq₁.launches]

/-- A quiet frame. -/
private theorem AtHop.frame (h : AtHop T mic s) (hm : s.made + TUNER_HOP < 2 ^ 32) :
    ∃ s' w, Reaches T mic s s' ∧ Fired (TUNER_DECIM * TUNER_HOP) s s' w ∧ Due T mic s' := by
  unfold TUNER_HOP at hm
  obtain ⟨s₁, hr₁, hq₁, hpc₁⟩ := slice_quiet h.inv h.pc h.calm h.aligned (by omega)
  have hm₁ := hq₁.made
  have hb₁ : s₁.fft.busy = true := hq₁.busy.trans h.busy
  obtain ⟨s', w, hr', hw, hd⟩ :=
    frame_rest (h.inv.reaches hr₁) hpc₁ hq₁.calm (h.aligned.took hq₁.toTook) hb₁ (by omega)
  refine ⟨s', w, hr₁.trans hr', ⟨hq₁.toTook.trans hw.toTook, ?_, hw.busy, hw.shot⟩, hd⟩
  rw [hw.launches, hq₁.launches]

/-- While `tuner_dirty` counts, the next frame follows without a reading. -/
private theorem Due.next (h : Due T mic s) (hd : s.made - s.clearedAt / TUNER_DECIM < TUNER_N)
    (hm : s.made + TUNER_HOP < 2 ^ 32) :
    ∃ s' w, Reaches T mic s s' ∧ Fired (TUNER_DECIM * TUNER_HOP) s s' w ∧ Due T mic s' := by
  have hf := h.inv.flow
  simp only [Flow, h.pc] at hf
  have hne : s.v.dirty ≠ 0 := by
    intro h0
    have hcount := hf.1.counted.dirty
    rw [h0] at hcount
    change 0 = _ at hcount
    omega
  have hcpu : s.cpu false = s.loopHead := by
    simp only [Sys.cpu, h.pc]
    rw [if_pos hne]
  have hq : Quiet (TUNER_DECIM * 0) s (s.cpu false) := by
    rw [hcpu]
    exact h.calm.quiet rfl rfl rfl rfl
  have hhop : AtHop T mic (s.cpu false) :=
    ⟨h.inv.cpu false, by rw [hcpu]; rfl, hq.calm, h.aligned.took hq.toTook, hq.busy.trans h.busy⟩
  have hm' := hq.made
  obtain ⟨s', w, hr', hw, hd'⟩ := hhop.frame (by omega)
  refine ⟨s', w, (reaches_cpu s false).trans hr', ⟨?_, ?_, hw.busy, hw.shot⟩, hd'⟩
  · have ht := hq.toTook.trans hw.toTook
    rwa [Nat.mul_zero, Nat.zero_add] at ht
  · rw [hw.launches, hq.launches]

/-- The frames in which it counts. -/
private theorem Due.frames (j : Nat) : ∀ {s : Sys}, Due T mic s →
    s.made + TUNER_HOP * j < s.clearedAt / TUNER_DECIM + TUNER_N + TUNER_HOP → s.made + TUNER_HOP * j < 2 ^ 32 →
    ∃ s', Reaches T mic s s' ∧ Took (TUNER_DECIM * (TUNER_HOP * j)) s s' ∧ Due T mic s' := by
  induction j with
  | zero =>
    intro s h _ _
    exact ⟨s, Relation.ReflTransGen.refl, h.calm.took rfl rfl, h⟩
  | succ j ih =>
    intro s h hd hm
    rw [Nat.mul_succ] at hd hm
    have hpos : 0 < TUNER_N := by decide
    obtain ⟨s₁, w, hr₁, hw, h₁⟩ := h.next (by omega) (by omega)
    have hm₁ := hw.made
    have hc₁ := hw.clearedAt
    obtain ⟨s', hr', ht', h'⟩ := ih h₁ (by rw [hc₁]; omega) (by omega)
    refine ⟨s', hr₁.trans hr', ?_, h'⟩
    have hsum : TUNER_DECIM * TUNER_HOP + TUNER_DECIM * (TUNER_HOP * j) =
        TUNER_DECIM * (TUNER_HOP * (j + 1)) := by ring
    rw [← hsum]
    exact hw.toTook.trans ht'

/-- When the count has run out, the program reads the spectrum. -/
private theorem Due.analyse (h : Due T mic s) (hd : TUNER_N ≤ s.made - s.clearedAt / TUNER_DECIM) :
    s.cpu false = { s with pc := .analyse TUNER_KLO } := by
  have hf := h.inv.flow
  simp only [Flow, h.pc] at hf
  have h0 : s.v.dirty = 0 := by
    apply BitVec.eq_of_toNat_eq
    rw [hf.1.counted.dirty]
    exact Nat.sub_eq_zero_of_le hd
  simp only [Sys.cpu, h.pc]
  rw [if_neg (not_not.mpr h0)]

/-! ### Priming -/

/-- From the boot to the first launch. -/
private theorem prime (h : Boot mic s) (hq : s.line.queue = []) (ht : s.line.taken = []) :
    ∃ s' w, Reaches T mic s s' ∧ AtHop T mic s' ∧ Shot s' w ∧ s'.launches = [w] ∧
    s'.line.taken = List.range' s.line.heard (TUNER_DECIM * TUNER_N) ∧
    s'.line.heard = s.line.heard + TUNER_DECIM * TUNER_N ∧ s'.line.whole = 0 ∧ s'.clearedAt = 0 := by
  have hinv : Inv T mic s := inv_boot h
  have h₁ : s.cpu false = { s with pc := .flushClear } := by
    simp only [Sys.cpu, h.pc, hq]
    rfl
  let s₂ : Sys := (s.cpu false).cpu false
  have hr₂ : Reaches T mic s s₂ := (reaches_cpu s false).trans (reaches_cpu _ false)
  have h₂ : s₂ = { s.clear with
      v := { s.v with ovrCount := 0, frameOvr := false, dirty := BitVec.ofNat 32 TUNER_N } }.pump TUNER_N .prime := by
    change (s.cpu false).cpu false = _
    rw [h₁]
    rfl
  have hline : s₂.line = { s.line with ovr := false, whole := 0 } := by
    rw [h₂]
    have h0 : s.line.taken.length + s.line.older = 0 := by
      rw [Line.older, hq, ht]
      rfl
    change s.line.clear = _
    rw [Line.clear, h0]
  have hclear : s₂.clearedAt = 0 := by
    rw [h₂]
    change s.line.taken.length = 0
    rw [ht]
    rfl
  have htaken : s₂.line.taken = [] := by rw [hline, ht]
  have hmade : s₂.made = 0 := by rw [Sys.made, htaken]; rfl
  have hcalm : Calm s₂ := ⟨by rw [hline]; exact hq, by rw [hline]⟩
  have hpc₂ : s₂.pc = .pump (BitVec.ofNat 32 TUNER_N) .prime .wait := by
    have hp := pump_pc (hinv.reaches hr₂) (n := TUNER_N) (by decide) (by rw [hmade]; decide) .prime
    rw [hmade, Nat.zero_add] at hp
    rw [← hp, h₂]
    exact pump_again _ _ _
  obtain ⟨s₃, hr₃, hq₃, hpc₃⟩ := pump_quiet (TUNER_DECIM * TUNER_N - 1) (hinv.reaches hr₂) hpc₂ hcalm (by decide)
    (by rw [htaken]; rfl)
  have hq₃' : Quiet (TUNER_DECIM * TUNER_N) s₂ s₃ := hq₃
  have hr : Reaches T mic s s₃ := hr₂.trans hr₃
  have hmade₃ : s₃.made = TUNER_N := by rw [hq₃'.made, hmade, Nat.zero_add]
  obtain ⟨s', w, hr', hw, hpc'⟩ := fill_start (hinv.reaches hr) hpc₃ hq₃.calm
  have htook : Took (TUNER_DECIM * TUNER_N) s₂ s' := hq₃'.toTook.trans hw.toTook
  have haligned : Aligned s₂ := by rw [Aligned, hmade, htaken]; rfl
  refine ⟨s', w, hr.trans hr', ⟨hinv.reaches (hr.trans hr'), ?_, htook.calm, haligned.took htook, hw.busy⟩, hw.shot,
    ?_, ?_, ?_, ?_, ?_⟩
  · rw [hpc', if_pos rfl]
  · rw [hw.launches, hq₃.launches, h₂]
    exact congrArg (w :: ·) h.launches
  · rw [htook.taken, htaken, hline, List.nil_append]
  · rw [htook.heard, hline]
  · rw [htook.whole, hline]
  · rw [htook.clearedAt, hclear]

/-- The board behind its reset. -/
def powerUp : Sys where
  v := statics
  line := ⟨0, [], false, [], 0, 0⟩
  fft := ⟨false, false, fun _ => 0, fun _ => 0⟩
  pc := .flushTest
  clearedAt := 0
  launches := []

private theorem powerUp_boot (mic : Nat → BitVec 24) : Boot mic powerUp where
  pc := rfl
  fed := rfl
  settled := ⟨[], 0, rfl, by simp, le_rfl⟩
  queued := fun _ h => absurd h List.not_mem_nil
  busy := rfl
  launches := rfl

/-- A reading of a quiet run: the first frame behind the priming. -/
private theorem quiet_reading (h : Boot mic s) (hq : s.line.queue = []) (ht : s.line.taken = []) :
    ∃ s', Reaches T mic s s' ∧ s'.pc = .analyse TUNER_KLO ∧ ∀ w ∈ s'.launches[1]?, w.Ripe := by
  obtain ⟨s₁, w₁, hr₁, hhop, hshot, hl, htaken, -, hwhole, hclear⟩ := prime (T := T) h hq ht
  have hmade : s₁.made = TUNER_N := by
    rw [Sys.made, htaken, List.length_range']
    rfl
  obtain ⟨s₂, w₂, hr₂, hw, hdue⟩ := hhop.frame (by rw [hmade]; decide)
  have hmade₂ : s₂.made = TUNER_N + TUNER_HOP := by rw [hw.made, hmade]
  have hc₂ : s₂.clearedAt = 0 := hw.clearedAt.trans hclear
  have hcpu := hdue.analyse (by rw [hmade₂, hc₂]; decide)
  refine ⟨s₂.cpu false, (hr₁.trans hr₂).trans (reaches_cpu s₂ false), by rw [hcpu], ?_⟩
  have hl₂ : (s₂.cpu false).launches = [w₂, w₁] := by rw [hcpu, ← hl, ← hw.launches]
  intro w hmem
  rw [hl₂] at hmem
  cases hmem
  refine ⟨?_, ?_⟩
  · apply BitVec.eq_of_toNat_eq
    rw [hshot.dirty, hmade, hclear]
    rfl
  · rw [hshot.pending, hwhole, Nat.zero_sub]
    exact Nat.zero_le _

/-! ### A stall of the display -/

variable (mic) in
/-- Words that find room in the FIFO. -/
private theorem arrivals (n : Nat) : ∀ {s : Sys}, s.line.queue.length + n ≤ RX_FIFO_DEPTH → ∃ l,
    Reaches T mic s { s with line := l } ∧ l.queue.map Prod.fst =
    s.line.queue.map Prod.fst ++ List.range' s.line.heard n ∧
    l.heard = s.line.heard + n ∧ l.taken = s.line.taken := by
  induction n with
  | zero =>
    intro s _
    exact ⟨s.line, Relation.ReflTransGen.refl, by rw [List.range'_zero, List.append_nil], rfl, rfl⟩
  | succ n ih =>
    intro s hn
    let s₁ : Sys := { s with line := s.line.arrive RX_FIFO_DEPTH (received mic s.line.heard) }
    have hline : s₁.line = { s.line with
        heard := s.line.heard + 1, queue := s.line.queue ++ [(s.line.heard, received mic s.line.heard)] } :=
      Line.arrive_room (by omega) _
    have hlen : s₁.line.queue.length + n ≤ RX_FIFO_DEPTH := by
      rw [hline, List.length_append, List.length_singleton]
      omega
    obtain ⟨l, hr, hq, hh, ht⟩ := ih hlen
    refine ⟨l, (reaches_arrive s).trans hr, ?_, ?_, ?_⟩
    · rw [hq, hline, List.map_append, List.append_assoc, List.range'_succ]
      rfl
    · rw [hh, hline, Nat.add_assoc, Nat.add_comm 1 n]
    · rw [ht, hline]

variable (mic) in
/-- `tuner_drain` takes what is queued. -/
private theorem drain_all {a : Spot} (ns : List Nat) :
    ∀ {s : Sys}, s.pc = .drain a .test → s.line.queue.map Prod.fst = ns →
    ∃ s', Reaches T mic s s' ∧ s'.pc = .drain a .test ∧ s'.line.queue = [] ∧ s'.line.taken = s.line.taken ++ ns ∧
      s'.line.heard = s.line.heard ∧ s'.line.ovr = s.line.ovr ∧ s'.launches = s.launches ∧ s'.fft = s.fft := by
  induction ns with
  | nil =>
    intro s hpc hq
    exact ⟨s, Relation.ReflTransGen.refl, hpc, List.map_eq_nil_iff.mp hq, (List.append_nil _).symm, rfl,
      rfl, rfl, rfl⟩
  | cons n ns ih =>
    intro s hpc hq
    obtain ⟨⟨m, x⟩, q, hcons, hm, hrest⟩ := List.map_eq_cons_iff.mp hq
    have hm' : m = n := hm
    subst hm'
    have h₁ : s.cpu false = { s with pc := .drain a .read } := by
      simp only [Sys.cpu, hpc, hcons]
      rfl
    let s₂ : Sys := { s with pc := .drain a .pop }
    have h₃ : ((s.cpu false).cpu false).cpu false = { s₂.push with pc := .drain a .test } := by
      rw [h₁]
      rfl
    have hr₃ : Reaches T mic s (((s.cpu false).cpu false).cpu false) :=
      ((reaches_cpu s false).trans (reaches_cpu _ false)).trans (reaches_cpu _ false)
    rw [h₃] at hr₃
    have hcons₂ : s₂.line.queue = (m, x) :: q := hcons
    have hline := push_line hcons₂
    obtain ⟨hfft, hl, -⟩ := push_frame s₂
    have hq₃ : s₂.push.line.queue.map Prod.fst = ns := by
      rw [hline, Line.take, hcons₂]
      exact hrest
    obtain ⟨s', hr', hpc', hq', ht', hh', ho', hl', hf'⟩ := ih (s := { s₂.push with pc := .drain a .test }) rfl hq₃
    refine ⟨s', hr₃.trans hr', hpc', hq', ?_, ?_, ?_, hl'.trans hl, hf'.trans hfft⟩
    · rw [ht']
      change s₂.push.line.taken ++ ns = _
      rw [push_taken hcons₂, List.append_assoc]
      rfl
    · rw [hh']
      change s₂.push.line.heard = _
      rw [hline]
      rfl
    · rw [ho']
      change s₂.push.line.ovr = _
      rw [hline]
      rfl

variable (mic) in
/-- The display does not yield while `RX_FIFO_DEPTH + 1` words arrive: the last of them is dropped, and the next
`tuner_drain` finds the flag. -/
private theorem stall {a : Spot} (hpc : s.pc = .spot a) (hc : Calm s) :
    ∃ s', Reaches T mic s s' ∧ s'.pc = .spot a ∧ Calm s' ∧ s'.line.heard = s.line.heard + (RX_FIFO_DEPTH + 1) ∧
    s'.line.taken = s.line.taken ++ List.range' s.line.heard RX_FIFO_DEPTH ∧
    s'.clearedAt = s'.line.taken.length ∧ s'.launches = s.launches ∧ s'.fft.busy = s.fft.busy := by
  obtain ⟨l, hr₁, hq₁, hh₁, ht₁⟩ := arrivals (T := T) mic RX_FIFO_DEPTH (s := s) (by rw [hc.queue]; exact le_rfl)
  rw [hc.queue, List.map_nil, List.nil_append] at hq₁
  have hfull : l.queue.length = RX_FIFO_DEPTH := by
    have hlen := congrArg List.length hq₁
    rwa [List.length_map, List.length_range'] at hlen
  have hdrop := Line.arrive_full hfull (received mic l.heard)
  let s₂ : Sys := { s with line := l.arrive RX_FIFO_DEPTH (received mic l.heard) }
  have hr₂ : Reaches T mic s s₂ := hr₁.trans (reaches_arrive _)
  have h₃ : s₂.cpu true = { s₂ with pc := .drain a .test } := by
    have hp : s₂.pc = .spot a := hpc
    simp only [Sys.cpu, hp]
    rfl
  have hr₃ : Reaches T mic s { s₂ with pc := .drain a .test } := by
    rw [← h₃]
    exact hr₂.trans (reaches_cpu s₂ true)
  have hq₃ : (l.arrive RX_FIFO_DEPTH (received mic l.heard)).queue.map Prod.fst =
      List.range' s.line.heard RX_FIFO_DEPTH := by
    rw [hdrop]
    exact hq₁
  obtain ⟨s₄, hr₄, hpc₄, hq₄, ht₄, hh₄, ho₄, hl₄, hf₄⟩ :=
    drain_all (T := T) mic (a := a) _ (s := { s₂ with pc := .drain a .test }) rfl hq₃
  have hovr : s₄.line.ovr = true := by
    rw [ho₄]
    change (l.arrive RX_FIFO_DEPTH (received mic l.heard)).ovr = true
    rw [hdrop]
  have h₅ : s₄.cpu false = { s₄ with pc := .drain a .check } := by
    simp only [Sys.cpu, hpc₄, hq₄]
    rfl
  have h₇ : ((s₄.cpu false).cpu false).cpu false = { s₄.clear with v := s₄.v.overrun, pc := .spot a } := by
    have h₆ : (s₄.cpu false).cpu false = { s₄ with pc := .drain a .clear } := by
      rw [h₅]
      simp only [Sys.cpu, hovr]
      rfl
    rw [h₆]
    rfl
  have hr₇ : Reaches T mic s₄ (((s₄.cpu false).cpu false).cpu false) :=
    ((reaches_cpu s₄ false).trans (reaches_cpu _ false)).trans (reaches_cpu _ false)
  rw [h₇] at hr₇
  refine ⟨_, hr₃.trans (hr₄.trans hr₇), rfl, ⟨hq₄, rfl⟩, ?_, ?_, rfl, hl₄, congrArg FftPort.busy hf₄⟩
  · change s₄.line.heard = _
    rw [hh₄]
    change (l.arrive RX_FIFO_DEPTH (received mic l.heard)).heard = _
    rw [hdrop, ← Nat.add_assoc, ← hh₁]
  · change s₄.line.taken = _
    rw [ht₄]
    change (l.arrive RX_FIFO_DEPTH (received mic l.heard)).taken ++ _ = _
    rw [hdrop]
    exact congrArg (· ++ _) ht₁

/-- The words of a clean window, one by one. -/
private theorem Launch.Clean.word {w : Launch} (h : w.Clean mic) : ∃ a, ∀ j < TUNER_DECIM * TUNER_N,
    w.fed[TUNER_DECIM * w.first + j]? = some (a + j) := by
  obtain ⟨-, a, ha⟩ := h
  refine ⟨a, fun j hj => ?_⟩
  have hget : ((w.fed.drop (TUNER_DECIM * w.first)).take (TUNER_DECIM * TUNER_N))[j]? =
      (List.range' a (TUNER_DECIM * TUNER_N))[j]? := by rw [ha]
  rwa [List.getElem?_take_of_lt hj, List.getElem?_drop, List.getElem?_range' hj, Nat.one_mul] at hget

/-- The window of a run that has taken the words up to a hole and those behind it is not clean. -/
private theorem Shot.hole {w : Launch} (hs : Shot s w) {h n m : Nat} (hN : TUNER_N ≤ s.made)
    (ht : s.line.taken = List.range' h (TUNER_DECIM * n) ++ List.range' (h + TUNER_DECIM * n + 1) m)
    (hn : s.made - TUNER_N < n) (hlt : n < s.made) : ¬w.Clean mic := by
  intro hclean
  obtain ⟨a, ha⟩ := hclean.word
  have hfirst : w.first = s.made - TUNER_N := by rw [Launch.first, hs.fed, Sys.made]
  have hmade := made_eq s
  have hlen : s.line.taken.length = TUNER_DECIM * n + m := by
    rw [ht, List.length_append, List.length_range', List.length_range']
  rw [hfirst, hs.fed] at ha
  unfold TUNER_DECIM at *
  unfold TUNER_N at *
  -- the last word in front of the hole and the first behind it
  have hfront := ha (8 * n - 1 - 8 * (s.made - 1024)) (by omega)
  have hback := ha (8 * n - 8 * (s.made - 1024)) (by omega)
  have hidx : 8 * (s.made - 1024) + (8 * n - 1 - 8 * (s.made - 1024)) = 8 * n - 1 := by omega
  have hidx' : 8 * (s.made - 1024) + (8 * n - 8 * (s.made - 1024)) = 8 * n := by omega
  rw [hidx, ht, List.getElem?_append_left (by rw [List.length_range']; omega), List.getElem?_range' (by omega)]
    at hfront
  rw [hidx', ht, List.getElem?_append_right (by rw [List.length_range']), List.length_range', Nat.sub_self,
    List.getElem?_range' (by omega)] at hback
  have hfront' := Option.some.inj hfront
  have hback' := Option.some.inj hback
  omega

/-- A run up to the end of a stall in the first frame, when the hole is behind `1090` samples. -/
private theorem stalled_frame (h : Boot mic s) (hq : s.line.queue = []) (ht : s.line.taken = []) :
    ∃ s', Reaches T mic s s' ∧ Due T mic s' ∧ s'.made = 1282 ∧ s'.clearedAt = TUNER_DECIM * 1090 ∧
      s'.line.heard = s.line.heard + TUNER_DECIM * 1282 + 1 ∧
      s'.line.taken = List.range' s.line.heard (TUNER_DECIM * 1090) ++
        List.range' (s.line.heard + TUNER_DECIM * 1090 + 1) (TUNER_DECIM * 192) := by
  have hinv : Inv T mic s := inv_boot h
  obtain ⟨s₁, w₁, hr₁, hhop, -, -, ht₁, hh₁, -, -⟩ := prime (T := T) h hq ht
  have hm₁ : s₁.made = TUNER_N := by rw [Sys.made, ht₁, List.length_range']; rfl
  obtain ⟨s₂, hr₂, hq₂, hpc₂⟩ := slice_quiet hhop.inv hhop.pc hhop.calm hhop.aligned (by rw [hm₁]; decide)
  obtain ⟨s₃, hr₃, hpc₃, hc₃, hh₃, ht₃, hclear₃, -, hb₃⟩ := stall (T := T) mic hpc₂ hq₂.calm
  have hr₃' : Reaches T mic s s₃ := hr₁.trans (hr₂.trans hr₃)
  have hh₂ : s₂.line.heard = s.line.heard + (TUNER_DECIM * TUNER_N + TUNER_DECIM * 64) := by
    rw [hq₂.heard, hh₁, Nat.add_assoc]
  have hfront : s₃.line.taken = List.range' s.line.heard (TUNER_DECIM * 1090) := by
    rw [ht₃, hq₂.taken, ht₁, hh₂, hh₁, List.range'_append_1, List.range'_append_1]
    rfl
  have hlen₃ : s₃.line.taken.length = TUNER_DECIM * 1090 := by rw [hfront, List.length_range']
  have hm₃ : s₃.made = 1090 := by rw [Sys.made, hlen₃]; rfl
  have hheard₃ : s₃.line.heard = s.line.heard + TUNER_DECIM * 1090 + 1 := by
    rw [hh₃, hh₂]
    rfl
  have hb : s₃.fft.busy = true := hb₃.trans (hq₂.busy.trans hhop.busy)
  obtain ⟨s₄, w₄, hr₄, hw₄, hd₄⟩ := frame_rest (hinv.reaches hr₃') hpc₃ hc₃ (by rw [Aligned, hm₃, hlen₃]) hb
    (by rw [hm₃]; decide)
  refine ⟨s₄, hr₃'.trans hr₄, hd₄, by rw [hw₄.made, hm₃], by rw [hw₄.clearedAt, hclear₃, hlen₃], ?_, ?_⟩
  · rw [hw₄.heard, hheard₃]
    unfold TUNER_DECIM
    omega
  · rw [hw₄.taken, hfront, hheard₃]

/-- One stall of the display in the first frame: the first reading behind it comes from the window launched a frame
before `tuner_dirty` came to zero, which has the hole. -/
private theorem stalled_reading (h : Boot mic s) (hq : s.line.queue = []) (ht : s.line.taken = []) :
    ∃ s', Reaches T mic s s' ∧ s'.pc = .analyse TUNER_KLO ∧ ¬Sound T mic s' := by
  obtain ⟨s₁, hr₁, hd₁, hm₁, hc₁, hh₁, ht₁⟩ := stalled_frame (T := T) h hq ht
  have hdiv : TUNER_DECIM * 1090 / TUNER_DECIM = 1090 := Nat.mul_div_cancel_left _ (by decide)
  obtain ⟨s₂, hr₂, ht₂, hd₂⟩ := hd₁.frames 2 (by rw [hm₁, hc₁, hdiv]; decide) (by rw [hm₁]; decide)
  have hm₂ : s₂.made = 1794 := by rw [ht₂.made, hm₁]; rfl
  have hc₂ : s₂.clearedAt / TUNER_DECIM = 1090 := by rw [ht₂.clearedAt, hc₁, hdiv]
  -- the window that will be read
  obtain ⟨s₃, w₃, hr₃, hw₃, hd₃⟩ := hd₂.next (by rw [hm₂, hc₂]; decide) (by rw [hm₂]; decide)
  have hm₃ : s₃.made = 2050 := by rw [hw₃.made, hm₂]; rfl
  have hc₃ : s₃.clearedAt / TUNER_DECIM = 1090 := by rw [hw₃.clearedAt, hc₂]
  have ht₃ : s₃.line.taken = List.range' s.line.heard (TUNER_DECIM * 1090) ++
      List.range' (s.line.heard + TUNER_DECIM * 1090 + 1) (TUNER_DECIM * 960) := by
    have hh₁' : s₁.line.heard = s.line.heard + TUNER_DECIM * 1090 + 1 + TUNER_DECIM * 192 := by
      rw [hh₁]
      unfold TUNER_DECIM
      omega
    rw [hw₃.taken, ht₂.taken, ht₁, ht₂.heard, hh₁', List.append_assoc, List.append_assoc, List.range'_append_1,
      List.range'_append_1]
    rfl
  have hhole : ¬w₃.Clean mic := hw₃.shot.hole (by rw [hm₃]; decide) ht₃ (by rw [hm₃]; decide) (by rw [hm₃]; decide)
  -- the reading
  obtain ⟨s₄, w₄, hr₄, hw₄, hd₄⟩ := hd₃.next (by rw [hm₃, hc₃]; decide) (by rw [hm₃]; decide)
  have hm₄ : s₄.made = 2306 := by rw [hw₄.made, hm₃]; rfl
  have hc₄ : s₄.clearedAt / TUNER_DECIM = 1090 := by rw [hw₄.clearedAt, hc₃]
  have hcpu := hd₄.analyse (by rw [hm₄, hc₄]; decide)
  have hr : Reaches T mic s (s₄.cpu false) := hr₁.trans (hr₂.trans (hr₃.trans (hr₄.trans (reaches_cpu s₄ false))))
  refine ⟨s₄.cpu false, hr, by rw [hcpu], ?_⟩
  rintro ⟨w, hw, -, hclean⟩
  have hl : (s₄.cpu false).launches = w₄ :: w₃ :: s₂.launches := by rw [hcpu, ← hw₃.launches, ← hw₄.launches]
  rw [hl] at hw
  cases hw
  exact hhole hclean

/-! ### What the tuner reads -/

/-- A reading comes from a clean window if the window launched a frame before was launched with `tuner_dirty` at zero
for long enough. -/
theorem spectrum_clean {s₀ : Sys} (hb : Boot mic s₀) (h : Reaches T mic s₀ s) {k : Nat} (hpc : s.pc = .analyse k)
    (hripe : ∀ w ∈ s.launches[1]?, w.Ripe) : Sound T mic s := by
  have hinv := h.inv hb
  have hs := hinv.stage
  simp only [Stage, hpc] at hs
  obtain ⟨w, hw, hcpu⟩ := hs
  exact ⟨w, hw, hcpu, hinv.core.clean w (List.mem_of_getElem? hw) (hripe w hw)⟩

/-- A microphone that hears a ramp. -/
def rampMic (n : Nat) : BitVec 24 := BitVec.ofNat 24 (4096 * n)

theorem spectrum_clean_quiet : ∃ s, Reaches id rampMic powerUp s ∧ s.pc = .analyse TUNER_KLO ∧
    Sound id rampMic s := by
  obtain ⟨s, hr, hpc, hripe⟩ := quiet_reading (T := id) (powerUp_boot rampMic) rfl rfl
  exact ⟨s, hr, hpc, spectrum_clean (powerUp_boot rampMic) hr hpc hripe⟩

/-- Not every reading does. -/
theorem spectrum_clean_stall : ¬∀ (T : Bank → Bank) (mic : Nat → BitVec 24) (s₀ s : Sys) (k : Nat), Boot mic s₀ →
    Reaches T mic s₀ s → s.pc = .analyse k → Sound T mic s := by
  intro h
  obtain ⟨s, hr, hpc, hbad⟩ := stalled_reading (T := id) (powerUp_boot rampMic) rfl rfl
  exact hbad (h id rampMic powerUp s _ (powerUp_boot rampMic) hr hpc)

end Yarv.Tuner
