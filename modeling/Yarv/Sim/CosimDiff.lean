import Yarv.Lib.Lockstep

/-!
# `cosim_diff`

The comparator of the co-simulation: the retires of the RTL against those of Spike, in lockstep from the entry PC to
the park.  Spike has no slave for the device window, so its first access there traps to the entry PC; the comparator
takes any retire of Spike at the entry PC, with the RTL elsewhere, for such a trap.

The logs are read already: a trace is the list of its retires.
-/

namespace Yarv

namespace CosimDiff

open Lockstep

/-- One retire; `rd` and `val` are zero when no register is written. -/
structure Retire where
  pc : Nat
  rd : Nat
  val : Nat
  deriving DecidableEq, Repr

/-- `PARK_N`. -/
def parkN : Nat := 8

def pcAt (retires : List Retire) (i : Nat) : Option Nat := retires[i]?.map Retire.pc

/-- `find_park`: the first of `PARK_N` consecutive identical PCs. -/
def findPark (retires : List Retire) : Option Nat :=
  first 0 (retires.length + 1 - parkN) fun i => (List.range parkN).all fun k => pcAt retires (i + k) == pcAt retires i

/-- What differs in two retires, as the report says it. -/
inductive Differs where
  | pc | rd | val
  deriving DecidableEq, Repr

/-- How the comparator ends. -/
inductive Outcome where
  | rtlEmpty
  | spikeEmpty
  | neverSawEntry (entry : Nat)
  | parkMismatch (rtl spike : Option Nat)
  | mismatch (i : Nat) (rtl spike : Option Retire) (what : Differs)
  | stoppedEarly (rtl spike : Nat)
  | pass (n skip : Nat) (park stop : Option Nat)
  deriving DecidableEq, Repr

def Outcome.exitCode : Outcome → Nat
  | .pass .. => 0
  | _ => 1

def differs (r s : Option Retire) : Differs :=
  if r.map Retire.pc ≠ s.map Retire.pc then .pc else if r.map Retire.rd ≠ s.map Retire.rd then .rd else .val

/-- `unmodeled_stop`. -/
def unmodeledStop (entry : Nat) (cmpRtl cmpSpike : List Retire) : Option Nat :=
  first 1 (min cmpRtl.length cmpSpike.length) fun i => pcAt cmpSpike i == some entry && pcAt cmpRtl i != some entry

def truncated (stop : Option Nat) (cmp : List Retire) : List Retire :=
  match stop with
  | some i => cmp.take i
  | none => cmp

/-- The loop over the retires, from the stop on. -/
def compare (skip : Nat) (park stop : Option Nat) (cmpRtl cmpSpike : List Retire) : Outcome :=
  match first 0 (min cmpRtl.length cmpSpike.length) fun i => cmpRtl[i]? != cmpSpike[i]? with
  | some i => .mismatch i cmpRtl[i]? cmpSpike[i]? (differs cmpRtl[i]? cmpSpike[i]?)
  | none =>
    if cmpRtl.length ≠ cmpSpike.length then .stoppedEarly cmpRtl.length cmpSpike.length
    else .pass (min cmpRtl.length cmpSpike.length) skip park stop

/-- Up to and including the first loop instruction, if both sides park. -/
def parked (rtl spike : List Retire) : List Retire × List Retire :=
  match findPark rtl, findPark spike with
  | some parkRtl, some parkSpike => (rtl.take (parkRtl + 1), spike.take (parkSpike + 1))
  | _, _ => (rtl, spike)

/-- The PC a side parks at. -/
def parkPc (retires : List Retire) : Option Nat := (findPark retires).bind (pcAt retires)

def parkPcDiffers (rtl spike : List Retire) : Bool :=
  (findPark rtl).isSome && (findPark spike).isSome && parkPc rtl != parkPc spike

/-- The retires of the boot stub. -/
def skip (entry : Nat) (spikeFull : List Retire) : Nat := spikeFull.findIdx fun r => r.pc == entry

/-- Spike, from its first retire at the entry PC on. -/
def aligned (entry : Nat) (spikeFull : List Retire) : List Retire := spikeFull.drop (skip entry spikeFull)

def cosimDiff (rtl spikeFull : List Retire) (entry : Nat) : Outcome :=
  if rtl.isEmpty then .rtlEmpty
  else if spikeFull.isEmpty then .spikeEmpty
  else if skip entry spikeFull = spikeFull.length then .neverSawEntry entry
  else
    let spike := aligned entry spikeFull
    if parkPcDiffers rtl spike then .parkMismatch (parkPc rtl) (parkPc spike)
    else
      let cmp := parked rtl spike
      let stop := unmodeledStop entry cmp.1 cmp.2
      compare (skip entry spikeFull) (parkPc rtl) stop (truncated stop cmp.1) (truncated stop cmp.2)

variable {rtl spike spikeFull a b : List Retire} {entry i n k : Nat} {park stop : Option Nat}

private theorem exitCode_eq_zero {o : Outcome} : o.exitCode = 0 ↔ ∃ n k park stop, o = .pass n k park stop := by
  constructor
  · intro h
    cases o with
    | pass n k park stop => exact ⟨n, k, park, stop, rfl⟩
    | _ => cases h
  · rintro ⟨n, k, park, stop, rfl⟩
    rfl

/-! ### The loops -/

private theorem compare_eq_pass {n' k' : Nat} {park' stop' : Option Nat} :
    compare k park stop a b = .pass n' k' park' stop' ↔
      a = b ∧ n' = a.length ∧ k' = k ∧ park' = park ∧ stop' = stop := by
  unfold compare
  cases hm : first 0 (min a.length b.length) fun i => a[i]? != b[i]? with
  | some i =>
    obtain ⟨-, hp, -⟩ := first_eq_some.mp hm
    constructor
    · intro h
      cases h
    · rintro ⟨rfl, -⟩
      rw [bne_self_eq_false] at hp
      cases hp
  | none =>
    have hagree : ∀ j < min a.length b.length, a[j]? = b[j]? := by
      intro j hj
      have h := first_eq_none.mp hm j (Nat.zero_le j) hj
      rwa [bne_eq_false_iff_eq] at h
    by_cases hlen : a.length = b.length
    · have hab : a = b := eq_of_agree hlen fun j hj => hagree j (by omega)
      subst hab
      dsimp only
      rw [if_neg (not_not_intro rfl), Nat.min_self, Outcome.pass.injEq]
      constructor
      · rintro ⟨rfl, rfl, rfl, rfl⟩
        exact ⟨rfl, rfl, rfl, rfl, rfl⟩
      · rintro ⟨-, rfl, rfl, rfl, rfl⟩
        exact ⟨rfl, rfl, rfl, rfl⟩
    · dsimp only
      rw [if_pos hlen]
      constructor
      · intro h
        cases h
      · rintro ⟨hab, -⟩
        exact absurd (congrArg List.length hab) hlen

/-- The runs part where Spike stands at the entry PC and the RTL does not. -/
structure Stands (entry : Nat) (a b : List Retire) (i : Nat) : Prop where
  later : 1 ≤ i
  diff : FirstDiff a b i
  spike : pcAt b i = some entry
  rtl : pcAt a i ≠ some entry

/-- Where the PCs of two runs differ, the runs do. -/
private theorem ne_of_pcAt (h : pcAt a i ≠ pcAt b i) :
    a[i]? ≠ b[i]? := fun he => h (congrArg (Option.map Retire.pc) he)

private theorem Stands.stopped (h : Stands entry a b i) : unmodeledStop entry a b = some i := by
  have hleft := h.diff.left
  have hright := h.diff.right
  refine first_eq_some.mpr ⟨⟨h.later, by omega⟩, ?_, fun j _ hj => ?_⟩
  · rw [Bool.and_eq_true, beq_iff_eq, bne_iff_ne]
    exact ⟨h.spike, h.rtl⟩
  · have hagree : pcAt a j = pcAt b j := congrArg (Option.map Retire.pc) (h.diff.agree j hj)
    rw [hagree]
    cases hb : pcAt b j == some entry with
    | false => rfl
    | true =>
      rw [Bool.true_and, bne_eq_false_iff_eq]
      exact beq_iff_eq.mp hb

private theorem stop_self : unmodeledStop entry a a = none := by
  refine first_eq_none.mpr fun j _ _ => ?_
  cases ha : pcAt a j == some entry with
  | false => rfl
  | true =>
    rw [Bool.true_and, bne_eq_false_iff_eq]
    exact beq_iff_eq.mp ha

/-- What the comparator compares is equal if the runs are, or if they part at its stop. -/
private theorem stop_cases (h : truncated (unmodeledStop entry a b) a = truncated (unmodeledStop entry a b) b) :
    a = b ∨ ∃ i, Stands entry a b i := by
  cases hs : unmodeledStop entry a b with
  | none =>
    rw [hs] at h
    exact .inl h
  | some i =>
    rw [hs] at h
    obtain ⟨⟨hlater, hi⟩, hp, -⟩ := first_eq_some.mp hs
    rw [Bool.and_eq_true, beq_iff_eq, bne_iff_ne] at hp
    have hne : pcAt a i ≠ pcAt b i := by
      rw [hp.1]
      exact hp.2
    refine .inr ⟨i, hlater, ⟨by omega, by omega, fun j hj => ?_, ne_of_pcAt hne⟩, hp.1, hp.2⟩
    have hj' := congrArg (fun l => l[j]?) h
    dsimp only [truncated] at hj'
    rwa [List.getElem?_take_of_lt hj, List.getElem?_take_of_lt hj] at hj'

private theorem compare_stop (hs : stop = unmodeledStop entry a b) {n' k' : Nat} {park' stop' : Option Nat} :
    compare k park stop (truncated stop a) (truncated stop b) = .pass n' k' park' stop' ↔
      ((a = b ∧ n' = a.length ∧ stop' = none) ∨ (Stands entry a b n' ∧ stop' = some n')) ∧ k' = k ∧ park' = park := by
  rw [compare_eq_pass]
  constructor
  · rintro ⟨heq, hn, hk, hpark, hstop⟩
    refine ⟨?_, hk, hpark⟩
    rw [hs] at heq
    rcases stop_cases heq with hab | ⟨i, hi⟩
    · subst hab
      rw [stop_self] at hs
      subst hs
      exact .inl ⟨rfl, hn, hstop⟩
    · rw [hi.stopped] at hs
      subst hs
      have hleft := hi.diff.left
      have hni : n' = i := by
        rw [hn, truncated, List.length_take]
        omega
      subst hni
      exact .inr ⟨hi, hstop⟩
  · rintro ⟨⟨hab, hn, hstop⟩ | ⟨hi, hstop⟩, hk, hpark⟩
    · subst hab
      rw [stop_self] at hs
      subst hs
      exact ⟨rfl, hn, hk, hpark, hstop⟩
    · rw [hi.stopped] at hs
      subst hs
      have hleft := hi.diff.left
      refine ⟨take_eq_take hi.diff.agree, ?_, hk, hpark, hstop⟩
      rw [truncated, List.length_take]
      omega

/-! ### The parks -/

private theorem skip_eq_length : skip entry spikeFull = spikeFull.length ↔ aligned entry spikeFull = [] := by
  unfold aligned
  rw [List.drop_eq_nil_iff]
  have hle : skip entry spikeFull ≤ spikeFull.length := List.findIdx_le_length
  omega

/-- The comparator passes on runs that agree up to their parks, and on those that part where Spike stands at the
entry. -/
private theorem cosimDiff_eq_pass {n' k' : Nat} {park' stop' : Option Nat}
    (hspike : spike = aligned entry spikeFull) :
    cosimDiff rtl spikeFull entry = .pass n' k' park' stop' ↔
      (rtl ≠ [] ∧ spike ≠ [] ∧ parkPcDiffers rtl spike = false) ∧
        (((parked rtl spike).1 = (parked rtl spike).2 ∧ n' = (parked rtl spike).1.length ∧ stop' = none) ∨
          (Stands entry (parked rtl spike).1 (parked rtl spike).2 n' ∧ stop' = some n')) ∧
        k' = skip entry spikeFull ∧ park' = parkPc rtl := by
  subst hspike
  unfold cosimDiff
  by_cases hr : rtl = []
  · rw [if_pos (List.isEmpty_iff.mpr hr)]
    constructor
    · intro h
      cases h
    · intro h
      exact absurd hr h.1.1
  by_cases hf : spikeFull = []
  · rw [if_neg (fun h => hr (List.isEmpty_iff.mp h)), if_pos (List.isEmpty_iff.mpr hf)]
    have hnil : aligned entry spikeFull = [] := by
      rw [hf]
      rfl
    constructor
    · intro h
      cases h
    · intro h
      exact absurd hnil h.1.2.1
  rw [if_neg (fun h => hr (List.isEmpty_iff.mp h)), if_neg (fun h => hf (List.isEmpty_iff.mp h))]
  by_cases hsk : skip entry spikeFull = spikeFull.length
  · rw [if_pos hsk]
    constructor
    · intro h
      cases h
    · intro h
      exact absurd (skip_eq_length.mp hsk) h.1.2.1
  rw [if_neg hsk]
  have ha : aligned entry spikeFull ≠ [] := fun h => hsk (skip_eq_length.mpr h)
  dsimp only
  cases hp : parkPcDiffers rtl (aligned entry spikeFull) with
  | true =>
    rw [if_pos rfl]
    constructor
    · intro h
      cases h
    · intro h
      cases h.1.2.2
  | false =>
    rw [if_neg Bool.false_ne_true, compare_stop rfl]
    exact ⟨fun h => ⟨⟨hr, ha, rfl⟩, h⟩, fun h => h.2⟩

/-- A run up to and including the first of eight consecutive identical PCs. -/
def upToPark (retires : List Retire) : List Retire :=
  match findPark retires with
  | some park => retires.take (park + 1)
  | none => retires

private theorem upToPark_isPrefix (retires : List Retire) : upToPark retires <+: retires := by
  unfold upToPark
  split
  · exact List.take_prefix _ _
  · exact List.prefix_rfl

private theorem findPark_lt (h : findPark a = some i) : i < a.length := by
  have hi := (first_eq_some.mp h).1.2
  unfold parkN at hi
  omega

private theorem parked_of_some {j : Nat} (hi : findPark rtl = some i) (hj : findPark spike = some j) :
    parked rtl spike = (rtl.take (i + 1), spike.take (j + 1)) := by
  rw [parked, hi, hj]

private theorem parked_of_none (h : findPark rtl = none ∨ findPark spike = none) :
    parked rtl spike = (rtl, spike) := by
  unfold parked
  rcases h with h | h
  · rw [h]
  · rw [h]
    cases findPark rtl <;> rfl

/-- What is compared begins as the runs do. -/
private theorem FirstDiff.of_parked (h : FirstDiff (parked rtl spike).1 (parked rtl spike).2 i) :
    FirstDiff rtl spike i := by
  cases hr : findPark rtl with
  | none => rwa [parked_of_none (.inl hr)] at h
  | some j =>
    cases hs : findPark spike with
    | none => rwa [parked_of_none (.inr hs)] at h
    | some k =>
      rw [parked_of_some hr hs] at h
      exact h.of_take

/-- If what is compared is equal, it is both runs up to their parks, and the parks are one. -/
private theorem parked_of_eq (h : (parked rtl spike).1 = (parked rtl spike).2) :
    parked rtl spike = (upToPark rtl, upToPark spike) ∧ parkPcDiffers rtl spike = false := by
  cases hr : findPark rtl with
  | none =>
    have hwhole : parked rtl spike = (rtl, spike) := parked_of_none (.inl hr)
    rw [hwhole] at h
    have hs : findPark spike = none := by rw [← hr, show rtl = spike from h]
    refine ⟨?_, ?_⟩
    · rw [hwhole, upToPark, upToPark, hr, hs]
    · rw [parkPcDiffers, hr, Option.isSome_none, Bool.false_and, Bool.false_and]
  | some i =>
    cases hs : findPark spike with
    | none =>
      have hwhole : parked rtl spike = (rtl, spike) := parked_of_none (.inr hs)
      rw [hwhole] at h
      rw [show rtl = spike from h, hs] at hr
      cases hr
    | some j =>
      have hboth := parked_of_some hr hs
      rw [hboth] at h
      have hi := findPark_lt hr
      have hj := findPark_lt hs
      have hij : i = j := by
        have hlen := congrArg List.length h
        rw [List.length_take, List.length_take] at hlen
        omega
      subst hij
      refine ⟨?_, ?_⟩
      · rw [hboth, upToPark, upToPark, hr, hs]
      · have hpc : pcAt rtl i = pcAt spike i := by
          have hat := congrArg (fun l => l[i]?) h
          dsimp only at hat
          rw [List.getElem?_take_of_lt (by omega), List.getElem?_take_of_lt (by omega)] at hat
          exact congrArg (Option.map Retire.pc) hat
        have hpark : parkPc rtl = parkPc spike := by
          rw [parkPc, parkPc, hr, hs, Option.bind_some, Option.bind_some, hpc]
        rw [parkPcDiffers, hpark, bne_self_eq_false, Bool.and_false]

/-! ### What is masked -/

section Trapped

-- the retires of Spike, from the entry PC on, at which it has trapped on an access to a device it has no slave for
variable {trapped : Nat → Prop}

/-- The comparator masks no divergence of `runs`: what it has compared is equal, and is both runs up to their parks,
or up to a trap of Spike; and a first difference that is no such trap is reported. -/
structure MasksNone (trapped : Nat → Prop) (rtl spikeFull : List Retire) (entry : Nat)
    (runs : List Retire × List Retire) :
    Prop where
  equal : ∀ n k park stop, cosimDiff rtl spikeFull entry = .pass n k park stop →
    rtl.take n = (aligned entry spikeFull).take n
  covers : ∀ n k park stop, cosimDiff rtl spikeFull entry = .pass n k park stop →
    (n = (upToPark rtl).length ∧ n = (upToPark (aligned entry spikeFull)).length) ∨
      (n < rtl.length ∧ n < (aligned entry spikeFull).length ∧ trapped n)
  reports : ∀ i, FirstDiff runs.1 runs.2 i → ¬trapped i → (cosimDiff rtl spikeFull entry).exitCode ≠ 0

/-- Where the runs part with Spike at the entry PC and the RTL elsewhere, Spike has trapped. -/
def EntryTraps (trapped : Nat → Prop) (entry : Nat) (rtl spike : List Retire) : Prop :=
  ∀ i, Stands entry (parked rtl spike).1 (parked rtl spike).2 i → parkPcDiffers rtl spike = false → trapped i

/-- Runs that agree up to their parks part behind them at traps only. -/
def ParkTraps (trapped : Nat → Prop) (rtl spike : List Retire) : Prop :=
  (parked rtl spike).1 = (parked rtl spike).2 → ∀ i, FirstDiff rtl spike i → trapped i

private theorem exit_of_stands (hspike : spike = aligned entry spikeFull)
    (h : Stands entry (parked rtl spike).1 (parked rtl spike).2 i) (hpark : parkPcDiffers rtl spike = false) :
    (cosimDiff rtl spikeFull entry).exitCode = 0 := by
  have hdiff := FirstDiff.of_parked h.diff
  have hr : rtl ≠ [] := List.ne_nil_of_length_pos (Nat.zero_lt_of_lt hdiff.left)
  have hs : spike ≠ [] := List.ne_nil_of_length_pos (Nat.zero_lt_of_lt hdiff.right)
  exact exitCode_eq_zero.mpr ⟨_, _, _, _, (cosimDiff_eq_pass hspike).mpr ⟨⟨hr, hs, hpark⟩, .inr ⟨h, rfl⟩, rfl, rfl⟩⟩

private theorem exit_of_parked (hspike : spike = aligned entry spikeFull)
    (h : (parked rtl spike).1 = (parked rtl spike).2) (hr : rtl ≠ []) (hs : spike ≠ []) :
    (cosimDiff rtl spikeFull entry).exitCode = 0 := exitCode_eq_zero.mpr
    ⟨_, _, _, _, (cosimDiff_eq_pass hspike).mpr ⟨⟨hr, hs, (parked_of_eq h).2⟩, .inl ⟨h, rfl, rfl⟩, rfl, rfl⟩⟩

/-- What has been compared is equal, wherever Spike has trapped. -/
private theorem equal_of_pass (hspike : spike = aligned entry spikeFull)
    (h : cosimDiff rtl spikeFull entry = .pass n k park stop) :
    rtl.take n = spike.take n := by
  obtain ⟨-, ⟨heq, hn, -⟩ | ⟨hst, -⟩, -⟩ := (cosimDiff_eq_pass hspike).mp h
  · have hup := (parked_of_eq heq).1
    rw [hup] at heq hn
    have hr := List.prefix_iff_eq_take.mp (upToPark_isPrefix rtl)
    have hs := List.prefix_iff_eq_take.mp (upToPark_isPrefix spike)
    dsimp only at heq hn
    rw [← heq] at hs
    rw [hn, ← hr, ← hs]
  · exact take_eq_take (FirstDiff.of_parked hst.diff).agree

private theorem covers_of_pass (hspike : spike = aligned entry spikeFull) (htrap : EntryTraps trapped entry rtl spike)
    (h : cosimDiff rtl spikeFull entry = .pass n k park stop) :
    (n = (upToPark rtl).length ∧ n = (upToPark spike).length) ∨ (n < rtl.length ∧ n < spike.length ∧ trapped n) := by
  obtain ⟨⟨-, -, hpark⟩, ⟨heq, hn, -⟩ | ⟨hst, -⟩, -⟩ := (cosimDiff_eq_pass hspike).mp h
  · have hup := (parked_of_eq heq).1
    rw [hup] at heq hn
    exact .inl ⟨hn, hn.trans (congrArg List.length heq)⟩
  · have hdiff := FirstDiff.of_parked hst.diff
    exact .inr ⟨hdiff.left, hdiff.right, htrap n hst hpark⟩

variable {runs : List Retire × List Retire}

/-- What the comparator passes agrees up to its parks, or parts where Spike stands at the entry. -/
private theorem parts_of_exit (hspike : spike = aligned entry spikeFull)
    (h : (cosimDiff rtl spikeFull entry).exitCode = 0) :
    parkPcDiffers rtl spike = false ∧
      ((parked rtl spike).1 = (parked rtl spike).2 ∨ ∃ n,
        Stands entry (parked rtl spike).1 (parked rtl spike).2 n) := by
  obtain ⟨n, k, park, stop, hpass⟩ := exitCode_eq_zero.mp h
  obtain ⟨⟨-, -, hpark⟩, ⟨heq, -⟩ | ⟨hst, -⟩, -⟩ := (cosimDiff_eq_pass hspike).mp hpass
  · exact ⟨hpark, .inl heq⟩
  · exact ⟨hpark, .inr ⟨n, hst⟩⟩

private theorem masksNone_of_reports (hspike : spike = aligned entry spikeFull)
    (htrap : EntryTraps trapped entry rtl spike)
    (h : ∀ i, FirstDiff runs.1 runs.2 i → ¬trapped i → (cosimDiff rtl spikeFull entry).exitCode ≠ 0) :
    MasksNone trapped rtl spikeFull entry runs := by
  subst hspike
  refine ⟨fun n k park stop hpass => ?_, fun n k park stop hpass => ?_, h⟩
  · exact equal_of_pass rfl hpass
  · exact covers_of_pass rfl htrap hpass

/-- If no difference of `runs` is masked, Spike stands at the entry for traps only. -/
private theorem MasksNone.entryTraps (h : MasksNone trapped rtl spikeFull entry runs)
    (hspike : spike = aligned entry spikeFull)
    (hruns : ∀ i, FirstDiff (parked rtl spike).1 (parked rtl spike).2 i → FirstDiff runs.1 runs.2 i) :
    EntryTraps trapped entry rtl spike := by
  intro i hst hpark
  by_contra ht
  exact h.reports i (hruns i hst.diff) ht (exit_of_stands hspike hst hpark)

end Trapped

/-- The comparator masks no divergence exactly if Spike stands at the entry PC, where the runs part, for a trap only,
and if the runs part behind their parks for a trap only; of what it compares it masks none exactly under the first
condition. -/
theorem masksNone_iff (trapped : Nat → Prop) (rtl spikeFull : List Retire) (entry : Nat) :
    let spike := aligned entry spikeFull
    (MasksNone trapped rtl spikeFull entry (rtl, spike) ↔
      EntryTraps trapped entry rtl spike ∧ ParkTraps trapped rtl spike) ∧
      (MasksNone trapped rtl spikeFull entry (parked rtl spike) ↔ EntryTraps trapped entry rtl spike) := by
  intro spike
  have hspike : spike = aligned entry spikeFull := rfl
  constructor
  · constructor
    · intro h
      refine ⟨h.entryTraps hspike fun i hdiff => FirstDiff.of_parked hdiff, fun heq i hdiff => ?_⟩
      by_contra ht
      have hr : rtl ≠ [] := List.ne_nil_of_length_pos (Nat.zero_lt_of_lt hdiff.left)
      have hs : spike ≠ [] := List.ne_nil_of_length_pos (Nat.zero_lt_of_lt hdiff.right)
      exact h.reports i hdiff ht (exit_of_parked hspike heq hr hs)
    · rintro ⟨hentry, hbehind⟩
      refine masksNone_of_reports hspike hentry fun i hdiff ht hexit => ?_
      obtain ⟨hpark, heq | ⟨n, hst⟩⟩ := parts_of_exit hspike hexit
      · exact ht (hbehind heq i hdiff)
      · rw [hdiff.unique (FirstDiff.of_parked hst.diff)] at ht
        exact ht (hentry n hst hpark)
  · constructor
    · exact fun h => h.entryTraps hspike fun i hdiff => hdiff
    · intro hentry
      refine masksNone_of_reports hspike hentry fun i hdiff ht hexit => ?_
      obtain ⟨hpark, heq | ⟨n, hst⟩⟩ := parts_of_exit hspike hexit
      · rw [heq] at hdiff
        exact hdiff.irrefl
      · rw [hdiff.unique hst.diff] at ht
        exact ht (hentry n hst hpark)

/-- A program that counts in `x5` and branches back to its entry, on an RTL that does not take the branch: Spike
stands at the entry without a trap, the runs part there, and the comparator passes them. -/
theorem masks_branch_to_entry :
    let rtl : List Retire := [⟨0, 5, 1⟩, ⟨4, 0, 0⟩] ++ List.replicate 8 ⟨8, 0, 0⟩
    let spikeFull : List Retire :=
      [⟨0x1000, 5, 0x1000⟩, ⟨0x1010, 0, 0⟩, ⟨0, 5, 1⟩, ⟨4, 0, 0⟩, ⟨0, 5, 2⟩, ⟨4, 0, 0⟩, ⟨0, 5, 3⟩]
    cosimDiff rtl spikeFull 0 = .pass 2 2 (some 8) (some 2) ∧
      ¬MasksNone (fun _ => False) rtl spikeFull 0 (rtl, aligned 0 spikeFull) ∧
      ¬MasksNone (fun _ => False) rtl spikeFull 0 (parked rtl (aligned 0 spikeFull)) := by
  intro rtl spikeFull
  have hpass : cosimDiff rtl spikeFull 0 = .pass 2 2 (some 8) (some 2) := by decide
  have hno : ∀ runs, ¬MasksNone (fun _ => False) rtl spikeFull 0 runs := by
    intro runs h
    rcases h.covers 2 2 (some 8) (some 2) hpass with ⟨hr, -⟩ | ⟨-, -, ht⟩
    · exact absurd hr (by decide)
    · exact ht
  exact ⟨hpass, hno _, hno _⟩

end CosimDiff

end Yarv
