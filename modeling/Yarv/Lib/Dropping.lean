import Mathlib.Tactic

/-!
# A queue that drops

Words reach a consumer through a queue of bounded depth.  A word that finds the queue full is dropped and raises a
sticky flag, which the consumer clears.  The words are numbered as they arrive, the dropped ones too, so that a hole
in what the consumer takes is a jump in its numbers.
-/

namespace Dropping

/-- The queue and its history. -/
structure Line (α : Type) where
  /-- The words that have arrived. -/
  heard : Nat
  queue : List (Nat × α)
  ovr : Bool
  /-- The words the consumer has taken, in their order. -/
  taken : List Nat
  /-- The words that arrived before the last hole have smaller numbers. -/
  lastDrop : Nat
  /-- Where the words behind the last clear and behind every hole before it begin in the stream. -/
  whole : Nat

namespace Line

variable {α : Type} (l : Line α)

/-- A word arrives. -/
def arrive (depth : Nat) (a : α) : Line α :=
  if l.queue.length = depth then { l with heard := l.heard + 1, ovr := true, lastDrop := l.heard + 1 }
  else { l with heard := l.heard + 1, queue := l.queue ++ [(l.heard, a)] }

/-- The consumer takes the head of the queue. -/
def take : Line α := { l with queue := l.queue.tail, taken := l.taken ++ (l.queue.head?.map Prod.fst).toList }

/-- The consumer throws the head of the queue away. -/
def discard : Line α := { l with queue := l.queue.tail }

/-- The queued words in front of the last hole. -/
def older : Nat := l.queue.countP fun x => decide (x.1 < l.lastDrop)

/-- The consumer clears the flag. -/
def clear : Line α := { l with ovr := false, whole := l.taken.length + l.older }

/-- What the consumer has taken and what it has still to take. -/
def stream : List Nat := l.taken ++ l.queue.map Prod.fst

/-! ### What is known of the numbers -/

/-- Behind the last hole the queue has every word. -/
def Settled : Prop :=
  ∃ o m, l.queue.map Prod.fst = o ++ List.range' (l.heard - m) m ∧ (∀ x ∈ o, x < l.lastDrop) ∧
    l.lastDrop + m ≤ l.heard

/-- While the flag is down, the stream has every word from `whole` on. -/
def Whole : Prop := l.ovr = false → ∀ i x, l.whole ≤ i → l.stream[i]? = some x → x + l.stream.length = l.heard + i

/-- While the flag is up, the consumer has still `k` words to take before it comes to a hole. -/
def Ahead (k : Nat) : Prop :=
  l.ovr = true → ∃ e b, l.taken.length + k ≤ e ∧ e ≤ l.stream.length ∧
    ∀ i x, l.whole ≤ i → i < e → l.stream[i]? = some x → x + e = b + i

/-- From `whole` on the consumer has taken every word. -/
def Unbroken : Prop := ∃ a, l.taken.drop l.whole = List.range' a (l.taken.length - l.whole)

variable {l}

theorem stream_length : l.stream.length = l.taken.length + l.queue.length := by
  rw [stream, List.length_append, List.length_map]

@[simp] theorem take_stream : l.take.stream = l.stream := by
  rw [stream, stream, take]
  cases l.queue with
  | nil => simp
  | cons x xs => simp

theorem take_taken_length : l.take.taken.length ≤ l.taken.length + 1 := by
  rw [take, List.length_append]
  cases l.queue.head? with
  | none => simp
  | some x => simp

/-! ### An arrival -/

theorem arrive_full {depth : Nat} (h : l.queue.length = depth) (a : α) :
    l.arrive depth a = { l with heard := l.heard + 1, ovr := true, lastDrop := l.heard + 1 } := if_pos h

theorem arrive_room {depth : Nat} (h : l.queue.length ≠ depth) (a : α) :
    l.arrive depth a = { l with heard := l.heard + 1, queue := l.queue ++ [(l.heard, a)] } := if_neg h

theorem Settled.lt_heard (h : l.Settled) : ∀ x ∈ l.queue.map Prod.fst, x < l.heard := by
  obtain ⟨o, m, hq, ho, hm⟩ := h
  intro x hx
  rw [hq, List.mem_append] at hx
  rcases hx with hx | hx
  · have := ho x hx
    omega
  · rw [List.mem_range'_1] at hx
    omega

theorem Settled.arrive (h : l.Settled) (depth : Nat) (a : α) : (l.arrive depth a).Settled := by
  by_cases hf : l.queue.length = depth
  · rw [arrive_full hf]
    refine ⟨l.queue.map Prod.fst, 0, by simp, fun x hx => ?_, le_rfl⟩
    exact Nat.lt_succ_of_lt (h.lt_heard x hx)
  · rw [arrive_room hf]
    obtain ⟨o, m, hq, ho, hm⟩ := h
    refine ⟨o, m + 1, ?_, ho, by dsimp only; omega⟩
    have hr : List.range' (l.heard - m) (m + 1) = List.range' (l.heard - m) m ++ [l.heard] := by
      rw [List.range'_1_concat, Nat.sub_add_cancel (by omega)]
    dsimp only
    rw [List.map_append, hq, Nat.add_sub_add_right, hr, List.append_assoc]
    rfl

theorem Settled.tail (h : l.Settled) {l' : Line α} (hq' : l'.queue = l.queue.tail) (hh : l'.heard = l.heard)
    (hd : l'.lastDrop = l.lastDrop) : l'.Settled := by
  obtain ⟨o, m, hq, ho, hm⟩ := h
  rw [Settled, hh, hd, hq', List.map_tail, hq]
  cases o with
  | cons x o => exact ⟨o, m, rfl, fun y hy => ho y (List.mem_cons_of_mem _ hy), hm⟩
  | nil =>
    cases m with
    | zero => exact ⟨[], 0, rfl, by simp, hm⟩
    | succ m =>
      refine ⟨[], m, ?_, by simp, by omega⟩
      rw [List.nil_append, List.nil_append, List.range'_succ, List.tail_cons]
      congr 1
      omega

theorem Settled.take (h : l.Settled) : l.take.Settled := h.tail rfl rfl rfl

theorem Settled.discard (h : l.Settled) : l.discard.Settled := h.tail rfl rfl rfl

theorem Settled.clear (h : l.Settled) : l.clear.Settled := h

/-- The stream behind an arrival that finds room. -/
theorem arrive_stream {depth : Nat} (h : l.queue.length ≠ depth) (a : α) :
    (l.arrive depth a).stream = l.stream ++ [l.heard] := by
  rw [arrive_room h, stream, stream, List.append_assoc]
  simp

theorem Whole.arrive (h : l.Whole) (depth : Nat) (a : α) : (l.arrive depth a).Whole := by
  by_cases hf : l.queue.length = depth
  · rw [arrive_full hf]
    intro ho
    cases ho
  · intro ho i x hi hx
    have hs := arrive_stream hf a
    rw [hs, List.getElem?_append] at hx
    rw [hs, List.length_append, List.length_singleton]
    rw [arrive_room hf] at ho hi ⊢
    split at hx
    · have := h ho i x hi hx
      dsimp only
      omega
    · rw [List.getElem?_singleton] at hx
      split at hx
      · rename_i hlt heq
        cases hx
        dsimp only
        omega
      · cases hx

theorem Ahead.arrive {k depth : Nat} (h : l.Ahead k) (hw : l.Whole) (hk : k ≤ depth) (a : α) :
    (l.arrive depth a).Ahead k := by
  by_cases hf : l.queue.length = depth
  · rw [arrive_full hf]
    intro _
    cases ho : l.ovr with
    | true => exact h ho
    | false =>
      -- the first hole behind the clear is behind the whole stream
      refine ⟨l.stream.length, l.heard, ?_, le_rfl, fun i x hi _ hx => hw ho i x hi hx⟩
      rw [stream_length]
      dsimp only
      omega
  · intro ho
    have hs := arrive_stream hf a
    rw [arrive_room hf] at ho hs ⊢
    obtain ⟨e, b, he, hle, hx⟩ := h ho
    refine ⟨e, b, he, ?_, fun i x hi hlt hget => ?_⟩
    · rw [hs, List.length_append]
      omega
    · rw [hs, List.getElem?_append_left (by omega)] at hget
      exact hx i x hi hlt hget

/-! ### The consumer -/

theorem Whole.take (h : l.Whole) : l.take.Whole := by
  intro ho i x hi hx
  rw [take_stream] at hx ⊢
  exact h ho i x hi hx

theorem Ahead.take {k : Nat} (h : l.Ahead (k + 1)) : l.take.Ahead k := by
  intro ho
  obtain ⟨e, b, he, hle, hx⟩ := h ho
  have hlen := take_taken_length (l := l)
  refine ⟨e, b, by omega, by rwa [take_stream], fun i x hi hlt hget => ?_⟩
  rw [take_stream] at hget
  exact hx i x hi hlt hget

theorem Ahead.mono {k k' : Nat} (h : l.Ahead k) (hk : k' ≤ k) : l.Ahead k' := by
  intro ho
  obtain ⟨e, b, he, hle, hx⟩ := h ho
  exact ⟨e, b, by omega, hle, hx⟩

/-- A consumer that finds the flag down is ahead of every hole to come. -/
theorem ahead_of_down (h : l.ovr = false) (k : Nat) : l.Ahead k := by
  intro ho
  rw [h] at ho
  cases ho

/-- The words behind a clear. -/
theorem Settled.whole (h : l.Settled) : l.clear.Whole := by
  obtain ⟨o, m, hq, ho, hm⟩ := h
  intro _ i x hi hx
  have hold : l.older = o.length := by
    have hcount : (l.queue.map Prod.fst).countP (fun x => decide (x < l.lastDrop)) = o.length := by
      rw [hq, List.countP_append, List.countP_eq_length.mpr (by simpa using ho),
        List.countP_eq_zero.mpr, Nat.add_zero]
      intro x hx
      rw [List.mem_range'_1] at hx
      simp
      omega
    rw [← hcount, List.countP_map]
    rfl
  have hs : l.clear.stream = (l.taken ++ o) ++ List.range' (l.heard - m) m := by
    change l.taken ++ l.queue.map Prod.fst = _
    rw [hq, List.append_assoc]
  have hi' : (l.taken ++ o).length ≤ i := by
    change l.taken.length + l.older ≤ i at hi
    rw [List.length_append]
    omega
  have hlt : i - (l.taken ++ o).length < m := by
    have h1 : i < l.clear.stream.length := (List.getElem?_eq_some_iff.mp hx).1
    rw [hs, List.length_append, List.length_range'] at h1
    omega
  rw [hs, List.getElem?_append_right hi', List.getElem?_range' hlt] at hx
  rw [hs, List.length_append, List.length_range']
  cases hx
  change _ = l.heard + i
  omega

/-- What the consumer has taken. -/
theorem unbroken (hw : l.Whole) (ha : l.Ahead 0) : l.Unbroken := by
  have hpt : ∃ b, ∀ i x, l.whole ≤ i → l.taken[i]? = some x → x + l.taken.length = b + i := by
    have hstream : ∀ i x, l.taken[i]? = some x → l.stream[i]? = some x ∧ i < l.taken.length := by
      intro i x hx
      have hlt : i < l.taken.length := (List.getElem?_eq_some_iff.mp hx).1
      exact ⟨by rw [stream, List.getElem?_append_left hlt, hx], hlt⟩
    cases ho : l.ovr with
    | false =>
      refine ⟨l.heard + l.taken.length - l.stream.length, fun i x hi hx => ?_⟩
      obtain ⟨hx', hlt⟩ := hstream i x hx
      have := hw ho i x hi hx'
      have hlen := stream_length (l := l)
      omega
    | true =>
      obtain ⟨e, b, he, hle, hrun⟩ := ha ho
      refine ⟨b + l.taken.length - e, fun i x hi hx => ?_⟩
      obtain ⟨hx', hlt⟩ := hstream i x hx
      have := hrun i x hi (by omega) hx'
      omega
  obtain ⟨b, hb⟩ := hpt
  refine ⟨l.taken[l.whole]?.getD 0, List.ext_getElem? fun j => ?_⟩
  rw [List.getElem?_drop]
  by_cases hj : j < l.taken.length - l.whole
  · rw [List.getElem?_range' hj]
    obtain ⟨x, hx⟩ : ∃ x, l.taken[l.whole + j]? = some x := ⟨_, List.getElem?_eq_getElem (by omega)⟩
    obtain ⟨y, hy⟩ : ∃ y, l.taken[l.whole]? = some y := ⟨_, List.getElem?_eq_getElem (by omega)⟩
    have h1 := hb _ x (Nat.le_add_right _ _) hx
    have h2 := hb _ y le_rfl hy
    rw [hx, hy, Option.getD_some]
    congr 1
    omega
  · rw [List.getElem?_eq_none (by omega), List.getElem?_eq_none (by rw [List.length_range']; omega)]

/-- A stretch of what the consumer has taken. -/
theorem Unbroken.stretch (h : l.Unbroken) : ∃ a, ∀ i n, l.whole ≤ i → i + n ≤ l.taken.length →
    (l.taken.drop i).take n = List.range' (a + (i - l.whole)) n := by
  obtain ⟨a, ha⟩ := h
  refine ⟨a, fun i n hi hn => ?_⟩
  have hdrop : l.taken.drop i = (l.taken.drop l.whole).drop (i - l.whole) := by
    rw [List.drop_drop, Nat.add_sub_cancel' hi]
  rw [hdrop, ha, List.drop_range', List.take_range'_of_length_ge (by omega), Nat.mul_one]

end Line

end Dropping
