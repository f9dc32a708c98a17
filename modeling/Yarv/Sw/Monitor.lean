import Mathlib.Data.BitVec
import Mathlib.Tactic
import Yarv.Pkg

/-!
# `yarvmon.c`

The line editor and the interpreter of a line.  Memory and peripherals are whatever answers to byte accesses; the log
says what a line has done to them.  The interpreter is compared with the commands a line spells, which are a matter of
its bytes alone.
-/

namespace Yarv.Monitor

/-! ### The line editor -/

def IN_BUF_SIZE : Nat := 132

abbrev InBuf := Vector (BitVec 8) IN_BUF_SIZE

/-- `'\r'` or `'\n'`. -/
def endsLine (c : BitVec 8) : Bool := c == 0x0D || c == 0x0A

/-- `'_'`, backspace or delete. -/
def erases (c : BitVec 8) : Bool := c == 0x5F || c == 0x08 || c == 0x7F

def newline : List (BitVec 8) := [0x0D, 0x0A]

/-- `"\b \b"`. -/
def rubout : List (BitVec 8) := [0x08, 0x20, 0x08]

/-- What `get_line` has come to: it waits for the next character, it has written outside of `in_buf`, or it has
returned, with the characters behind the line. -/
inductive GetLine
  | waits (buf : InBuf) (idx : Nat) (out : List (BitVec 8))
  | outside (idx : Nat)
  | line (buf : InBuf) (len : Nat) (out rest : List (BitVec 8))

/-- `get_line` at `idx`, with what it has echoed so far. -/
def get_line (buf : InBuf) (idx : Nat) (out : List (BitVec 8)) : List (BitVec 8) → GetLine
  | [] => .waits buf idx out
  | c :: cs =>
    if endsLine c then .line buf idx (out ++ newline) cs
    else if erases c then
      if 0 < idx then get_line buf (idx - 1) (out ++ rubout) cs else get_line buf idx out cs
    else if IN_BUF_SIZE - 1 ≤ idx then get_line buf idx out cs
    else if h : idx < IN_BUF_SIZE then get_line (buf.set idx c h) (idx + 1) (out ++ [c]) cs
    else .outside idx

/-! ### The interpreter -/

/-- Memory and peripherals under byte accesses; the variables of the monitor itself are not part of it. -/
structure Memory (σ : Type) where
  read : σ → Word → BitVec 8 × σ
  write : σ → Word → BitVec 8 → σ

inductive Mode
  | xam | stor | block
  deriving DecidableEq, Repr

/-- What a command has done: a block examine is logged with the addresses it has read. -/
inductive Entry
  | exam (a : Word)
  | store (a : Word) (b : BitVec 8)
  | block (xam stop : Word) (reads : List Word)

/-- `xam`, `st_addr`, the memory, and what was printed and done. -/
structure Mon (σ : Type) where
  xam : Word
  stAddr : Word
  mem : σ
  out : List (BitVec 8)
  log : List Entry

def print_nibble (v : Word) : BitVec 8 :=
  ([0x30, 0x31, 0x32, 0x33, 0x34, 0x35, 0x36, 0x37, 0x38, 0x39, 0x41, 0x42, 0x43, 0x44, 0x45, 0x46] :
    List (BitVec 8)).getD (v &&& 0xF).toNat 0

def print_hex32 (v : Word) : List (BitVec 8) :=
  [28, 24, 20, 16, 12, 8, 4, 0].map fun i : Nat => print_nibble (v >>> i)

def print_hex8 (v : BitVec 8) : List (BitVec 8) :=
  [print_nibble ((v >>> 4).setWidth 32), print_nibble (v.setWidth 32)]

def print_addr_prefix (addr : Word) : List (BitVec 8) := newline ++ print_hex32 addr ++ [0x3A]

def is_hex_digit (c : BitVec 8) : Option Word :=
  if 0x30 ≤ c ∧ c ≤ 0x39 then some (c - 0x30).toNat
  else if 0x41 ≤ c ∧ c ≤ 0x46 then some ((c - 0x41).toNat + 10 : Nat)
  else if 0x61 ≤ c ∧ c ≤ 0x66 then some ((c - 0x61).toNat + 10 : Nat)
  else none

/-- The loop that takes delimiters and sets the mode. -/
def skip (mode : Mode) : List (BitVec 8) → Mode × List (BitVec 8)
  | [] => (mode, [])
  | c :: cs =>
    if c = 0x2E then skip .block cs
    else if c = 0x3A then skip .stor cs
    else if c = 0x20 then skip mode cs
    else (mode, c :: cs)

/-- The loop that takes the digits of a number: `hex_val`, `digits`, and the rest of the line. -/
def number (hexVal : Word) (digits : Nat) : List (BitVec 8) → Word × Nat × List (BitVec 8)
  | [] => (hexVal, digits, [])
  | c :: cs =>
    match is_hex_digit c with
    | none => (hexVal, digits, c :: cs)
    | some v => number (hexVal <<< 4 ||| v) (digits + 1) cs

/-- One step less to go. -/
private theorem to_go_succ {xam stop : Word} (h : xam ≠ stop) :
    (stop - xam).toNat = (stop - (xam + 1)).toNat + 1 := by
  have hne : (stop - xam).toNat ≠ 0 := by
    intro h0
    rw [BitVec.toNat_sub] at h0
    exact h (BitVec.eq_of_toNat_eq (by omega))
  have hnext : stop - (xam + 1) = stop - xam - 1 := by ring
  have hone : (1 : Word).toNat = 1 := rfl
  rw [hnext]
  generalize stop - xam = d at hne
  have hle : (1 : Word) ≤ d := by
    rw [BitVec.le_def, hone]
    omega
  rw [BitVec.toNat_sub_of_le hle, hone]
  omega

section Interpreter

variable {σ : Type} (M : Memory σ)

/-- The loop of a block examine: where it has come to, and what it has read. -/
def blockLoop (stop xam : Word) (mem : σ) (out : List (BitVec 8)) (reads : List Word) :
    Word × σ × List (BitVec 8) × List Word :=
  if _h : xam = stop then (xam, (M.read mem xam).2, out ++ print_hex8 (M.read mem xam).1, reads ++ [xam])
  else
    blockLoop stop (xam + 1) (M.read mem xam).2
      (out ++ print_hex8 (M.read mem xam).1 ++ if (xam + 1) &&& 7 = 0 then print_addr_prefix (xam + 1) else [0x20])
      (reads ++ [xam])
termination_by (stop - xam).toNat
decreasing_by
  have hgo := to_go_succ _h
  omega

/-- A number of the line in its mode. -/
def Mon.command (s : Mon σ) (mode : Mode) (v : Word) : Mon σ :=
  match mode with
  | .stor =>
    { s with
      mem := M.write s.mem s.stAddr (v.setWidth 8)
      stAddr := s.stAddr + 1
      log := s.log ++ [.store s.stAddr (v.setWidth 8)] }
  | .block =>
    let (xam, mem, out, reads) := blockLoop M v s.xam s.mem (s.out ++ print_addr_prefix s.xam ++ [0x20]) []
    { s with xam := xam, mem := mem, out := out, log := s.log ++ [.block s.xam v reads] }
  | .xam =>
    { s with
      xam := v
      stAddr := v
      mem := (M.read s.mem v).2
      out := s.out ++ print_addr_prefix v ++ [0x20] ++ print_hex8 (M.read s.mem v).1
      log := s.log ++ [.exam v] }

/-- The mode behind a command. -/
def Mode.behind : Mode → Mode
  | .block => .xam
  | m => m

/-- How a line ends: at its end, at a character that is none of the syntax, or at an `R`, which calls `xam`. -/
inductive Ending
  | eol
  | syntaxError
  | run
  deriving DecidableEq, Repr

end Interpreter

/-! ### Lengths -/

private theorem skip_length (mode : Mode) (l : List (BitVec 8)) : (skip mode l).2.length ≤ l.length := by
  induction l generalizing mode with
  | nil => exact le_rfl
  | cons c cs ih =>
    rw [skip]
    split_ifs
    · exact (ih _).trans (Nat.le_succ _)
    · exact (ih _).trans (Nat.le_succ _)
    · exact (ih _).trans (Nat.le_succ _)
    · exact le_rfl

/-- Every digit counted is one less to come. -/
private theorem number_length (v : Word) (d : Nat) (l : List (BitVec 8)) :
    (number v d l).2.1 + (number v d l).2.2.length = d + l.length := by
  induction l generalizing v d with
  | nil => rfl
  | cons c cs ih =>
    rw [number]
    cases is_hex_digit c with
    | none => rfl
    | some x =>
      rw [ih]
      simp only [List.length_cons]
      omega

section Line

variable {σ : Type} (M : Memory σ)

/-- The loop of `yarvmon` over a line: how it ends, what is left of it there, and what it has done. -/
def line (mode : Mode) (l : List (BitVec 8)) (s : Mon σ) : Ending × List (BitVec 8) × Mon σ :=
  match _hskip : (skip mode l).2 with
  | [] => (.eol, [], s)
  | c :: cs =>
    if c = 0x52 ∨ c = 0x72 then (.run, c :: cs, s)
    else if _hdigits : (number 0 0 (c :: cs)).2.1 = 0 then (.syntaxError, c :: cs, s)
    else line (skip mode l).1.behind (number 0 0 (c :: cs)).2.2 (s.command M (skip mode l).1 (number 0 0 (c :: cs)).1)
termination_by l.length
decreasing_by
  have hlen := skip_length mode l
  have hnum := number_length 0 0 (c :: cs)
  rw [_hskip] at hlen
  omega

end Line

/-! ### The line as it is typed -/

/-- A character typed behind a line. -/
def typed (l : List (BitVec 8)) (c : BitVec 8) : List (BitVec 8) :=
  if erases c then l.dropLast else if l.length < IN_BUF_SIZE - 1 then l ++ [c] else l

/-- A line with its erasures carried out and its overflow dropped. -/
def edited (cs : List (BitVec 8)) : List (BitVec 8) := cs.foldl typed []

/-- The characters of a buffer before `idx`. -/
def held (buf : InBuf) (idx : Nat) : List (BitVec 8) := buf.toList.take idx

section Editor

variable {buf : InBuf} {idx : Nat} {c t : BitVec 8} {l cs rest out : List (BitVec 8)}

/-- The buffer holds a line that leaves room for the terminator. -/
structure Holds (buf : InBuf) (idx : Nat) (l : List (BitVec 8)) : Prop where
  held : held buf idx = l
  len : l.length = idx
  room : idx ≤ IN_BUF_SIZE - 1

private theorem holds_nil (buf : InBuf) : Holds buf 0 [] := ⟨rfl, rfl, Nat.zero_le _⟩

private theorem Holds.erase (h : Holds buf idx l) : Holds buf (idx - 1) l.dropLast where
  held := by
    have hlt : idx < buf.toList.length := by
      have hroom := h.room
      unfold IN_BUF_SIZE at hroom
      rw [Vector.length_toList]
      unfold IN_BUF_SIZE
      omega
    rw [← h.held, Monitor.held, Monitor.held, List.dropLast_take hlt]
  len := by rw [List.length_dropLast, h.len]
  room := (Nat.sub_le _ _).trans h.room

private theorem Holds.put (h : Holds buf idx l) (hidx : idx < IN_BUF_SIZE) (hroom : idx < IN_BUF_SIZE - 1)
    (c : BitVec 8) :
    Holds (buf.set idx c hidx) (idx + 1) (l ++ [c]) where
  held := by
    have hlt : idx < (buf.toList.set idx c).length := by
      rw [List.length_set, Vector.length_toList]
      exact hidx
    rw [← h.held, Monitor.held, Monitor.held, Vector.toList_set, List.take_succ_eq_append_getElem hlt,
      List.take_set_of_le le_rfl, List.getElem_set_self]
  len := by rw [List.length_append, h.len, List.length_singleton]
  room := hroom

/-- One character behind a line that is not its end. -/
private theorem get_line_step (out : List (BitVec 8)) (h : Holds buf idx l) (hc : endsLine c = false) :
    ∃ buf' idx' out', Holds buf' idx' (typed l c) ∧
      ∀ rest, get_line buf idx out (c :: rest) = get_line buf' idx' out' rest := by
  unfold typed
  by_cases he : erases c = true
  · rw [if_pos he]
    refine ⟨buf, idx - 1, if 0 < idx then out ++ rubout else out, h.erase, fun rest => ?_⟩
    rw [get_line, hc, if_neg Bool.false_ne_true, if_pos he]
    by_cases h0 : 0 < idx
    · rw [if_pos h0, if_pos h0]
    · have hz : idx - 1 = idx := by omega
      rw [if_neg h0, if_neg h0, hz]
  · rw [if_neg he, h.len]
    by_cases hroom : idx < IN_BUF_SIZE - 1
    · have hidx : idx < IN_BUF_SIZE := hroom.trans_le (Nat.sub_le _ _)
      rw [if_pos hroom]
      refine ⟨buf.set idx c hidx, idx + 1, out ++ [c], h.put hidx hroom c, fun rest => ?_⟩
      rw [get_line, hc, if_neg Bool.false_ne_true, if_neg he, if_neg (Nat.not_le.mpr hroom), dif_pos hidx]
    · rw [if_neg hroom]
      refine ⟨buf, idx, out, h, fun rest => ?_⟩
      rw [get_line, hc, if_neg Bool.false_ne_true, if_neg he, if_pos (Nat.not_lt.mp hroom)]

/-- The characters of a line. -/
private theorem get_line_run (out : List (BitVec 8)) (h : Holds buf idx l) (hcs : ∀ c ∈ cs, endsLine c = false) :
    ∃ buf' idx' out', Holds buf' idx' (cs.foldl typed l) ∧
      ∀ rest, get_line buf idx out (cs ++ rest) = get_line buf' idx' out' rest := by
  induction cs generalizing buf idx l out with
  | nil => exact ⟨buf, idx, out, h, fun rest => rfl⟩
  | cons c cs ih =>
    obtain ⟨buf₁, idx₁, out₁, h₁, hstep⟩ := get_line_step out h (hcs c List.mem_cons_self)
    obtain ⟨buf₂, idx₂, out₂, h₂, hrun⟩ := ih out₁ h₁ fun c' hc' => hcs c' (List.mem_cons_of_mem _ hc')
    exact ⟨buf₂, idx₂, out₂, h₂, fun rest => (hstep _).trans (hrun rest)⟩

/-- `get_line` returns the edited line. -/
private theorem get_line_edited (buf : InBuf) (rest : List (BitVec 8)) (hcs : ∀ c ∈ cs, endsLine c = false)
    (ht : endsLine t = true) :
    ∃ buf' len out, get_line buf 0 [] (cs ++ t :: rest) = .line buf' len out rest ∧ Holds buf' len (edited cs) := by
  obtain ⟨buf', idx, out, h, hrun⟩ := get_line_run [] (holds_nil buf) hcs
  refine ⟨buf', idx, out ++ newline, ?_, h⟩
  rw [hrun, get_line, if_pos ht]

/-- `get_line` never writes outside of `in_buf`. -/
private theorem get_line_inside (h : idx ≤ IN_BUF_SIZE - 1) (j : Nat) : get_line buf idx out cs ≠ .outside j := by
  induction cs generalizing buf idx out with
  | nil =>
    intro hget
    cases hget
  | cons c cs ih =>
    rw [get_line]
    by_cases hc : endsLine c = true
    · rw [if_pos hc]
      intro hget
      cases hget
    rw [if_neg hc]
    by_cases he : erases c = true
    · rw [if_pos he]
      by_cases h0 : 0 < idx
      · rw [if_pos h0]
        exact ih ((Nat.sub_le _ _).trans h)
      · rw [if_neg h0]
        exact ih h
    rw [if_neg he]
    by_cases hroom : IN_BUF_SIZE - 1 ≤ idx
    · rw [if_pos hroom]
      exact ih h
    · have hidx : idx < IN_BUF_SIZE := (Nat.not_le.mp hroom).trans_le (Nat.sub_le _ _)
      rw [if_neg hroom, dif_pos hidx]
      exact ih (Nat.not_le.mp hroom)

end Editor

/-! ### The commands of a line -/

/-- What a line spells: its commands, how it ends, and what is left of it there. -/
def parse (mode : Mode) (l : List (BitVec 8)) : List (Mode × Word) × Ending × List (BitVec 8) :=
  match _hskip : (skip mode l).2 with
  | [] => ([], .eol, [])
  | c :: cs =>
    if c = 0x52 ∨ c = 0x72 then ([], .run, c :: cs)
    else if _hdigits : (number 0 0 (c :: cs)).2.1 = 0 then ([], .syntaxError, c :: cs)
    else
      (((skip mode l).1, (number 0 0 (c :: cs)).1) :: (parse (skip mode l).1.behind (number 0 0 (c :: cs)).2.2).1,
        (parse (skip mode l).1.behind (number 0 0 (c :: cs)).2.2).2)
termination_by l.length
decreasing_by
  have hlen := skip_length mode l
  have hnum := number_length 0 0 (c :: cs)
  rw [_hskip] at hlen
  omega

/-- The address that a command leaves in `xam`. -/
def xamBehind (xam : Word) : Mode × Word → Word
  | (.stor, _) => xam
  | (.block, v) => v
  | (.xam, v) => v

/-- No block examine of the line ends below its beginning. -/
def Forward (xam : Word) : List (Mode × Word) → Prop
  | [] => True
  | c :: cs => (c.1 = .block → xam ≤ c.2) ∧ Forward (xamBehind xam c) cs

/-- A command asks for the byte at `a`. -/
def AsksFor (a xam : Word) : Mode × Word → Prop
  | (.stor, _) => False
  | (.block, v) => xam ≤ a ∧ a ≤ v
  | (.xam, v) => a = v

/-- Some command of the line asks for the byte at `a`. -/
def Asks (a xam : Word) : List (Mode × Word) → Prop
  | [] => False
  | c :: cs => AsksFor a xam c ∨ Asks a (xamBehind xam c) cs

/-- The addresses that a command has read. -/
def Entry.reads : Entry → List Word
  | .exam a => [a]
  | .store _ _ => []
  | .block _ _ reads => reads

/-- A block examine has read the bytes from `xam` to its end, and at most one for an end below `xam`. -/
def Entry.AsAsked : Entry → Prop
  | .exam _ => True
  | .store _ _ => True
  | .block xam stop reads =>
    (xam ≤ stop → reads.map BitVec.toNat = List.range' xam.toNat (stop.toNat + 1 - xam.toNat)) ∧
      (stop < xam → reads.length ≤ 1)

/-! ### What the line does -/

section Run

variable {σ : Type} {M : Memory σ} {s : Mon σ} {mode : Mode} {l cs : List (BitVec 8)} {c : BitVec 8}

private theorem parse_nil (h : (skip mode l).2 = []) : parse mode l = ([], .eol, []) := by
  rw [parse]
  split
  · rfl
  · rename_i h'
    rw [h] at h'
    cases h'

private theorem parse_cons (h : (skip mode l).2 = c :: cs) :
    parse mode l =
      if c = 0x52 ∨ c = 0x72 then ([], .run, c :: cs)
      else if (number 0 0 (c :: cs)).2.1 = 0 then ([], .syntaxError, c :: cs)
      else
        (((skip mode l).1, (number 0 0 (c :: cs)).1) ::
          (parse (skip mode l).1.behind (number 0 0 (c :: cs)).2.2).1,
          (parse (skip mode l).1.behind (number 0 0 (c :: cs)).2.2).2) := by
  rw [parse]
  split
  · rename_i h'
    rw [h] at h'
    cases h'
  · rename_i h'
    rw [h] at h'
    cases h'
    rfl

private theorem line_nil (h : (skip mode l).2 = []) : line M mode l s = (.eol, [], s) := by
  rw [line]
  split
  · rfl
  · rename_i h'
    rw [h] at h'
    cases h'

private theorem line_cons (h : (skip mode l).2 = c :: cs) :
    line M mode l s =
      if c = 0x52 ∨ c = 0x72 then (.run, c :: cs, s)
      else if (number 0 0 (c :: cs)).2.1 = 0 then (.syntaxError, c :: cs, s)
      else line M (skip mode l).1.behind (number 0 0 (c :: cs)).2.2
        (s.command M (skip mode l).1 (number 0 0 (c :: cs)).1) := by
  rw [line]
  split
  · rename_i h'
    rw [h] at h'
    cases h'
  · rename_i h'
    rw [h] at h'
    cases h'
    rfl

/-- The interpreter carries the commands out, one after the other. -/
private theorem line_eq (M : Memory σ) (mode : Mode) (l : List (BitVec 8)) (s : Mon σ) :
    line M mode l s =
      ((parse mode l).2.1, (parse mode l).2.2, (parse mode l).1.foldl (fun s c => s.command M c.1 c.2) s) := by
  induction mode, l, s using line.induct M with
  | case1 mode l s hskip => rw [line_nil hskip, parse_nil hskip, List.foldl_nil]
  | case2 mode l s c cs hskip hrun =>
    rw [line_cons hskip, parse_cons hskip, if_pos hrun, if_pos hrun, List.foldl_nil]
  | case3 mode l s c cs hskip hrun hdigits =>
    rw [line_cons hskip, parse_cons hskip, if_neg hrun, if_neg hrun, if_pos hdigits, if_pos hdigits, List.foldl_nil]
  | case4 mode l s c cs hskip hrun hdigits ih =>
    rw [line_cons hskip, parse_cons hskip, if_neg hrun, if_neg hrun, if_neg hdigits, if_neg hdigits, ih,
      List.foldl_cons]

/-- What the loop over delimiters stops at. -/
private theorem skip_stops (h : (skip mode l).2 = c :: cs) : c ≠ 0x2E ∧ c ≠ 0x3A ∧ c ≠ 0x20 := by
  induction l generalizing mode with
  | nil => cases h
  | cons d l ih =>
    rw [skip] at h
    by_cases hdot : d = 0x2E
    · rw [if_pos hdot] at h
      exact ih h
    rw [if_neg hdot] at h
    by_cases hcolon : d = 0x3A
    · rw [if_pos hcolon] at h
      exact ih h
    rw [if_neg hcolon] at h
    by_cases hblank : d = 0x20
    · rw [if_pos hblank] at h
      exact ih h
    rw [if_neg hblank] at h
    obtain ⟨rfl, -⟩ := List.cons.inj h
    exact ⟨hdot, hcolon, hblank⟩

private theorem number_digits (v : Word) (d : Nat) (l : List (BitVec 8)) : d ≤ (number v d l).2.1 := by
  induction l generalizing v d with
  | nil => exact le_rfl
  | cons c cs ih =>
    rw [number]
    cases is_hex_digit c with
    | none => exact le_rfl
    | some x => exact (Nat.le_succ d).trans (ih _ _)

/-- A number without digits. -/
private theorem no_digits (h : (number 0 0 (c :: cs)).2.1 = 0) : is_hex_digit c = none := by
  cases hd : is_hex_digit c with
  | none => rfl
  | some v =>
    rw [number, hd] at h
    have hpos : 0 + 1 ≤ (number ((0 : Word) <<< 4 ||| v) (0 + 1) cs).2.1 := number_digits _ _ _
    exact absurd h (Nat.ne_of_gt hpos)

/-- Where a line has come to: to its end, to an `R`, or to a character that begins no token. -/
def Stopped : Ending → List (BitVec 8) → Prop
  | .eol, l => l = []
  | .run, l => ∃ c cs, l = c :: cs ∧ (c = 0x52 ∨ c = 0x72)
  | .syntaxError, l => ∃ c cs, l = c :: cs ∧ is_hex_digit c = none ∧
      c ∉ ([0x2E, 0x3A, 0x20, 0x52, 0x72] : List (BitVec 8))

private theorem parse_stopped (mode : Mode) (l : List (BitVec 8)) :
    Stopped (parse mode l).2.1 (parse mode l).2.2 := by
  induction mode, l using parse.induct with
  | case1 mode l hskip =>
    rw [parse_nil hskip]
    rfl
  | case2 mode l c cs hskip hrun =>
    rw [parse_cons hskip, if_pos hrun]
    exact ⟨c, cs, rfl, hrun⟩
  | case3 mode l c cs hskip hrun hdigits =>
    rw [parse_cons hskip, if_neg hrun, if_pos hdigits]
    obtain ⟨h1, h2, h3⟩ := skip_stops hskip
    obtain ⟨h4, h5⟩ := not_or.mp hrun
    refine ⟨c, cs, rfl, no_digits hdigits, ?_⟩
    intro hmem
    simp only [List.mem_cons, List.not_mem_nil, or_false] at hmem
    rcases hmem with h | h | h | h | h
    · exact h1 h
    · exact h2 h
    · exact h3 h
    · exact h4 h
    · exact h5 h
  | case4 mode l c cs hskip hrun hdigits ih =>
    rw [parse_cons hskip, if_neg hrun, if_neg hdigits]
    exact ih

/-! ### What a block examine reads -/

/-- A block examine reads from `xam` on until it comes to `stop`, and leaves `xam` there. -/
private theorem blockLoop_reads (M : Memory σ) (stop xam : Word) (mem : σ) (out : List (BitVec 8))
    (reads : List Word) :
    (blockLoop M stop xam mem out reads).1 = stop ∧
      (blockLoop M stop xam mem out reads).2.2.2 =
        reads ++ (List.range ((stop - xam).toNat + 1)).map fun i => xam + BitVec.ofNat 32 i := by
  induction hn : (stop - xam).toNat generalizing xam mem out reads with
  | zero =>
    have hx : xam = stop := by
      by_contra hne
      have hgo := to_go_succ hne
      omega
    rw [blockLoop, dif_pos hx, hx]
    simp
  | succ n ih =>
    have hne : xam ≠ stop := by
      rintro rfl
      rw [BitVec.sub_self] at hn
      cases hn
    have hgo := to_go_succ hne
    obtain ⟨hend, hreads⟩ := ih (xam + 1) (M.read mem xam).2
      (out ++ print_hex8 (M.read mem xam).1 ++ if (xam + 1) &&& 7 = 0 then print_addr_prefix (xam + 1) else [0x20])
      (reads ++ [xam]) (by omega)
    have hsplit : ((List.range (n + 1 + 1)).map fun i => xam + BitVec.ofNat 32 i) =
        xam :: (List.range (n + 1)).map fun i => xam + 1 + BitVec.ofNat 32 i := by
      rw [List.range_succ_eq_map, List.map_cons, List.map_map]
      congr 1
      · exact BitVec.add_zero xam
      · apply List.map_congr_left
        intro i _
        change xam + BitVec.ofNat 32 (i + 1) = xam + 1 + BitVec.ofNat 32 i
        rw [BitVec.ofNat_add, add_assoc, add_comm (BitVec.ofNat 32 i)]
        rfl
    rw [blockLoop, dif_neg hne, hsplit]
    refine ⟨hend, hreads.trans ?_⟩
    rw [List.append_assoc, List.singleton_append]

variable {xam stop : Word}

private theorem upTo_forward (h : xam ≤ stop) :
    ((List.range ((stop - xam).toNat + 1)).map fun i => xam + BitVec.ofNat 32 i).map BitVec.toNat =
      List.range' xam.toNat (stop.toNat + 1 - xam.toNat) := by
  rw [BitVec.le_def] at h
  have hlen : (stop - xam).toNat + 1 = stop.toNat + 1 - xam.toNat := by
    rw [BitVec.toNat_sub_of_le h]
    omega
  have hlt := stop.isLt
  rw [hlen, List.map_map, List.range'_eq_map_range]
  apply List.map_congr_left
  intro i hi
  rw [List.mem_range] at hi
  change (xam + BitVec.ofNat 32 i).toNat = xam.toNat + i
  rw [BitVec.toNat_add, BitVec.toNat_ofNat]
  omega

private theorem mem_upTo (h : xam ≤ stop) (a : Word) :
    (a ∈ (List.range ((stop - xam).toNat + 1)).map fun i => xam + BitVec.ofNat 32 i) ↔ xam ≤ a ∧ a ≤ stop := by
  have hle : xam.toNat ≤ stop.toNat := h
  rw [← List.mem_map_of_injective BitVec.toNat_injective, upTo_forward h, List.mem_range'_1, BitVec.le_def,
    BitVec.le_def]
  omega

/-- The entry of a command. -/
private theorem command_log (M : Memory σ) (s : Mon σ) (c : Mode × Word) :
    (s.command M c.1 c.2).xam = xamBehind s.xam c ∧
      ∃ e, (s.command M c.1 c.2).log = s.log ++ [e] ∧ (e.AsAsked ↔ (c.1 = .block → s.xam ≤ c.2)) ∧
        ((c.1 = .block → s.xam ≤ c.2) → ∀ a, a ∈ e.reads ↔ AsksFor a s.xam c) := by
  obtain ⟨mode, v⟩ := c
  cases mode with
  | xam => exact ⟨rfl, .exam v, rfl, by simp [Entry.AsAsked], fun _ a => by simp [Entry.reads, AsksFor]⟩
  | stor =>
      exact ⟨rfl, .store s.stAddr (v.setWidth 8), rfl, by simp [Entry.AsAsked], fun _ a => by
      simp [Entry.reads, AsksFor]⟩
  | block =>
    obtain ⟨hend, hreads⟩ := blockLoop_reads M v s.xam s.mem (s.out ++ print_addr_prefix s.xam ++ [0x20]) []
    rw [List.nil_append] at hreads
    refine ⟨hend, .block s.xam v (blockLoop M v s.xam s.mem (s.out ++ print_addr_prefix s.xam ++ [0x20]) []).2.2.2,
      rfl, ?_, ?_⟩
    · rw [hreads]
      constructor
      · rintro ⟨-, hback⟩ -
        by_contra hlt
        rw [BitVec.not_le] at hlt
        have hone := hback hlt
        have hne : s.xam ≠ v := by
          rintro h
          rw [h] at hlt
          exact BitVec.lt_irrefl v hlt
        have hgo := to_go_succ hne
        rw [List.length_map, List.length_range] at hone
        omega
      · intro h
        refine ⟨fun hle => upTo_forward hle, fun hlt => absurd (h rfl) (BitVec.not_le.mpr hlt)⟩
    · intro h a
      change a ∈ (blockLoop M v s.xam s.mem (s.out ++ print_addr_prefix s.xam ++ [0x20]) []).2.2.2 ↔ _
      rw [hreads, mem_upTo (h rfl)]
      rfl

/-- All entries of a line are as asked exactly for forward block examines. -/
private theorem asAsked_iff (M : Memory σ) (cmds : List (Mode × Word)) (s : Mon σ) :
    (∀ e ∈ (cmds.foldl (fun s c => s.command M c.1 c.2) s).log, e.AsAsked) ↔
      (∀ e ∈ s.log, e.AsAsked) ∧ Forward s.xam cmds := by
  induction cmds generalizing s with
  | nil => simp [Forward]
  | cons c cmds ih =>
    obtain ⟨hxam, e, hlog, hasked, -⟩ := command_log M s c
    rw [List.foldl_cons, ih, hxam, hlog, Forward, ← hasked]
    simp only [List.mem_append, List.mem_singleton]
    constructor
    · rintro ⟨hall, hrest⟩
      exact ⟨fun e' he' => hall e' (Or.inl he'), hall e (Or.inr rfl), hrest⟩
    · rintro ⟨hall, he, hrest⟩
      refine ⟨?_, hrest⟩
      rintro e' (he' | rfl)
      · exact hall e' he'
      · exact he

/-- Forward block examines read what the line asks for. -/
private theorem reads_iff (M : Memory σ) {cmds : List (Mode × Word)} {s : Mon σ}
    (hf : Forward s.xam cmds) (a : Word) :
    (∃ e ∈ (cmds.foldl (fun s c => s.command M c.1 c.2) s).log, a ∈ e.reads) ↔
      (∃ e ∈ s.log, a ∈ e.reads) ∨ Asks a s.xam cmds := by
  induction cmds generalizing s with
  | nil => simp [Asks]
  | cons c cmds ih =>
    obtain ⟨hxam, e, hlog, -, hreads⟩ := command_log M s c
    rw [List.foldl_cons, ih (by rw [hxam]; exact hf.2), hxam, hlog, Asks, ← hreads hf.1 a]
    simp only [List.mem_append, List.mem_singleton, or_and_right, exists_or, exists_eq_left, or_assoc]

end Run

/-! ### The monitor -/

/-- What a line is to do: every block examine reads what it is asked for, and some byte of the address space is not
read. -/
def Bounded {σ : Type} (s : Mon σ) : Prop := (∀ e ∈ s.log, e.AsAsked) ∧ ∃ a, ∀ e ∈ s.log, a ∉ e.reads

/-- `get_line` stays inside of `in_buf` and returns the edited line; a line comes to its end, to an error or to an
`R`; and its reads are bounded exactly if none of its block examines ends below its beginning and it does not ask for
the whole address space. -/
theorem line_bounded {σ : Type} (M : Memory σ) (s : Mon σ) :
    (∀ (buf : InBuf) cs idx, get_line buf 0 [] cs ≠ .outside idx) ∧
      (∀ (buf : InBuf) cs t rest, (∀ c ∈ cs, endsLine c = false) → endsLine t = true → ∃ buf' len out,
        get_line buf 0 [] (cs ++ t :: rest) = .line buf' len out rest ∧ len < IN_BUF_SIZE ∧
          held buf' len = edited cs) ∧
      ∀ l, Stopped (line M .xam l { s with log := [] }).1 (line M .xam l { s with log := [] }).2.1 ∧
        (Bounded (line M .xam l { s with log := [] }).2.2 ↔
          Forward s.xam (parse .xam l).1 ∧ ∃ a, ¬Asks a s.xam (parse .xam l).1) := by
  refine ⟨fun buf cs idx => get_line_inside (Nat.zero_le _) idx, ?_, ?_⟩
  · intro buf cs t rest hcs ht
    obtain ⟨buf', len, out, hget, hheld⟩ := get_line_edited buf rest hcs ht
    have hroom := hheld.room
    refine ⟨buf', len, out, hget, ?_, hheld.held⟩
    unfold IN_BUF_SIZE at hroom ⊢
    omega
  · intro l
    rw [line_eq]
    refine ⟨parse_stopped _ _, ?_⟩
    have hasked := asAsked_iff M (parse .xam l).1 { s with log := [] }
    unfold Bounded
    constructor
    · rintro ⟨hall, a, ha⟩
      have hf := (hasked.mp hall).2
      refine ⟨hf, a, fun hasks => ?_⟩
      obtain ⟨e, he, hae⟩ := (reads_iff M hf a).mpr (Or.inr hasks)
      exact ha e he hae
    · rintro ⟨hf, a, ha⟩
      refine ⟨hasked.mpr ⟨by simp, hf⟩, a, fun e he hae => ?_⟩
      rcases (reads_iff M (s := { s with log := [] }) hf a).mp ⟨e, he, hae⟩ with ⟨e', he', -⟩ | hasks
      · cases he'
      · exact ha hasks

/-- `1.0`, typed as a line. -/
private theorem parse_backward : (parse .xam [0x31, 0x2E, 0x30]).1 = [(.xam, 1), (.block, 0)] := by
  rw [parse_cons (rfl : (skip .xam [0x31, 0x2E, 0x30]).2 = 0x31 :: [0x2E, 0x30]), if_neg (by decide),
    if_neg (by decide)]
  change (_ :: (parse .xam [0x2E, 0x30]).1) = _
  rw [parse_cons (rfl : (skip .xam [0x2E, 0x30]).2 = 0x30 :: []), if_neg (by decide), if_neg (by decide)]
  change _ :: _ :: (parse .xam []).1 = _
  rw [parse_nil rfl]
  rfl

/-- The line `1.0` reads from 1 up to the end of the address space and round to 0. -/
theorem line_unbounded : ¬∀ (M : Memory Unit) (s : Mon Unit) (l : List (BitVec 8)),
    ∀ e ∈ (line M .xam l { s with log := [] }).2.2.log, e.AsAsked := by
  intro h
  have hall := h ⟨fun _ _ => (0, ()), fun _ _ _ => ()⟩ ⟨0, 0, (), [], []⟩ [0x31, 0x2E, 0x30]
  rw [line_eq, asAsked_iff, parse_backward] at hall
  exact absurd (hall.2.2.1 rfl) (by decide)

end Yarv.Monitor
