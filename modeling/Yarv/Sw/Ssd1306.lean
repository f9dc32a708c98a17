import Yarv.Lib.Bresenham
import Yarv.Lib.Signed
import Yarv.Lib.While
import Yarv.Pkg

/-!
# Drawing in `ssd1306.h`

The drawing functions on the framebuffer.  A loop is run with fuel: a call returns if enough fuel gives its
framebuffer.
-/

namespace Yarv.Ssd1306

open While

def SSD1306_WIDTH : Nat := 128
def SSD1306_HEIGHT : Nat := 64
def SSD1306_FB_SIZE : Nat := 1024

/-- `ssd1306_fb`. -/
abbrev Fb := Vector (BitVec 8) SSD1306_FB_SIZE

/-! ### The code -/

/-- `ssd1306_pixel`; no value for an access outside of the framebuffer. -/
def pixel (fb : Fb) (x y on : Word) : Option Fb :=
  if BitVec.ofNat 32 SSD1306_WIDTH ≤ x ∨ BitVec.ofNat 32 SSD1306_HEIGHT ≤ y then some fb
  else
    let i := (y / 8 * BitVec.ofNat 32 SSD1306_WIDTH + x).toNat
    if h : i < SSD1306_FB_SIZE then
      let bit := (1 : Word) <<< (y % 8).toNat
      if on ≠ 0 then some (fb.set i (fb[i] ||| bit.setWidth 8) h)
        else some (fb.set i (fb[i] &&& (~~~bit).setWidth 8) h)
    else none

/-- A loop over the inclusive range from `a` to `b` that sets the pixel `place v` for each `v`. -/
def span (place : Word → Word × Word) (on b : Word) (_fuel : ℕ) (s : Word × Fb) : Option (Round (Word × Fb) Fb) :=
  if s.1 ≤ b then (pixel s.2 (place s.1).1 (place s.1).2 on).map fun fb => .next (s.1 + 1, fb) else some (.done s.2)

/-- `ssd1306_hline`. -/
def hline (x0 x1 y on : Word) (fb : Fb) : ℕ → Option Fb := loop (span (fun x => (x, y)) on x1) (x0, fb)

/-- `ssd1306_vline`. -/
def vline (x y0 y1 on : Word) (fb : Fb) : ℕ → Option Fb := loop (span (fun y => (x, y)) on y1) (y0, fb)

/-- `ssd1306_rect`. -/
def rect (x y w h on : Word) (fb : Fb) (fuel : ℕ) : Option Fb :=
  if w = 0 ∨ h = 0 then some fb
  else
    (hline x (x + w - 1) y on fb fuel).bind fun fb =>
      (hline x (x + w - 1) (y + h - 1) on fb fuel).bind fun fb =>
        (vline x y (y + h - 1) on fb fuel).bind fun fb => vline (x + w - 1) y (y + h - 1) on fb fuel

/-- A round of the loop of `ssd1306_fill_rect`. -/
def fillRound (x y w h on : Word) (fuel : ℕ) (s : Word × Fb) : Option (Round (Word × Fb) Fb) :=
  if s.1 < h then (hline x (x + w - 1) (y + s.1) on s.2 fuel).map fun fb => .next (s.1 + 1, fb) else some (.done s.2)

/-- `ssd1306_fill_rect`. -/
def fill_rect (x y w h on : Word) (fb : Fb) : ℕ → Option Fb := loop (fillRound x y w h on) (0, fb)

/-- The variables of the loop of `ssd1306_line`. -/
structure LineState where
  x0 : Word
  y0 : Word
  err : Word
  fb : Fb

/-- A round of the loop of `ssd1306_line`. -/
def lineRound (x1 y1 dx dy sx sy on : Word) (_fuel : ℕ) (s : LineState) : Option (Round LineState Fb) :=
  (pixel s.fb s.x0 s.y0 on).map fun fb =>
    if s.x0 = x1 ∧ s.y0 = y1 then .done fb
    else
      let e2 := 2 * s.err
      let err := if (-dy).slt e2 then s.err - dy else s.err
      let x0 := if (-dy).slt e2 then s.x0 + sx else s.x0
      let y0 := if e2.slt dx then s.y0 + sy else s.y0
      .next ⟨x0, y0, if e2.slt dx then err + dx else err, fb⟩

/-- `ssd1306_line`. -/
def line (x0 y0 x1 y1 on : Word) (fb : Fb) : ℕ → Option Fb :=
  let dx := if x0.slt x1 then x1 - x0 else x0 - x1
  let dy := if y0.slt y1 then y1 - y0 else y0 - y1
  let sx : Word := if x0.slt x1 then 1 else -1
  let sy : Word := if y0.slt y1 then 1 else -1
  loop (lineRound x1 y1 dx dy sx sy on) ⟨x0, y0, dx - dy, fb⟩

/-! ### The panel -/

/-- The pixel of the panel in column `px` and row `py`. -/
def lit (fb : Fb) (px py : ℕ) : Bool := (fb[py / 8 * SSD1306_WIDTH + px]?.getD 0).getLsbD (py % 8)

/-- The pixels of `S` are set or cleared, and the others are as before. -/
def Paints (on : Word) (S : ℕ → ℕ → Prop) (fb fb' : Fb) : Prop :=
  ∀ px < SSD1306_WIDTH, ∀ py < SSD1306_HEIGHT,
    (S px py → lit fb' px py = (on != 0)) ∧ (¬S px py → lit fb' px py = lit fb px py)

section Panel

variable {on : Word} {S S' : ℕ → ℕ → Prop} {fb fb' fb'' : Fb}

private theorem paints_nothing (hS : ∀ px py, ¬S px py) :
    Paints on S fb fb := fun px _ py _ => ⟨fun h => absurd h (hS px py), fun _ => rfl⟩

private theorem Paints.congr (h : Paints on S fb fb')
    (hS : ∀ px < SSD1306_WIDTH, ∀ py < SSD1306_HEIGHT, S px py ↔ S' px py) :
    Paints on S' fb fb' := by
  intro px hx py hy
  rw [← hS px hx py hy]
  exact h px hx py hy

/-- One painting after another. -/
private theorem Paints.trans (h : Paints on S fb fb') (h' : Paints on S' fb' fb'') :
    Paints on (fun px py => S px py ∨ S' px py) fb fb'' := by
  intro px hx py hy
  obtain ⟨h1, h2⟩ := h px hx py hy
  obtain ⟨h3, h4⟩ := h' px hx py hy
  constructor
  · intro hS
    by_cases hS' : S' px py
    · exact h3 hS'
    · rw [h4 hS', h1 (hS.resolve_right hS')]
  · intro hS
    obtain ⟨hno, hno'⟩ := not_or.mp hS
    rw [h4 hno', h2 hno]

/-- Every bit of the framebuffer is a pixel of the panel. -/
private theorem exists_pixel (i j : ℕ) (hi : i < SSD1306_FB_SIZE) (hj : j < 8) :
    ∃ px < SSD1306_WIDTH, ∃ py < SSD1306_HEIGHT, py / 8 * SSD1306_WIDTH + px = i ∧ py % 8 = j := by
  unfold SSD1306_FB_SIZE at hi
  unfold SSD1306_WIDTH SSD1306_HEIGHT
  exact ⟨i % 128, by omega, i / 128 * 8 + j, by omega, by omega, by omega⟩

/-- The byte with a bit set or cleared. -/
def withBit (b : BitVec 8) (j : ℕ) (on : Word) : BitVec 8 :=
  if on ≠ 0 then b ||| ((1 : Word) <<< j).setWidth 8 else b &&& (~~~((1 : Word) <<< j)).setWidth 8

private theorem getLsbD_withBit (b : BitVec 8) (on : Word) {j k : ℕ} (hj : j < 8) (hk : k < 8) :
    (withBit b j on).getLsbD k = if k = j then on != 0 else b.getLsbD k := by
  have htable : ∀ j < 8, ∀ k < 8, (((1 : Word) <<< j).setWidth 8).getLsbD k = decide (k = j) ∧
      ((~~~((1 : Word) <<< j)).setWidth 8).getLsbD k = !decide (k = j) := by decide
  obtain ⟨h1, h2⟩ := htable j hj k hk
  unfold withBit
  by_cases hon : on ≠ 0
  · have hone : (on != 0) = true := by
      rw [bne_iff_ne]
      exact hon
    rw [if_pos hon, BitVec.getLsbD_or, h1, hone]
    by_cases h : k = j
    · rw [if_pos h, decide_eq_true h, Bool.or_true]
    · rw [if_neg h, decide_eq_false h, Bool.or_false]
  · have hzero : (on != 0) = false := by
      rw [bne_eq_false_iff_eq]
      exact not_not.mp hon
    rw [if_neg hon, BitVec.getLsbD_and, h2, hzero]
    by_cases h : k = j
    · rw [if_pos h, decide_eq_true h, Bool.not_true, Bool.and_false]
    · rw [if_neg h, decide_eq_false h, Bool.not_false, Bool.and_true]

private theorem pixel_off {x y : Word} (h : SSD1306_WIDTH ≤ x.toNat ∨ SSD1306_HEIGHT ≤ y.toNat) :
    pixel fb x y on = some fb := by
  unfold pixel
  exact if_pos h

private theorem index_lt {x y : ℕ} (hx : x < SSD1306_WIDTH) (hy : y < SSD1306_HEIGHT) :
    y / 8 * SSD1306_WIDTH + x < SSD1306_FB_SIZE := by
  unfold SSD1306_WIDTH at hx ⊢
  unfold SSD1306_HEIGHT at hy
  unfold SSD1306_FB_SIZE
  omega

/-- On the panel one byte of the framebuffer is written. -/
private theorem pixel_on {x y : Word} (hx : x.toNat < SSD1306_WIDTH) (hy : y.toNat < SSD1306_HEIGHT) :
    ∃ b h, fb[y.toNat / 8 * SSD1306_WIDTH + x.toNat]? = some b ∧
      pixel fb x y on = some (fb.set (y.toNat / 8 * SSD1306_WIDTH + x.toNat) (withBit b (y.toNat % 8) on) h) := by
  have h8 : (8 : Word).toNat = 8 := rfl
  have hw : (BitVec.ofNat 32 SSD1306_WIDTH).toNat = SSD1306_WIDTH := rfl
  have hi : (y / 8 * BitVec.ofNat 32 SSD1306_WIDTH + x).toNat = y.toNat / 8 * SSD1306_WIDTH + x.toNat := by
    rw [BitVec.toNat_add, BitVec.toNat_mul, BitVec.toNat_udiv, h8, hw]
    unfold SSD1306_WIDTH at hx ⊢
    unfold SSD1306_HEIGHT at hy
    omega
  have hj : (y % 8).toNat = y.toNat % 8 := by rw [BitVec.toNat_umod, h8]
  have hin : ¬(SSD1306_WIDTH ≤ x.toNat ∨ SSD1306_HEIGHT ≤ y.toNat) := by omega
  refine ⟨_, index_lt hx hy, Vector.getElem?_eq_getElem (index_lt hx hy), ?_⟩
  unfold pixel withBit
  refine (if_neg hin).trans ?_
  simp only [hi, hj]
  rw [dif_pos (index_lt hx hy)]
  split
  · rfl
  · rfl

/-- The pixels of a byte that is written. -/
private theorem lit_set {x y px py : ℕ} (hx : x < SSD1306_WIDTH) (hpx : px < SSD1306_WIDTH) (b : BitVec 8)
    (hi : y / 8 * SSD1306_WIDTH + x < SSD1306_FB_SIZE) :
    lit (fb.set (y / 8 * SSD1306_WIDTH + x) b hi) px py =
      if px = x ∧ py / 8 = y / 8 then b.getLsbD (py % 8) else lit fb px py := by
  unfold lit
  rw [Vector.getElem?_set]
  by_cases h : px = x ∧ py / 8 = y / 8
  · obtain ⟨hcol, hpage⟩ := h
    rw [if_pos (by rw [hpage, hcol]), if_pos ⟨hcol, hpage⟩]
    rfl
  · rw [if_neg, if_neg h]
    intro he
    unfold SSD1306_WIDTH at hx hpx he
    omega

/-- `ssd1306_pixel` never leaves the framebuffer, and paints its pixel if the panel has it. -/
private theorem pixel_paints (fb : Fb) (x y on : Word) :
    ∃ fb', pixel fb x y on = some fb' ∧ Paints on (fun px py => px = x.toNat ∧ py = y.toNat) fb fb' := by
  by_cases hout : SSD1306_WIDTH ≤ x.toNat ∨ SSD1306_HEIGHT ≤ y.toNat
  · refine ⟨fb, pixel_off hout, fun px hx py hy => ⟨?_, fun _ => rfl⟩⟩
    rintro ⟨rfl, rfl⟩
    omega
  have hx : x.toNat < SSD1306_WIDTH := by omega
  have hy : y.toNat < SSD1306_HEIGHT := by omega
  obtain ⟨b, hi, hb, hpixel⟩ := @pixel_on on fb x y hx hy
  refine ⟨_, hpixel, fun px hpx py hpy => ?_⟩
  rw [lit_set hx hpx, getLsbD_withBit b on (Nat.mod_lt _ (by decide)) (Nat.mod_lt _ (by decide))]
  constructor
  · rintro ⟨rfl, rfl⟩
    rw [if_pos ⟨rfl, rfl⟩, if_pos rfl]
  · intro hS
    by_cases hbyte : px = x.toNat ∧ py / 8 = y.toNat / 8
    · have hbit : ¬py % 8 = y.toNat % 8 := by
        intro he
        exact hS ⟨hbyte.1, by omega⟩
      rw [if_pos hbyte, if_neg hbit]
      unfold lit
      rw [hbyte.1, hbyte.2, hb]
      rfl
    · rw [if_neg hbyte]

end Panel

/-! ### Straight lines -/

section Spans

variable {on a b x y w h : Word} {fb : Fb}

/-- A range that ends before the largest word is run through. -/
private theorem span_paints (place : Word → Word × Word) (on : Word) (fb : Fb) (hb : b.toNat + 1 < 2 ^ 32) :
    ∃ fb', Returns (loop (span place on b) (a, fb)) fb' ∧
      Paints on (fun px py => ∃ v : Word, a ≤ v ∧ v ≤ b ∧ px = (place v).1.toNat ∧ py = (place v).2.toNat) fb
        fb' := by
  have hone : (1 : Word).toNat = 1 := rfl
  apply returns_loop (b.toNat + 1 - a.toNat) (I := fun k s => s.1.toNat = a.toNat + k ∧
    Paints on (fun px py => ∃ v : Word, a ≤ v ∧ v < s.1 ∧ px = (place v).1.toNat ∧ py = (place v).2.toNat) fb s.2)
  · refine ⟨rfl, paints_nothing ?_⟩
    rintro px py ⟨v, h1, h2, -⟩
    exact absurd (BitVec.not_lt.mpr h1) (not_not.mpr h2)
  · rintro k hk ⟨v, fb₁⟩ ⟨hv, hpaint⟩
    dsimp only at hv hpaint
    obtain ⟨fb₂, hpix, hpaint'⟩ := pixel_paints fb₁ (place v).1 (place v).2 on
    have hle : v ≤ b := by
      rw [BitVec.le_def]
      omega
    have hnext : (v + 1).toNat = v.toNat + 1 := by
      rw [BitVec.toNat_add, hone]
      omega
    refine ⟨(v + 1, fb₂), ?_, by rw [hnext]; omega, (hpaint.trans hpaint').congr fun px _ py _ => ?_⟩
    · have hround : ∀ n, span place on b n (v, fb₁) = some (.next (v + 1, fb₂)) := by
        intro n
        unfold span
        rw [if_pos hle, hpix]
        rfl
      exact ⟨0, fun n _ => hround n⟩
    · dsimp only
      constructor
      · rintro (⟨u, h1, h2, h3⟩ | ⟨h1, h2⟩)
        · rw [BitVec.lt_def] at h2
          exact ⟨u, h1, by rw [BitVec.lt_def]; omega, h3⟩
        · exact ⟨v, by rw [BitVec.le_def]; omega, by rw [BitVec.lt_def]; omega, h1, h2⟩
      · rintro ⟨u, h1, h2, h3⟩
        rw [BitVec.lt_def, hnext] at h2
        rcases Nat.lt_succ_iff_lt_or_eq.mp h2 with hlt | heq
        · exact Or.inl ⟨u, h1, hlt, h3⟩
        · rw [BitVec.eq_of_toNat_eq heq] at h3
          exact Or.inr h3
  · rintro ⟨v, fb₁⟩ ⟨hv, hpaint⟩
    dsimp only at hv hpaint
    have hgt : ¬v ≤ b := by
      rw [BitVec.le_def]
      omega
    have hround : ∀ n, span place on b n (v, fb₁) = some (.done fb₁) := fun n => if_neg hgt
    refine ⟨fb₁, ⟨0, fun n _ => hround n⟩, hpaint.congr fun px _ py _ => ?_⟩
    constructor
    · rintro ⟨u, h1, h2, h3⟩
      rw [BitVec.le_def] at h1
      rw [BitVec.lt_def] at h2
      exact ⟨u, h1, by rw [BitVec.le_def]; omega, h3⟩
    · rintro ⟨u, h1, h2, h3⟩
      rw [BitVec.le_def] at h1 h2
      exact ⟨u, h1, by rw [BitVec.lt_def]; omega, h3⟩

private theorem hline_paints (x0 x1 y on : Word) (fb : Fb) (h : x1.toNat + 1 < 2 ^ 32) :
    ∃ fb', Returns (hline x0 x1 y on fb) fb' ∧
      Paints on (fun px py => (x0.toNat ≤ px ∧ px ≤ x1.toNat) ∧ py = y.toNat) fb fb' := by
  obtain ⟨fb', hret, hpaint⟩ := span_paints (a := x0) (fun x => (x, y)) on fb h
  refine ⟨fb', hret, hpaint.congr fun px _ py _ => ?_⟩
  constructor
  · rintro ⟨v, h1, h2, rfl, hy⟩
    exact ⟨⟨h1, h2⟩, hy⟩
  · rintro ⟨⟨h1, h2⟩, hy⟩
    have hv : (BitVec.ofNat 32 px).toNat = px := by
      rw [BitVec.toNat_ofNat]
      omega
    exact ⟨BitVec.ofNat 32 px, by rw [BitVec.le_def, hv]; exact h1, by rw [BitVec.le_def, hv]; exact h2, hv.symm, hy⟩

private theorem vline_paints (x y0 y1 on : Word) (fb : Fb) (h : y1.toNat + 1 < 2 ^ 32) :
    ∃ fb', Returns (vline x y0 y1 on fb) fb' ∧
      Paints on (fun px py => px = x.toNat ∧ y0.toNat ≤ py ∧ py ≤ y1.toNat) fb fb' := by
  obtain ⟨fb', hret, hpaint⟩ := span_paints (a := y0) (fun y => (x, y)) on fb h
  refine ⟨fb', hret, hpaint.congr fun px _ py _ => ?_⟩
  constructor
  · rintro ⟨v, h1, h2, hx, rfl⟩
    exact ⟨hx, h1, h2⟩
  · rintro ⟨hx, h1, h2⟩
    have hv : (BitVec.ofNat 32 py).toNat = py := by
      rw [BitVec.toNat_ofNat]
      omega
    exact ⟨BitVec.ofNat 32 py, by rw [BitVec.le_def, hv]; exact h1, by rw [BitVec.le_def, hv]; exact h2, hx, hv.symm⟩

/-- The far end of a side. -/
private theorem side_end (hx : x.toNat < 2 ^ 16) (hw : w.toNat < 2 ^ 16) (h : 0 < x.toNat + w.toNat) :
    (x + w - 1).toNat = x.toNat + w.toNat - 1 := by
  have hone : (1 : Word).toNat = 1 := rfl
  have hsum : (x + w).toNat = x.toNat + w.toNat := by
    rw [BitVec.toNat_add]
    omega
  have hle : (1 : Word) ≤ x + w := by
    rw [BitVec.le_def, hsum, hone]
    omega
  rw [BitVec.toNat_sub_of_le hle, hsum, hone]

variable (x y w h) in
/-- The outline of a rectangle. -/
def Outline (px py : ℕ) : Prop :=
  ((x.toNat ≤ px ∧ px < x.toNat + w.toNat) ∧ y.toNat ≤ py ∧ py < y.toNat + h.toNat) ∧
    (px = x.toNat ∨ px + 1 = x.toNat + w.toNat ∨ py = y.toNat ∨ py + 1 = y.toNat + h.toNat)

variable (x y w h) in
/-- The area of a rectangle. -/
def Area (px py : ℕ) : Prop :=
  (x.toNat ≤ px ∧ px < x.toNat + w.toNat) ∧ y.toNat ≤ py ∧ py < y.toNat + h.toNat

/-- `ssd1306_rect`. -/
private theorem rect_paints (on : Word) (fb : Fb) (hx : x.toNat < 2 ^ 16) (hy : y.toNat < 2 ^ 16)
    (hw : w.toNat < 2 ^ 16) (hh : h.toNat < 2 ^ 16) :
    ∃ fb', Returns (rect x y w h on fb) fb' ∧ Paints on (Outline x y w h) fb fb' := by
  have hzero : (0 : Word).toNat = 0 := rfl
  by_cases hempty : w = 0 ∨ h = 0
  · have hrect : ∀ n, rect x y w h on fb n = some fb := fun n => if_pos hempty
    refine ⟨fb, ⟨0, fun n _ => hrect n⟩, paints_nothing ?_⟩
    rintro px py ⟨⟨h1, h2⟩, -⟩
    rcases hempty with rfl | rfl
    · omega
    · omega
  have hw0 : 0 < w.toNat := Nat.pos_of_ne_zero fun h0 => hempty (Or.inl (BitVec.eq_of_toNat_eq h0))
  have hh0 : 0 < h.toNat := Nat.pos_of_ne_zero fun h0 => hempty (Or.inr (BitVec.eq_of_toNat_eq h0))
  have hright := side_end hx hw (by omega)
  have hbottom := side_end hy hh (by omega)
  obtain ⟨fb₁, hr₁, hp₁⟩ := hline_paints x (x + w - 1) y on fb (by omega)
  obtain ⟨fb₂, hr₂, hp₂⟩ := hline_paints x (x + w - 1) (y + h - 1) on fb₁ (by omega)
  obtain ⟨fb₃, hr₃, hp₃⟩ := vline_paints x y (y + h - 1) on fb₂ (by omega)
  obtain ⟨fb₄, hr₄, hp₄⟩ := vline_paints (x + w - 1) y (y + h - 1) on fb₃ (by omega)
  refine ⟨fb₄, ?_, (((hp₁.trans hp₂).trans hp₃).trans hp₄).congr fun px _ py _ => ?_⟩
  · have hrect : rect x y w h on fb = fun n => (hline x (x + w - 1) y on fb n).bind fun fb =>
        (hline x (x + w - 1) (y + h - 1) on fb n).bind fun fb =>
          (vline x y (y + h - 1) on fb n).bind fun fb => vline (x + w - 1) y (y + h - 1) on fb n := by
      funext n
      exact if_neg hempty
    rw [hrect]
    exact hr₁.bind (hr₂.bind (hr₃.bind hr₄))
  · unfold Outline
    rw [hright, hbottom]
    omega

/-- `ssd1306_fill_rect`, for a width or a column that is not zero. -/
private theorem fill_paints (on : Word) (fb : Fb) (hx : x.toNat < 2 ^ 16) (hy : y.toNat < 2 ^ 16)
    (hw : w.toNat < 2 ^ 16) (hh : h.toNat < 2 ^ 16) (hne : 0 < x.toNat + w.toNat ∨ h.toNat = 0) :
    ∃ fb', Returns (fill_rect x y w h on fb) fb' ∧ Paints on (Area x y w h) fb fb' := by
  have hone : (1 : Word).toNat = 1 := rfl
  apply returns_loop h.toNat (I := fun k s => s.1.toNat = k ∧
    Paints on (fun px py => (x.toNat ≤ px ∧ px < x.toNat + w.toNat) ∧ y.toNat ≤ py ∧ py < y.toNat + s.1.toNat) fb s.2)
  · refine ⟨rfl, paints_nothing ?_⟩
    rintro px py ⟨-, h1, h2⟩
    exact absurd h2 (Nat.not_lt.mpr h1)
  · rintro k hk ⟨r, fb₁⟩ ⟨rfl, hpaint⟩
    dsimp only at hk hpaint
    have hend := side_end hx hw (by omega)
    obtain ⟨fb₂, hret, hpaint'⟩ := hline_paints x (x + w - 1) (y + r) on fb₁ (by omega)
    have hlt : r < h := hk
    have hrow : (y + r).toNat = y.toNat + r.toNat := by
      rw [BitVec.toNat_add]
      omega
    have hnext : (r + 1).toNat = r.toNat + 1 := by
      rw [BitVec.toNat_add, hone]
      omega
    refine ⟨(r + 1, fb₂), ?_, hnext, (hpaint.trans hpaint').congr fun px _ py _ => ?_⟩
    · have hround : (fun n => fillRound x y w h on n (r, fb₁)) = fun n =>
          (hline x (x + w - 1) (y + r) on fb₁ n).map fun fb =>
            .next (r + 1, fb) := by
        funext n
        exact if_pos hlt
      rw [hround]
      exact hret.map fun fb => Round.next (r + 1, fb)
    · dsimp only
      rw [hend, hrow, hnext]
      omega
  · rintro ⟨r, fb₁⟩ ⟨hr, hpaint⟩
    dsimp only at hr hpaint
    have hge : ¬r < h := by
      rw [BitVec.lt_def]
      omega
    have hround : ∀ n, fillRound x y w h on n (r, fb₁) = some (.done fb₁) := fun n => if_neg hge
    refine ⟨fb₁, ⟨0, fun n _ => hround n⟩, ?_⟩
    rw [hr] at hpaint
    exact hpaint

/-- A range up to the largest word has no end. -/
private theorem hline_never (x0 y on : Word) (fb : Fb) : Never (hline x0 (BitVec.allOnes 32) y on fb) := by
  apply never_loop (J := fun _ => True) trivial
  intro m s _ r hr
  obtain ⟨fb', hpix, -⟩ := pixel_paints s.2 s.1 y on
  have hle : s.1 ≤ BitVec.allOnes 32 := by
    have hlt := s.1.isLt
    rw [BitVec.le_def, BitVec.toNat_allOnes]
    omega
  unfold span at hr
  rw [if_pos hle, hpix] at hr
  exact ⟨(s.1 + 1, fb'), (Option.some.inj hr).symm, trivial⟩

/-- An empty rectangle at the left edge of the panel is filled for ever. -/
private theorem fill_never (y on : Word) (fb : Fb) (hh : 0 < h.toNat) : Never (fill_rect 0 y 0 h on fb) := by
  apply never_loop (J := fun s => s.1 < h) hh
  intro m s hs r hr
  have hnever : hline 0 (0 + 0 - 1) (y + s.1) on s.2 m = none := hline_never 0 (y + s.1) on s.2 m
  unfold fillRound at hr
  rw [if_pos hs, hnever] at hr
  cases hr

end Spans

/-! ### Oblique lines -/

section Lines

open Bresenham Signed

/-- `sx` and `sy`. -/
def dir (a b : ℤ) : ℤ := if a < b then 1 else -1

variable {a b : Word} {c d : ℤ}

private theorem end_of_dir (c d : ℤ) : c + dir c d * |d - c| = d := by
  unfold dir
  by_cases h : c < d
  · rw [if_pos h, abs_of_pos (by omega)]
    omega
  · rw [if_neg h, abs_of_nonpos (by omega)]
    omega

/-- A coordinate is at its end exactly behind the length of its side. -/
private theorem dir_eq_end {v : ℤ} : c + dir c d * v = d ↔ v = |d - c| := by
  have hend := end_of_dir c d
  unfold dir at hend ⊢
  by_cases h : c < d
  · rw [if_pos h] at hend ⊢
    omega
  · rw [if_neg h] at hend ⊢
    omega

/-- A coordinate stays between its ends. -/
private theorem dir_between {v : ℤ} (h0 : 0 ≤ v) (h : v ≤ |d - c|) :
    min c d ≤ c + dir c d * v ∧ c + dir c d * v ≤ max c d := by
  have hend := end_of_dir c d
  unfold dir at hend ⊢
  by_cases hlt : c < d
  · rw [if_pos hlt] at hend ⊢
    omega
  · rw [if_neg hlt] at hend ⊢
    omega

/-- A coordinate that the functions are meant for. -/
def Small (v : Word) : Prop := |v.toInt| < 2 ^ 16

private theorem Small.bounds (h : Small a) : -2 ^ 16 < a.toInt ∧ a.toInt < 2 ^ 16 := abs_lt.mp h

/-- `dx` and `dy`. -/
private theorem side_toInt (ha : Small a) (hb : Small b) :
    (if a.slt b then b - a else a - b).toInt = |b.toInt - a.toInt| := by
  have h1 := ha.bounds
  have h2 := hb.bounds
  rw [BitVec.slt]
  by_cases h : a.toInt < b.toInt
  · rw [decide_eq_true h, if_pos rfl, abs_of_pos (by omega)]
    apply toInt_sub
    unfold Fits
    omega
  · rw [decide_eq_false h, if_neg Bool.false_ne_true, abs_of_nonpos (by omega), neg_sub]
    apply toInt_sub
    unfold Fits
    omega

private theorem dir_toInt (a b : Word) : (if a.slt b then (1 : Word) else -1).toInt = dir a.toInt b.toInt := by
  unfold dir
  rw [BitVec.slt]
  by_cases h : a.toInt < b.toInt
  · rw [decide_eq_true h, if_pos rfl, if_pos h]
    rfl
  · rw [decide_eq_false h, if_neg Bool.false_ne_true, if_neg h]
    rfl

private theorem dir_abs (c d : ℤ) : dir c d = 1 ∨ dir c d = -1 := by
  unfold dir
  by_cases h : c < d
  · exact Or.inl (if_pos h)
  · exact Or.inr (if_neg h)

/-- A pixel of the panel by a signed coordinate. -/
private theorem pixel_coord {p : ℕ} (hp : p < 2 ^ 31) (v : Word) : p = v.toNat ↔ (p : ℤ) = v.toInt := by
  have hlt := v.isLt
  rw [BitVec.toInt_eq_toNat_cond]
  by_cases h : 2 * v.toNat < 2 ^ 32
  · rw [if_pos h]
    exact Int.natCast_inj.symm
  · rw [if_neg h]
    omega

/-- The ends of a line and the words of `ssd1306_line` for its sides. -/
structure Ends where
  x0 : Word
  y0 : Word
  x1 : Word
  y1 : Word

namespace Ends

variable (e : Ends)

def dx : ℤ := |e.x1.toInt - e.x0.toInt|

def dy : ℤ := |e.y1.toInt - e.y0.toInt|

/-- The column of a point. -/
def col (v : ℤ × ℤ) : ℤ := e.x0.toInt + dir e.x0.toInt e.x1.toInt * v.1

/-- The row of a point. -/
def row (v : ℤ × ℤ) : ℤ := e.y0.toInt + dir e.y0.toInt e.y1.toInt * v.2

/-- The pixels of the Bresenham line. -/
def Line (px py : ℕ) : Prop :=
  ∃ k : ℕ, (k : ℤ) ≤ max e.dx e.dy ∧ (px : ℤ) = e.col (place e.dx e.dy k) ∧ (py : ℤ) = e.row (place e.dx e.dy k)

structure Small : Prop where
  x0 : Ssd1306.Small e.x0
  y0 : Ssd1306.Small e.y0
  x1 : Ssd1306.Small e.x1
  y1 : Ssd1306.Small e.y1

/-- The loop has come to step `k`. -/
structure At (k : ℤ) (s : LineState) : Prop where
  x0 : s.x0.toInt = e.col (place e.dx e.dy k)
  y0 : s.y0.toInt = e.row (place e.dx e.dy k)
  err : s.err.toInt = errAt e.dx e.dy (place e.dx e.dy k).1 (place e.dx e.dy k).2

variable {e}

private theorem Small.sides (h : e.Small) : (0 ≤ e.dx ∧ e.dx < 2 ^ 17) ∧ 0 ≤ e.dy ∧ e.dy < 2 ^ 17 := by
  have h1 := h.x0.bounds
  have h2 := h.y0.bounds
  have h3 := h.x1.bounds
  have h4 := h.y1.bounds
  have hx : |e.x1.toInt - e.x0.toInt| < 2 ^ 17 := abs_lt.mpr ⟨by omega, by omega⟩
  have hy : |e.y1.toInt - e.y0.toInt| < 2 ^ 17 := abs_lt.mpr ⟨by omega, by omega⟩
  exact ⟨⟨abs_nonneg _, hx⟩, abs_nonneg _, hy⟩

/-- The loop ends behind the last step and not before. -/
private theorem At.ends_iff {k : ℤ} {s : LineState} (hs : e.Small) (h : e.At k s) (hk : k ≤ max e.dx e.dy) :
    (s.x0 = e.x1 ∧ s.y0 = e.y1) ↔ k = max e.dx e.dy := by
  obtain ⟨⟨hx, -⟩, hy, -⟩ := hs.sides
  have hplace : (s.x0 = e.x1 ∧ s.y0 = e.y1) ↔ place e.dx e.dy k = (e.dx, e.dy) := by
    rw [← BitVec.toInt_inj, ← BitVec.toInt_inj, h.x0, h.y0, col, row, dir_eq_end, dir_eq_end, Prod.ext_iff]
    rfl
  rw [hplace]
  constructor
  · intro he
    by_contra hne
    exact place_ne_end (lt_of_le_of_ne hk hne) he
  · rintro rfl
    exact place_end hx hy

/-- A coordinate goes one on, or not. -/
private theorem coord_step {v s : Word} {c d n : ℤ} {p : Prop} [Decidable p] (hv : v.toInt = c + dir c d * n)
    (hs : s.toInt = dir c d) (hsmall : -2 ^ 17 < v.toInt ∧ v.toInt < 2 ^ 17) :
    (if p then v + s else v).toInt = c + dir c d * if p then n + 1 else n := by
  by_cases hp : p
  · have hdir := dir_abs c d
    have hsum : (v + s).toInt = v.toInt + s.toInt := by
      apply toInt_add
      unfold Fits
      omega
    rw [if_pos hp, if_pos hp, hsum, hv, hs]
    ring
  · rw [if_neg hp, if_neg hp, hv]

/-- One round of the loop before its end. -/
private theorem At.step {k : ℤ} {s : LineState} (hs : e.Small) (h : e.At k s) (hk0 : 0 ≤ k) (hk : k < max e.dx e.dy)
    {dx dy sx sy : Word} (hdx : dx.toInt = e.dx) (hdy : dy.toInt = e.dy) (hsx : sx.toInt = dir e.x0.toInt e.x1.toInt)
    (hsy : sy.toInt = dir e.y0.toInt e.y1.toInt) (fb : Fb) :
    e.At (k + 1)
      ⟨if (-dy).slt (2 * s.err) then s.x0 + sx else s.x0, if (2 * s.err).slt dx then s.y0 + sy else s.y0,
        if (2 * s.err).slt dx then (if (-dy).slt (2 * s.err) then s.err - dy else s.err) + dx
        else if (-dy).slt (2 * s.err) then s.err - dy else s.err, fb⟩ := by
  obtain ⟨⟨hx0, hx⟩, hy0, hy⟩ := hs.sides
  obtain ⟨a, b, hab⟩ : ∃ a b, place e.dx e.dy k = (a, b) := ⟨_, _, rfl⟩
  have herr := errAt_bounds hx0 hy0 hk0 hk.le hab
  have hsucc := place_succ hx0 hy0 hk0 hk hab
  obtain ⟨⟨ha0, ha⟩, hb0, hb⟩ := place_bounds hx0 hy0 hk0 hk.le
  obtain ⟨hsx0, hsy0, hserr⟩ := h
  rw [hab] at hsx0 hsy0 hserr ha0 ha hb0 hb
  dsimp only at hserr ha0 ha hb0 hb
  have htwo : (2 : Word).toInt = 2 := rfl
  have he2 : (2 * s.err).toInt = 2 * errAt e.dx e.dy a b := by
    rw [← hserr, ← htwo]
    apply toInt_mul
    rw [htwo, hserr]
    unfold Fits
    omega
  have hneg : (-dy).toInt = -e.dy := by
    rw [← hdy]
    apply toInt_neg
    rw [hdy]
    unfold Fits
    omega
  have hcx : (-dy).slt (2 * s.err) = decide (-e.dy < 2 * errAt e.dx e.dy a b) := by rw [BitVec.slt, hneg, he2]
  have hcy : (2 * s.err).slt dx = decide (2 * errAt e.dx e.dy a b < e.dx) := by rw [BitVec.slt, hdx, he2]
  have hcol := dir_between (d := e.x1.toInt) ha0 ha
  have hrow := dir_between (d := e.y1.toInt) hb0 hb
  have h1 := hs.x0.bounds
  have h2 := hs.x1.bounds
  have h3 := hs.y0.bounds
  have h4 := hs.y1.bounds
  have hxy : s.x0.toInt = e.x0.toInt + dir e.x0.toInt e.x1.toInt * a := hsx0
  have hyx : s.y0.toInt = e.y0.toInt + dir e.y0.toInt e.y1.toInt * b := hsy0
  rw [hcx, hcy]
  simp only [decide_eq_true_eq]
  constructor
  · rw [hsucc]
    exact coord_step hxy hsx ⟨by omega, by omega⟩
  · rw [hsucc]
    exact coord_step hyx hsy ⟨by omega, by omega⟩
  · rw [hsucc]
    dsimp only
    -- the two updates of `err`, each within 32 bits
    have hfirst : (if -e.dy < 2 * errAt e.dx e.dy a b then s.err - dy else s.err).toInt =
        if -e.dy < 2 * errAt e.dx e.dy a b then errAt e.dx e.dy a b - e.dy else errAt e.dx e.dy a b := by
      by_cases hc : -e.dy < 2 * errAt e.dx e.dy a b
      · rw [if_pos hc, if_pos hc, ← hserr, ← hdy]
        apply toInt_sub
        rw [hserr, hdy]
        unfold Fits
        omega
      · rw [if_neg hc, if_neg hc, hserr]
    have hsecond : (if 2 * errAt e.dx e.dy a b < e.dx then
          (if -e.dy < 2 * errAt e.dx e.dy a b then s.err - dy else s.err) + dx
        else if -e.dy < 2 * errAt e.dx e.dy a b then s.err - dy else s.err).toInt =
        if 2 * errAt e.dx e.dy a b < e.dx then
          (if -e.dy < 2 * errAt e.dx e.dy a b then errAt e.dx e.dy a b - e.dy else errAt e.dx e.dy a b) + e.dx
        else if -e.dy < 2 * errAt e.dx e.dy a b then errAt e.dx e.dy a b - e.dy else errAt e.dx e.dy a b := by
      by_cases hc : 2 * errAt e.dx e.dy a b < e.dx
      · rw [if_pos hc, if_pos hc, toInt_add, hfirst, hdx]
        rw [hfirst, hdx]
        unfold Fits
        split
        · omega
        · omega
      · rw [if_neg hc, if_neg hc, hfirst]
    rw [hsecond, errAt_step]

end Ends

/-- `ssd1306_line`. -/
private theorem line_paints (on : Word) (fb : Fb) {e : Ends} (hs : e.Small) :
    ∃ fb', Returns (line e.x0 e.y0 e.x1 e.y1 on fb) fb' ∧ Paints on e.Line fb fb' := by
  obtain ⟨⟨hx0, hx⟩, hy0, hy⟩ := hs.sides
  have hdx : (if e.x0.slt e.x1 then e.x1 - e.x0 else e.x0 - e.x1).toInt = e.dx := side_toInt hs.x0 hs.x1
  have hdy : (if e.y0.slt e.y1 then e.y1 - e.y0 else e.y0 - e.y1).toInt = e.dy := side_toInt hs.y0 hs.y1
  have hsx := dir_toInt e.x0 e.x1
  have hsy := dir_toInt e.y0 e.y1
  unfold line
  dsimp only
  generalize (if e.x0.slt e.x1 then e.x1 - e.x0 else e.x0 - e.x1) = dx at hdx
  generalize (if e.y0.slt e.y1 then e.y1 - e.y0 else e.y0 - e.y1) = dy at hdy
  generalize (if e.x0.slt e.x1 then (1 : Word) else -1) = sx at hsx
  generalize (if e.y0.slt e.y1 then (1 : Word) else -1) = sy at hsy
  obtain ⟨N, hN⟩ := Int.eq_ofNat_of_zero_le (le_max_of_le_left (b := e.dx) (c := e.dy) hx0)
  -- the pixels of the steps before `k` are painted
  have hgrow : ∀ (k : ℕ) (st : LineState), e.At k st → ∃ fb', pixel st.fb st.x0 st.y0 on = some fb' ∧
      (Paints on (fun px py => ∃ j < k, (px : ℤ) = e.col (place e.dx e.dy j) ∧ (py : ℤ) = e.row (place e.dx e.dy j))
        fb st.fb →
        Paints on
          (fun px py => ∃ j < k + 1, (px : ℤ) = e.col (place e.dx e.dy j) ∧ (py : ℤ) = e.row (place e.dx e.dy j))
          fb fb') := by
    intro k st hat
    obtain ⟨fb', hpix, hpaint⟩ := pixel_paints st.fb st.x0 st.y0 on
    refine ⟨fb', hpix, fun hbefore => (hbefore.trans hpaint).congr fun px hpx py hpy => ?_⟩
    unfold SSD1306_WIDTH at hpx
    unfold SSD1306_HEIGHT at hpy
    rw [pixel_coord (by omega), pixel_coord (by omega), hat.x0, hat.y0]
    constructor
    · rintro (⟨j, hj, h⟩ | h)
      · exact ⟨j, by omega, h⟩
      · exact ⟨k, Nat.lt_succ_self k, h⟩
    · rintro ⟨j, hj, h⟩
      rcases Nat.lt_succ_iff_lt_or_eq.mp hj with hlt | rfl
      · exact Or.inl ⟨j, hlt, h⟩
      · exact Or.inr h
  apply returns_loop N (I := fun k st => e.At k st ∧
    Paints on (fun px py => ∃ j < k, (px : ℤ) = e.col (place e.dx e.dy j) ∧ (py : ℤ) = e.row (place e.dx e.dy j)) fb
      st.fb)
  · refine ⟨⟨?_, ?_, ?_⟩, paints_nothing ?_⟩
    · rw [Nat.cast_zero, place_zero hx0 hy0, Ends.col, mul_zero, add_zero]
    · rw [Nat.cast_zero, place_zero hx0 hy0, Ends.row, mul_zero, add_zero]
    · rw [Nat.cast_zero, place_zero hx0 hy0]
      have hsub : (dx - dy).toInt = dx.toInt - dy.toInt := by
        apply toInt_sub
        unfold Fits
        omega
      change (dx - dy).toInt = errAt e.dx e.dy 0 0
      rw [hsub, hdx, hdy, errAt]
      ring
    · rintro px py ⟨j, hj, -⟩
      exact absurd hj (Nat.not_lt_zero j)
  · rintro k hk st ⟨hat, hpaint⟩
    obtain ⟨fb', hpix, hgrown⟩ := hgrow k st hat
    have hk' : (k : ℤ) < max e.dx e.dy := by
      rw [hN]
      exact_mod_cast hk
    have hgo : ¬(st.x0 = e.x1 ∧ st.y0 = e.y1) := by
      rw [hat.ends_iff hs hk'.le]
      exact hk'.ne
    refine ⟨_, ?_, hat.step hs (Int.natCast_nonneg k) hk' hdx hdy hsx hsy fb', hgrown hpaint⟩
    have hround : ∀ n, lineRound e.x1 e.y1 dx dy sx sy on n st = some (.next
        ⟨if (-dy).slt (2 * st.err) then st.x0 + sx else st.x0, if (2 * st.err).slt dx then st.y0 + sy else st.y0,
          if (2 * st.err).slt dx then (if (-dy).slt (2 * st.err) then st.err - dy else st.err) + dx
          else if (-dy).slt (2 * st.err) then st.err - dy else st.err, fb'⟩) := by
      intro n
      unfold lineRound
      rw [hpix, Option.map_some, if_neg hgo]
    exact ⟨0, fun n _ => hround n⟩
  · rintro st ⟨hat, hpaint⟩
    obtain ⟨fb', hpix, hgrown⟩ := hgrow N st hat
    have hend : st.x0 = e.x1 ∧ st.y0 = e.y1 := by
      rw [hat.ends_iff hs hN.ge]
      exact hN.symm
    have hround : ∀ n, lineRound e.x1 e.y1 dx dy sx sy on n st = some (.done fb') := by
      intro n
      unfold lineRound
      rw [hpix, Option.map_some, if_pos hend]
    refine ⟨fb', ⟨0, fun n _ => hround n⟩, (hgrown hpaint).congr fun px _ py _ => ?_⟩
    unfold Ends.Line
    rw [hN]
    constructor
    · rintro ⟨j, hj, h⟩
      exact ⟨j, by exact_mod_cast Nat.lt_succ_iff.mp hj, h⟩
    · rintro ⟨j, hj, h⟩
      exact ⟨j, Nat.lt_succ_iff.mpr (by exact_mod_cast hj), h⟩

end Lines

/-! ### The drawing functions -/

/-- Without an access outside of the framebuffer, whose bits are the pixels of the panel, outlines and Bresenham lines
are drawn as asked, clipped to the panel; areas are filled as asked exactly unless they are empty, have a row, and lie
at the left edge of the panel. -/
theorem drawing_exact (on : Word) (fb : Fb) :
    (∀ x y, pixel fb x y on ≠ none) ∧
    (∀ i j, i < SSD1306_FB_SIZE → j < 8 →
      ∃ px < SSD1306_WIDTH, ∃ py < SSD1306_HEIGHT, py / 8 * SSD1306_WIDTH + px = i ∧ py % 8 = j) ∧
    (∀ x y w h : Word, x.toNat < 2 ^ 16 → y.toNat < 2 ^ 16 → w.toNat < 2 ^ 16 → h.toNat < 2 ^ 16 →
      (∃ fb', Returns (rect x y w h on fb) fb' ∧ Paints on (Outline x y w h) fb fb') ∧
      ((∃ fb', Returns (fill_rect x y w h on fb) fb' ∧ Paints on (Area x y w h) fb fb') ↔ ¬(x = 0 ∧ w = 0 ∧ h ≠ 0))) ∧
    ∀ e : Ends, e.Small → ∃ fb', Returns (line e.x0 e.y0 e.x1 e.y1 on fb) fb' ∧ Paints on e.Line fb fb' := by
  refine ⟨?_, exists_pixel, ?_, fun e he => line_paints on fb he⟩
  · intro x y hnone
    obtain ⟨fb', hsome, -⟩ := pixel_paints fb x y on
    rw [hnone] at hsome
    cases hsome
  · intro x y w h hx hy hw hh
    refine ⟨rect_paints on fb hx hy hw hh, ?_, ?_⟩
    · rintro ⟨fb', hret, -⟩ ⟨rfl, rfl, h0⟩
      have hpos : 0 < h.toNat := Nat.pos_of_ne_zero fun hz => h0 (BitVec.eq_of_toNat_eq hz)
      exact hret.not_never (fill_never y on fb hpos)
    · intro hne
      apply fill_paints on fb hx hy hw hh
      by_contra hzero
      obtain ⟨hxw, hh0⟩ := not_or.mp hzero
      refine hne ⟨BitVec.eq_of_toNat_eq ?_, BitVec.eq_of_toNat_eq ?_, fun h0 => hh0 ?_⟩
      · change x.toNat = 0
        omega
      · change w.toNat = 0
        omega
      · rw [h0]
        rfl

/-- `ssd1306_fill_rect(0, 0, 0, 1, 1)` never returns. -/
theorem fill_rect_hangs : ¬∀ (x y w h on : Word) (fb : Fb), x.toNat < 2 ^ 16 → y.toNat < 2 ^ 16 → w.toNat < 2 ^ 16 →
    h.toNat < 2 ^ 16 → ∃ fb', Returns (fill_rect x y w h on fb) fb' ∧ Paints on (Area x y w h) fb fb' := by
  intro hall
  obtain ⟨fb', hret, -⟩ := hall 0 0 0 1 1 (Vector.replicate _ 0) (by decide) (by decide) (by decide) (by decide)
  exact hret.not_never (fill_never 0 1 _ (by decide))

end Yarv.Ssd1306
