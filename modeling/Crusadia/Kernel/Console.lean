import Crusadia.Kernel.Frames

/-!
# Crusadia.Kernel.Console

The **text cursor** of the console. `klog` and `klog_color` move it and scroll, in `klog.c`;
`vesa_print_char` and `vesa_print_string` of `vesa.c` move the same cursor and never scroll.

The functions of `klog.c` wrap right after the last column, so they leave the cursor on the
screen. `vesa_print_char` wraps before the next character and lets a newline run past the last
row: it leaves the screen in the last column and in the last row (`onScreen_vesaPrintChar_iff`).

What is drawn is left out: no drawing function reads or writes anything of the cursor.
-/

namespace Crusadia.Console

/-- `fb_width`, `fb_height`, `vesa_ready` and the cursor `c_x`, `c_y`. -/
structure Vesa where
  width : Nat
  height : Nat
  ready : Bool
  cx : Int
  cy : Int
  deriving DecidableEq

/-! ### vesa.c -/

section

variable (s : Vesa)

/-- What the cursor sees of `vesa_init_from_params`: the size of the screen. -/
def vesaInitFromParams (width height : BitVec 32) : Vesa :=
  let v := Kernel.screen 0 width.toNat height.toNat 0 0
  { s with width := v.fbWidth, height := v.fbHeight, ready := v.vesaReady }

/-- `vesa_clear` -/
def vesaClear : Vesa := if !s.ready then s else { s with cx := 0, cy := 0 }

/-- `(uint32_t) x` -/
def u32 (x : Int) : Int := x % 2 ^ 32

/-- `vesa_scroll` -/
def vesaScroll (lines : Int) : Vesa :=
  if !s.ready then s
  else if lines ≤ 0 then s
  else if u32 lines ≥ s.height then vesaClear s
  else s

/-- The character `\n`. -/
abbrev newline : Byte := 0x0A
/-- The character `\b`. -/
abbrev backspace : Byte := 0x08
/-- The character `\r`. -/
abbrev carriageReturn : Byte := 0x0D

/-- The cursor moves one character back, to the end of the line before if it has to. -/
def stepBack : Vesa :=
  if s.cx ≥ 8 then { s with cx := s.cx - 8 }
  else if s.cy ≥ 8 then { s with cx := (s.width : Int) - 8, cy := s.cy - 8 }
  else s

/-- `vesa_print_char` -/
def vesaPrintChar (c : Byte) : Vesa :=
  if !s.ready then s
  else if c = newline then { s with cx := 0, cy := s.cy + 8 }
  else if c = backspace then stepBack s
  else if c = carriageReturn then s
  else
    let s := if s.cx + 8 > s.width then { s with cx := 0, cy := s.cy + 8 } else s
    { s with cx := s.cx + 8 }

/-- `vesa_print_string`; a null pointer prints as the empty string does. -/
def vesaPrintString (str : CStr) : Vesa := str.chars.foldl vesaPrintChar s

/-! ### klog.c -/

/-- The end of the loop bodies of `klog` and `klog_color`. -/
def scrollAtEnd : Vesa :=
  if u32 s.cy ≥ s.height then
    let s := vesaScroll s 8
    { s with cy := s.cy - 8 }
  else s

/-- A character is drawn and the cursor moves behind it. -/
def advance : Vesa :=
  let s := { s with cx := s.cx + 8 }
  if u32 s.cx ≥ s.width then { s with cx := 0, cy := s.cy + 8 } else s

/-- The loop body of `klog_color`, which has no case for `\b`. -/
def klogColorChar (c : Byte) : Vesa :=
  scrollAtEnd (if c = newline then { s with cx := 0, cy := s.cy + 8 } else advance s)

/-- `klog_color` -/
def klogColor (msg : CStr) : Vesa := msg.chars.foldl klogColorChar s

/-- The loop body of `klog`. -/
def klogChar (c : Byte) : Vesa :=
  scrollAtEnd
    (if c = newline then { s with cx := 0, cy := s.cy + 8 }
    else if c = backspace then stepBack s
    else advance s)

/-- `klog` -/
def klog (msg : CStr) : Vesa := msg.chars.foldl klogChar s

/-! ### The cursor on the screen -/

/-- The cursor is on the screen. -/
def OnScreen : Prop := 0 ≤ s.cx ∧ s.cx < s.width ∧ 0 ≤ s.cy ∧ s.cy < s.height

end

/-- A screen that holds whole characters, two in each direction at least. -/
structure Grid (s : Vesa) : Prop where
  ready : s.ready = true
  width : 16 ≤ s.width ∧ s.width ≤ 8192 ∧ 8 ∣ s.width
  height : 16 ≤ s.height ∧ s.height ≤ 8192 ∧ 8 ∣ s.height

/-- The cursor is on a cell of the grid. -/
structure Inv (s : Vesa) : Prop extends Grid s where
  cell : 8 ∣ s.cx ∧ 8 ∣ s.cy
  onScreen : OnScreen s

theorem u32_eq {x : Int} (h0 : 0 ≤ x) (h : x < 2 ^ 32) : u32 x = x := Int.emod_eq_of_lt h0 h

theorem grid_vesaInitFromParams {s : Vesa} {w h : BitVec 32}
    (hw : 16 ≤ (vesaInitFromParams s w h).width ∧ 8 ∣ (vesaInitFromParams s w h).width)
    (hh : 16 ≤ (vesaInitFromParams s w h).height ∧ 8 ∣ (vesaInitFromParams s w h).height) :
    Grid (vesaInitFromParams s w h) := by
  have hle : (vesaInitFromParams s w h).width ≤ 8192 ∧
      (vesaInitFromParams s w h).height ≤ 8192 := by
    unfold vesaInitFromParams Kernel.screen
    split
    · exact ⟨by simp, by simp⟩
    · next hn => exact ⟨by simp only; omega, by simp only; omega⟩
  refine ⟨?_, ⟨hw.1, hle.1, hw.2⟩, ⟨hh.1, hle.2, hh.2⟩⟩
  unfold vesaInitFromParams Kernel.screen
  split <;> rfl

section

variable {s : Vesa}

theorem Grid.vesaClear (h : Grid s) : Inv (vesaClear s) := by
  have hw := h.width
  have hh := h.height
  rw [Console.vesaClear, if_neg (by simp [h.ready])]
  exact ⟨⟨h.ready, hw, hh⟩, by simp, by simp only [OnScreen]; omega⟩

theorem Inv.vesaScroll (h : Inv s) (lines : Int) : Inv (vesaScroll s lines) := by
  unfold Console.vesaScroll
  split
  · exact h
  split
  · exact h
  split
  · exact h.toGrid.vesaClear
  · exact h

/-- On a grid a scroll by one row is never a clear, and leaves the cursor alone. -/
theorem Grid.vesaScroll_eight (h : Grid s) : Console.vesaScroll s 8 = s := by
  have hh := h.height
  have h8 : u32 8 = 8 := rfl
  rw [Console.vesaScroll, if_neg (by simp [h.ready]), if_neg (by decide), h8, if_neg (by omega)]

/-- The cursor moved to a cell of the screen. -/
theorem Inv.move (h : Grid s) {x y : Int} (hx : 8 ∣ x ∧ 0 ≤ x ∧ x < s.width)
    (hy : 8 ∣ y ∧ 0 ≤ y ∧ y < s.height) : Inv { s with cx := x, cy := y } :=
  ⟨⟨h.ready, h.width, h.height⟩, ⟨hx.1, hy.1⟩, hx.2.1, hx.2.2, hy.2.1, hy.2.2⟩

/-- The cursor is on the screen or just below it, where the scrolling puts it back. -/
theorem Inv.scrollAtEnd (h : Grid s) (hx : 8 ∣ s.cx ∧ 0 ≤ s.cx ∧ s.cx < s.width)
    (hy : 8 ∣ s.cy ∧ 0 ≤ s.cy ∧ s.cy ≤ s.height) : Inv (scrollAtEnd s) := by
  have hh := h.height
  rw [Console.scrollAtEnd, u32_eq hy.2.1 (by omega), h.vesaScroll_eight]
  split
  · exact Inv.move h hx (by omega)
  · exact Inv.move h hx (by omega)

theorem Inv.stepBack (h : Inv s) : Inv (stepBack s) := by
  have hw := h.width
  have hc := h.cell
  obtain ⟨h1, h2, h3, h4⟩ := h.onScreen
  unfold Console.stepBack
  split
  · exact Inv.move h.toGrid (by omega) (by omega)
  split
  · exact Inv.move h.toGrid (by omega) (by omega)
  · exact h

/-- A newline of `klog.c`. -/
theorem Inv.newline (h : Inv s) : Inv (Console.scrollAtEnd { s with cx := 0, cy := s.cy + 8 }) := by
  have hw := h.width
  have hh := h.height
  have hc := h.cell
  obtain ⟨-, -, h3, h4⟩ := h.onScreen
  exact Inv.scrollAtEnd ⟨h.ready, hw, hh⟩ (by simp only; omega) (by simp only; omega)

theorem Inv.advance (h : Inv s) : Inv (Console.scrollAtEnd (advance s)) := by
  have hw := h.width
  have hh := h.height
  have hc := h.cell
  obtain ⟨h1, h2, h3, h4⟩ := h.onScreen
  simp only [Console.advance]
  rw [u32_eq (by omega) (by omega)]
  split
  · exact h.newline
  · exact Inv.scrollAtEnd ⟨h.ready, hw, hh⟩ (by simp only; omega) (by simp only; omega)

theorem Inv.klogColorChar (h : Inv s) (c : Byte) : Inv (klogColorChar s c) := by
  unfold Console.klogColorChar
  split
  · exact h.newline
  · exact h.advance

theorem Inv.klogChar (h : Inv s) (c : Byte) : Inv (klogChar s c) := by
  unfold Console.klogChar
  split
  · exact h.newline
  split
  · have hb := h.stepBack
    obtain ⟨h1, h2, h3, h4⟩ := hb.onScreen
    exact Inv.scrollAtEnd hb.toGrid ⟨hb.cell.1, h1, h2⟩ ⟨hb.cell.2, h3, Int.le_of_lt h4⟩
  · exact h.advance

/-- What a loop over the characters of a string keeps, if every turn of it does. -/
theorem Inv.foldl {f : Vesa → Byte → Vesa} (hf : ∀ s c, Inv s → Inv (f s c)) (h : Inv s)
    (l : List Byte) : Inv (l.foldl f s) := by
  induction l generalizing s with
  | nil => exact h
  | cons c l ih => exact ih (hf s c h)

/-- Where `vesa_print_char` may be called: not with a newline in the last row, and not with a
character to draw in the last column. -/
def Fits (s : Vesa) (c : Byte) : Prop :=
  if c = Console.newline then s.cy + 8 < s.height
  else if c = backspace ∨ c = carriageReturn then True
  else s.cx + 8 < s.width

instance (s : Vesa) (c : Byte) : Decidable (Fits s c) := by
  unfold Fits
  infer_instance

/-- From a cell of the screen `vesa_print_char` leaves the cursor on the screen exactly where it
fits. -/
theorem onScreen_vesaPrintChar_iff (h : Inv s) (c : Byte) :
    OnScreen (vesaPrintChar s c) ↔ Fits s c := by
  have hw := h.width
  have hc := h.cell
  obtain ⟨h1, h2, h3, h4⟩ := h.onScreen
  rw [vesaPrintChar, if_neg (by simp [h.ready]), Fits]
  by_cases hn : c = Console.newline
  · rw [if_pos hn, if_pos hn]
    simp only [OnScreen]
    omega
  rw [if_neg hn, if_neg hn]
  by_cases hb : c = backspace
  · rw [if_pos hb, if_pos (.inl hb)]
    exact iff_of_true h.stepBack.onScreen trivial
  rw [if_neg hb]
  by_cases hr : c = carriageReturn
  · rw [if_pos hr, if_pos (.inr hr)]
    exact iff_of_true h.onScreen trivial
  have hwrap : ¬ s.cx + 8 > s.width := by omega
  rw [if_neg hr, if_neg (not_or.mpr ⟨hb, hr⟩)]
  simp only [if_neg hwrap, OnScreen]
  omega

/-- `vesa_print_char` stays on the cells of the grid, if maybe not on the screen. -/
theorem Inv.cell_vesaPrintChar (h : Inv s) (c : Byte) :
    Grid (vesaPrintChar s c) ∧ 8 ∣ (vesaPrintChar s c).cx ∧ 8 ∣ (vesaPrintChar s c).cy := by
  have hg : ∀ x y, Grid { s with cx := x, cy := y } := fun _ _ => ⟨h.ready, h.width, h.height⟩
  have hc := h.cell
  unfold vesaPrintChar
  split
  · exact ⟨hg _ _, hc⟩
  split
  · exact ⟨hg _ _, by simp only; omega⟩
  split
  · exact ⟨h.stepBack.toGrid, h.stepBack.cell⟩
  split
  · exact ⟨hg _ _, hc⟩
  split
  · exact ⟨hg _ _, by simp only; omega⟩
  · exact ⟨hg _ _, by simp only; omega⟩

theorem Inv.vesaPrintChar (h : Inv s) {c : Byte} (hf : Fits s c) : Inv (vesaPrintChar s c) :=
  ⟨(h.cell_vesaPrintChar c).1, (h.cell_vesaPrintChar c).2,
    (onScreen_vesaPrintChar_iff h c).mpr hf⟩

/-- Every call of `vesa_print_char` that `vesa_print_string` makes is made where it fits. -/
def StringFits (s : Vesa) : List Byte → Prop
  | [] => True
  | c :: cs => Fits s c ∧ StringFits (Console.vesaPrintChar s c) cs

theorem Inv.vesaPrintString (h : Inv s) {str : CStr} (hf : StringFits s str.chars) :
    Inv (vesaPrintString s str) := by
  unfold Console.vesaPrintString
  revert hf
  generalize str.chars = l
  intro hf
  induction l generalizing s with
  | nil => exact h
  | cons c l ih => exact ih (h.vesaPrintChar hf.1) hf.2

end

/-! ### Runs -/

/-- A call that moves the cursor. -/
inductive Call where
  | klog (msg : CStr)
  | klogColor (msg : CStr)
  | printChar (c : Byte)
  | printString (str : CStr)
  | scroll (lines : Int)
  | clear

/-- The screen after the call. -/
def Call.run (s : Vesa) : Call → Vesa
  | .klog msg => Console.klog s msg
  | .klogColor msg => Console.klogColor s msg
  | .printChar c => vesaPrintChar s c
  | .printString str => vesaPrintString s str
  | .scroll lines => vesaScroll s lines
  | .clear => vesaClear s

/-- The condition on the call: it is about `vesa_print_char` only. -/
def Call.Safe (s : Vesa) : Call → Prop
  | .printChar c => Fits s c
  | .printString str => StringFits s str.chars
  | _ => True

/-- The screens that calls produce after the screen was set up and cleared, with a size of whole
characters; every call meets `C`. -/
inductive Run (C : Vesa → Call → Prop) : Vesa → Prop where
  | start (s : Vesa) (width height : BitVec 32)
      (hw : 16 ≤ (vesaInitFromParams s width height).width ∧
        8 ∣ (vesaInitFromParams s width height).width)
      (hh : 16 ≤ (vesaInitFromParams s width height).height ∧
        8 ∣ (vesaInitFromParams s width height).height) :
      Run C (vesaClear (vesaInitFromParams s width height))
  | call {s : Vesa} (h : Run C s) (c : Call) (hc : C s c) : Run C (c.run s)

theorem Inv.run {s : Vesa} (h : Inv s) {c : Call} (hc : c.Safe s) : Inv (c.run s) := by
  cases c with
  | klog msg => exact Inv.foldl (fun s c h => h.klogChar c) h msg.chars
  | klogColor msg => exact Inv.foldl (fun s c h => h.klogColorChar c) h msg.chars
  | printChar c => exact h.vesaPrintChar hc
  | printString str => exact h.vesaPrintString hc
  | scroll lines => exact h.vesaScroll lines
  | clear => exact h.toGrid.vesaClear

theorem Run.inv {s : Vesa} (h : Run Call.Safe s) : Inv s := by
  induction h with
  | start s width height hw hh => exact (grid_vesaInitFromParams hw hh).vesaClear
  | call _ c hc ih => exact ih.run hc

/-- As long as `vesa_print_char` is not called with a newline in the last row or with a character
to draw in the last column, the cursor stays on the screen. -/
theorem onScreen_of_run {s : Vesa} (h : Run Call.Safe s) : OnScreen s := h.inv.onScreen

/-- The screen before it is set up. -/
def blank : Vesa := ⟨0, 0, false, 0, 0⟩

theorem onScreen_of_run_klog :
    OnScreen (Call.run (Call.run (vesaClear (vesaInitFromParams blank 16 16)) (.printChar 0x41))
      (.klog ⟨[0x42, newline], by decide⟩)) :=
  onScreen_of_run (((Run.start (C := Call.Safe) blank 16 16 (by decide) (by decide)).call
    (.printChar 0x41) (show Fits _ _ by decide)).call (.klog ⟨[0x42, newline], by decide⟩) trivial)

/-- On a screen of two rows of two characters, two letters leave it on the right and two newlines
leave it at the bottom. -/
theorem exists_run_not_onScreen :
    (∃ s, Run (fun _ _ => True) s ∧ s.cx = s.width) ∧
      ∃ s, Run (fun _ _ => True) s ∧ s.cy = s.height := by
  have h := Run.start (C := fun _ _ => True) blank 16 16 (by decide) (by decide)
  exact ⟨⟨_, (h.call (.printChar 0x41) trivial).call (.printChar 0x42) trivial, by decide⟩,
    ⟨_, (h.call (.printChar newline) trivial).call (.printChar newline) trivial, by decide⟩⟩

end Crusadia.Console
