import Vx68k.TextVideo

/-!
# The console's cursor

`b_putc` moves the cursor of the machine and draws in its text video memory. The
machine is generic in that memory, so that a recording one can stand behind it. The
test for the end of a line is an equality, and a tab that arrives in the wrap
position steps over it. Without such a tab the cursor stays on the screen and
characters are drawn in their own text line only.
-/

namespace Vx68k

open ByteStores Buffers TextVideoMemory

/-- What `b_putc` asks of a text video memory. -/
class Video (V : Type) where
  scroll : V → V
  drawChar : Int → Int → Uint32 → V → V

/-- The text video memory itself. -/
instance : Video TextVideoMemory := ⟨TextVideoMemory.scroll, TextVideoMemory.drawChar⟩

/-- The fields of a `machine` that console output works on. -/
structure Machine (V : Type) where
  curx : Uint32
  cury : Uint32
  savedByte1 : Byte
  tvram : V

namespace Machine

variable {V : Type} [Video V]

/-- Move one line down, scrolling at the last line. -/
def lineFeed (m : Machine V) : Machine V :=
  let m := { m with cury := m.cury + 1 }
  if m.cury = 31 then { m with cury := m.cury - 1, tvram := Video.scroll m.tvram } else m

/-- Control codes move nothing but the cursor, and the screen by a line feed. -/
def controlCode (code : Uint16) (m : Machine V) : Machine V :=
  let m := { m with savedByte1 := 0 }
  if code = 0x09 then { m with curx := (m.curx + 8) &&& ~~~7 }
  else if code = 0x0a then lineFeed m
  else if code = 0x0d then { m with curx := 0 }
  else m

/-- Join a code to the byte saved before it. -/
def join (code : Uint16) (m : Machine V) : Uint16 :=
  if m.savedByte1 ≠ 0 ∧ code ≤ 0xff then code ||| m.savedByte1.setWidth 16 <<< 8 else code

/-- Make room for a character of one or two columns. -/
def makeRoom (code : Uint16) (m : Machine V) : Machine V :=
  let m := if 0x100 ≤ code ∧ m.curx + 1 = 96 then { m with curx := m.curx + 1 } else m
  if m.curx = 96 then lineFeed { m with curx := 0 } else m

/-- A code that is the first byte of two. -/
def Leads (code : Uint16) : Prop := 0x80 ≤ code ∧ code ≤ 0x9f ∨ 0xe0 ≤ code ∧ code ≤ 0xff

instance (code : Uint16) : Decidable (Leads code) := inferInstanceAs (Decidable (_ ∨ _))

/-- Draw a character and move past it. -/
def draw (code : Uint16) (m : Machine V) : Machine V :=
  let m := { m with tvram := Video.drawChar m.curx.toInt m.cury.toInt (code.setWidth 32) m.tvram }
  let m := { m with curx := m.curx + 1 }
  if 0x100 ≤ code then { m with curx := m.curx + 1 } else m

/-- Output a code that is not a control code. -/
def print (code : Uint16) (m : Machine V) : Machine V :=
  let m := makeRoom code { m with savedByte1 := 0 }
  if Leads code then { m with savedByte1 := code.setWidth 8 } else draw code m

/-- A code below the printable ones. -/
def Controls (code : Uint16) : Prop := code ≤ 0x1f ∨ code = 0x7f

instance (code : Uint16) : Decidable (Controls code) := inferInstanceAs (Decidable (_ ∨ _))

/-- Output a character: a control code acts at once, and another one is joined to a saved byte
and printed. -/
def bPutc (code : Uint16) (m : Machine V) : Machine V :=
  if Controls code then controlCode code m else print (join code m) m

/-- Output codes one after the other. -/
def prints (codes : List Uint16) (m : Machine V) : Machine V :=
  codes.foldl (fun m code => bPutc code m) m

/-- More codes are printed after the first ones. -/
theorem prints_append (codes more : List Uint16) (m : Machine V) :
    prints (codes ++ more) m = prints more (prints codes m) :=
  List.foldl_append

/-- A line feed keeps the column. -/
@[simp]
theorem lineFeed_curx (m : Machine V) : (lineFeed m).curx = m.curx := by
  simp only [lineFeed]
  split <;> rfl

/-- It keeps the saved byte too. -/
@[simp]
theorem lineFeed_savedByte1 (m : Machine V) : (lineFeed m).savedByte1 = m.savedByte1 := by
  simp only [lineFeed]
  split <;> rfl

/-- A control code forgets the saved byte. -/
@[simp]
theorem controlCode_savedByte1 (code : Uint16) (m : Machine V) :
    (controlCode code m).savedByte1 = 0 := by
  simp only [controlCode]
  split
  · rfl
  · split
    · exact lineFeed_savedByte1 _
    · split <;> rfl

/-- A character of one or two columns does not fit behind the cursor. -/
def Wraps (code : Uint16) (curx : Uint32) : Prop := curx = 96 ∨ 0x100 ≤ code ∧ curx + 1 = 96

instance (code : Uint16) (curx : Uint32) : Decidable (Wraps code curx) :=
  inferInstanceAs (Decidable (_ ∨ _))

/-- Room is made at the start of the next line, wherever the cursor was. -/
theorem makeRoom_eq (code : Uint16) (m : Machine V) :
    makeRoom code m = if Wraps code m.curx then lineFeed { m with curx := 0 } else m := by
  simp only [makeRoom]
  by_cases last : 0x100 ≤ code ∧ m.curx + 1 = 96
  · have wraps : Wraps code m.curx := Or.inr last
    rw [if_pos last, if_pos last.2, if_pos wraps]
  · rw [if_neg last]
    by_cases wrap : m.curx = 96
    · have wraps : Wraps code m.curx := Or.inl wrap
      rw [if_pos wrap, if_pos wraps]
    · have fits : ¬ Wraps code m.curx := not_or.mpr ⟨wrap, last⟩
      rw [if_neg wrap, if_neg fits]

/-- A code that does not fit starts the next line. -/
theorem makeRoom_wraps {code : Uint16} {m : Machine V} (wraps : Wraps code m.curx) :
    makeRoom code m = lineFeed { m with curx := 0 } := by
  rw [makeRoom_eq, if_pos wraps]

/-- A code that fits needs no room to be made. -/
theorem makeRoom_fits {code : Uint16} {m : Machine V} (fits : ¬ Wraps code m.curx) :
    makeRoom code m = m := by
  rw [makeRoom_eq, if_neg fits]

/-- Making room keeps the saved byte. -/
@[simp]
theorem makeRoom_savedByte1 (code : Uint16) (m : Machine V) :
    (makeRoom code m).savedByte1 = m.savedByte1 := by
  rw [makeRoom_eq]
  split
  · exact lineFeed_savedByte1 _
  · rfl

/-- Drawing keeps the saved byte. -/
@[simp]
theorem draw_savedByte1 (code : Uint16) (m : Machine V) : (draw code m).savedByte1 = m.savedByte1 := by
  simp only [draw]
  split <;> rfl

end Machine

namespace ConsoleCursor

open Machine

/-- A text video memory with a record of the cells each character was drawn to, with
its text line. -/
structure Drawing where
  tvram : TextVideoMemory
  drawn : List (Int × List Int)

/-- Every bitmap is noted with its line and the places it is painted to. -/
instance : Video Drawing where
  scroll drawing := { drawing with tvram := drawing.tvram.scroll }
  drawChar x y c drawing :=
    ⟨drawing.tvram.drawChar x y c,
      drawing.drawn ++ [(y, targets (paint x y (glyph drawing.tvram.connectedConsole c)))]⟩

/-- A cell of a text line on the screen: a byte column below 96 of one of its rows,
in one of the two planes. -/
def OnScreen (line index : Int) : Prop :=
  ∃ plane row column : Int, (plane = 0 ∨ plane = 1) ∧ 16 * line ≤ row ∧ row < 16 * line + 16 ∧
    0 ≤ column ∧ column < 96 ∧ index = plane * planeSize + row * rowSize + column

/-- The cursor is on the screen or in the wrap position, and every character was
drawn in its own text line, one of the 31. -/
structure Confined (m : Machine Drawing) : Prop where
  curx : m.curx.toNat ≤ 96
  cury : m.cury.toNat ≤ 30
  drawn : ∀ call ∈ m.tvram.drawn, 0 ≤ call.1 ∧ call.1 ≤ 30 ∧ ∀ index ∈ call.2, OnScreen call.1 index

/-- A code that is no tab in the wrap position. -/
def Steady (code : Uint16) (m : Machine Drawing) : Prop := ¬ (code = 0x09 ∧ m.curx = 96)

/-- A machine before any output. -/
def start (console : Console) : Machine Drawing := ⟨0, 0, 0, ⟨construct console, []⟩⟩

variable {m : Machine Drawing} {code : Uint16}

/-- A tab moves to a multiple of eight. -/
theorem tab_toNat (curx : Uint32) (bounded : curx.toNat ≤ 96) :
    ((curx + 8) &&& ~~~7).toNat = (curx.toNat + 8) / 8 * 8 := by
  have sum : (curx + 8).toNat = curx.toNat + 8 := by bv_omega
  exact sum ▸ and_mask_toNat (curx + 8) (~~~7) 3 (by decide)

/-- A line feed keeps the cursor and what has been drawn in bounds. -/
theorem lineFeed_confined (confined : Confined m) : Confined (lineFeed m) := by
  obtain ⟨curx, cury, drawn⟩ := confined
  simp only [lineFeed]
  split
  · exact ⟨curx, by bv_omega, drawn⟩
  · rename_i last
    exact ⟨curx, by bv_omega, drawn⟩

/-- So does a control code that leaves the column as it is or in bounds. -/
theorem controlCode_confined (confined : Confined m) (steady : Steady code m) :
    Confined (controlCode code m) := by
  obtain ⟨curx, cury, drawn⟩ := confined
  have cleared : Confined { m with savedByte1 := 0 } := ⟨curx, cury, drawn⟩
  simp only [controlCode]
  split
  · rename_i tab
    have below : m.curx ≠ 96 := fun wrap => steady ⟨tab, wrap⟩
    have moved := tab_toNat m.curx curx
    exact ⟨by simp only [moved]; bv_omega, cury, drawn⟩
  · split
    · exact lineFeed_confined cleared
    · split
      · exact ⟨by simp, cury, drawn⟩
      · exact cleared

/-- Room has been made: the cursor is before the wrap position, two columns before it
for a code of two bytes. -/
theorem makeRoom_confined (confined : Confined m) (code : Uint16) :
    Confined (makeRoom code m) ∧ (makeRoom code m).curx.toNat ≤ 95 ∧
      (0x100 ≤ code → (makeRoom code m).curx.toNat ≤ 94) := by
  obtain ⟨curx, cury, drawn⟩ := confined
  rw [makeRoom_eq]
  split
  · exact ⟨lineFeed_confined ⟨by simp, cury, drawn⟩, by simp, fun _ => by simp⟩
  · rename_i fits
    rw [Wraps, not_or] at fits
    refine ⟨⟨curx, cury, drawn⟩, by bv_omega, fun wide => ?_⟩
    have notLast : m.curx + 1 ≠ 96 := fun same => fits.2 ⟨wide, same⟩
    bv_omega

/-- Where there is room, a character is drawn in its text line and the cursor moves
no further than the wrap position. -/
theorem draw_confined (confined : Confined m) (room : m.curx.toNat ≤ 95)
    (wideRoom : 0x100 ≤ code → m.curx.toNat ≤ 94) : Confined (draw code m) := by
  obtain ⟨curx, cury, drawn⟩ := confined
  have x : m.curx.toInt = m.curx.toNat := BitVec.toInt_eq_toNat_of_lt (by omega)
  have y : m.cury.toInt = m.cury.toNat := BitVec.toInt_eq_toNat_of_lt (by omega)
  have places : ∀ call ∈ (draw code m).tvram.drawn, 0 ≤ call.1 ∧ call.1 ≤ 30 ∧
      ∀ index ∈ call.2, OnScreen call.1 index := by
    have same : (draw code m).tvram.drawn = m.tvram.drawn ++ [((m.cury.toNat : Int),
        targets (paint m.curx.toNat m.cury.toNat
          (glyph m.tvram.tvram.connectedConsole (code.setWidth 32))))] := by
      simp only [draw, x, y]
      split <;> rfl
    rw [same]
    intro call member
    rcases List.mem_append.mp member with old | new
    · exact drawn call old
    · rw [List.mem_singleton.mp new]
      refine ⟨by omega, by omega, fun index target => ?_⟩
      obtain ⟨cell, painted, rfl⟩ := List.mem_map.mp target
      obtain ⟨plane, two, row, rowLow, column, columnLow, rfl⟩ := mem_paint.mp painted
      refine ⟨plane, m.cury.toNat * 16 + row, m.curx.toNat + column, two, by omega, by omega,
        by omega, ?_, ?_⟩
      · rcases glyph_columns m.tvram.tvram.connectedConsole (code.setWidth 32) with one | ⟨two, wide⟩
        · omega
        · have long : 0x100 ≤ code := by bv_omega
          have := wideRoom long
          omega
      · simp only [rowSize]
        ring
  refine ⟨?_, ?_, places⟩
  · simp only [draw]
    split
    · rename_i wide
      have := wideRoom wide
      bv_omega
    · bv_omega
  · simp only [draw]
    split <;> exact cury

/-- Every code but a tab in the wrap position keeps the cursor confined. -/
theorem bPutc_confined (confined : Confined m) (steady : Steady code m) :
    Confined (bPutc code m) := by
  rw [bPutc]
  split
  · exact controlCode_confined confined steady
  · have cleared : Confined { m with savedByte1 := 0 } :=
      ⟨confined.curx, confined.cury, confined.drawn⟩
    obtain ⟨kept, room, wideRoom⟩ := makeRoom_confined cleared (join code m)
    simp only [print]
    split
    · exact ⟨kept.curx, kept.cury, kept.drawn⟩
    · exact draw_confined kept room wideRoom

/-- A tab in the wrap position leaves the screen. -/
theorem bPutc_escapes (escapes : ¬ Steady code m) : ¬ Confined (bPutc code m) := by
  rw [Steady, not_not] at escapes
  obtain ⟨rfl, wrap⟩ := escapes
  intro confined
  have curx := confined.curx
  have moved : (bPutc 0x09 m).curx = (m.curx + 8) &&& ~~~7 := rfl
  rw [moved, wrap] at curx
  exact absurd curx (by decide)

/-- In every run from a fresh machine the cursor stays confined and every character
is drawn on the screen in its own text line, in all states, if and only if no tab
arrives in the wrap position.

Proof: by induction on the run, one code at a time. -/
theorem runs_confined_iff (console : Console) (codes : List Uint16) :
    (∀ done, done <+: codes → Confined (prints done (start console))) ↔
      ∀ done code, done ++ [code] <+: codes → Steady code (prints done (start console)) := by
  constructor
  · intro confined done code first
    by_contra escapes
    have after := confined (done ++ [code]) first
    rw [prints_append] at after
    exact bPutc_escapes escapes after
  · intro steady done
    induction done using List.reverseRecOn with
    | nil => exact fun _ => ⟨by simp [prints, start], by simp [prints, start], by simp [prints, start]⟩
    | append_singleton done code inductionHypothesis =>
      intro first
      have before := inductionHypothesis ((List.prefix_append done [code]).trans first)
      rw [prints_append]
      exact bPutc_confined before (steady done code first)

/-- Thirteen tabs put the cursor in column 104. -/
theorem tabs_escape :
    (prints (List.replicate 13 0x09) (start .sample)).curx = 104 ∧
      ¬ ∀ done, done <+: List.replicate 13 0x09 → Confined (prints done (start .sample)) := by
  have column : (prints (List.replicate 13 0x09) (start .sample)).curx = 104 := by decide
  refine ⟨column, fun confined => ?_⟩
  have curx := (confined _ (List.prefix_refl _)).curx
  rw [column] at curx
  exact absurd curx (by decide)

end ConsoleCursor

end Vx68k
