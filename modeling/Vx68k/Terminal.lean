import Vx68k.ConsoleCursor
import Vx68k.HostFonts
import Vx68k.TextPlanes

/-!
# The console as a character terminal

The terminal is stated without a frame buffer: a grid of 31 lines of 96 byte columns
of bitmaps, a cursor and the lead byte of a character that is still to come. The
machine shows it: after any output without tabs, two of its text planes are the
picture of the grid, blank outside it.
-/

namespace Vx68k

open ByteStores Buffers TextVideoMemory Machine

/-- Bitmaps of sixteen bytes, by line, byte column and pixel row. -/
abbrev Grid := Nat → Nat → Nat → Byte

/-- The cursor, a lead byte that waits for its second byte, and the grid. -/
structure Terminal where
  line : Nat
  column : Nat
  pending : Option Byte
  grid : Grid

namespace Terminal

/-- An empty screen with the cursor in its corner. -/
def start : Terminal := ⟨0, 0, none, fun _ _ _ => 0⟩

/-- Go down one line. At the last one all lines go up and a blank one follows. -/
def down (t : Terminal) : Terminal :=
  if t.line = 30 then
    { t with grid := fun line => if line < 30 then t.grid (line + 1) else fun _ _ => 0 }
  else { t with line := t.line + 1 }

/-- Replace the cells at the cursor by a bitmap. -/
def put (g : Glyph) (t : Terminal) : Terminal :=
  { t with grid := fun line column row =>
      if line = t.line ∧ t.column ≤ column ∧ column < t.column + g.columns then
        g.pixels row (column - t.column)
      else t.grid line column row }

/-- A code below 0x100 is joined to a pending lead byte. -/
def joined (code : Nat) (t : Terminal) : Nat :=
  match t.pending with
  | some lead => if code < 0x100 then lead.toNat * 0x100 + code else code
  | none => code

/-- The columns that the cursor moves over. -/
def width (code : Nat) : Nat := if 0x100 ≤ code then 2 else 1

/-- Output a character, on the next line if it does not fit this one. A lead byte
waits for its second byte. -/
def output (console : Console) (code : Nat) (t : Terminal) : Terminal :=
  let t := { t with pending := none }
  let t := if t.column = 96 ∨ 0x100 ≤ code ∧ t.column = 95 then down { t with column := 0 } else t
  if 0x80 ≤ code ∧ code ≤ 0x9f ∨ 0xe0 ≤ code ∧ code ≤ 0xff then
    { t with pending := some (BitVec.ofNat 8 code) }
  else { put (glyph console (BitVec.ofNat 32 code)) t with column := t.column + width code }

/-- What a code does. Every control code discards a pending lead byte. -/
def step (console : Console) (t : Terminal) (code : Nat) : Terminal :=
  if code ≤ 0x1f ∨ code = 0x7f then
    let t := { t with pending := none }
    if code = 0x0a then down t
    else if code = 0x0d then { t with column := 0 }
    else t
  else output console (t.joined code) t

/-- The terminal after some codes. -/
def run (console : Console) (codes : List Uint16) : Terminal :=
  codes.foldl (fun t code => step console t code.toNat) start

/-- The picture of a grid in a plane: blank beside and below its lines. -/
def rendered (grid : Grid) (row column : Nat) : Byte :=
  if row < 496 ∧ column < 96 then grid (row / 16) column (row % 16) else 0

/-- A machine shows a terminal: it has the terminal's cursor and lead byte, and two
planes are the picture of the grid. -/
structure Shows (console : Console) (t : Terminal) (m : Machine TextVideoMemory) : Prop where
  console : m.tvram.connectedConsole = console
  column : m.curx.toNat = t.column
  line : m.cury.toNat = t.line
  pending : m.savedByte1 = t.pending.getD 0
  lead : t.pending ≠ some 0
  inLine : t.column ≤ 96
  inGrid : t.line ≤ 30
  picture : ∀ plane row column, plane < 2 → row < 1024 → column < 128 →
    cell m.tvram.buf plane row column = rendered t.grid row column

variable {console : Console} {t : Terminal} {m : Machine TextVideoMemory}

/-- A line feed shows the next line. -/
theorem shows_down (shows : Shows console t m) : Shows console (down t) (lineFeed m) := by
  obtain ⟨sameConsole, column, line, pending, lead, inLine, inGrid, picture⟩ := shows
  simp only [lineFeed, down]
  by_cases last : t.line = 30
  · have scrolls : m.cury + 1 = 31 := by bv_omega
    rw [if_pos scrolls, if_pos last]
    refine ⟨sameConsole, column, by bv_omega, pending, lead, inLine, inGrid, ?_⟩
    intro plane row column inPlanes inRows inColumns
    simp only [Video.scroll, scroll_buf]
    rw [cell_scroll m.tvram.buf plane row column inColumns inRows]
    by_cases low : row < 480
    · rw [if_pos ⟨inPlanes, low⟩, picture _ _ _ inPlanes (by omega) inColumns]
      have above : (row + 16) / 16 = row / 16 + 1 := by omega
      have inside : row / 16 < 30 := by omega
      simp only [rendered, above, Nat.add_mod_right, inside, ↓reduceIte]
      have both : row + 16 < 496 ∧ column < 96 ↔ row < 496 ∧ column < 96 := by omega
      simp only [both]
    · have outside : ¬ row / 16 < 30 := by omega
      rw [if_neg fun both => low both.2]
      simp only [rendered, outside, ↓reduceIte, ite_self]
      split
      · rfl
      · rename_i below
        rw [picture _ _ _ inPlanes inRows inColumns, rendered, if_neg (by omega)]
  · have stays : ¬ m.cury + 1 = 31 := by bv_omega
    rw [if_neg stays, if_neg last]
    exact ⟨sameConsole, column, by bv_omega, pending, lead, inLine, by simp only; omega, picture⟩

/-- Forgetting the lead byte is shown by clearing the saved byte. -/
theorem shows_forget (shows : Shows console t m) :
    Shows console { t with pending := none } { m with savedByte1 := 0 } :=
  ⟨shows.console, shows.column, shows.line, rfl, by simp, shows.inLine, shows.inGrid, shows.picture⟩

/-- A carriage return. -/
theorem shows_return (shows : Shows console t m) :
    Shows console { t with column := 0 } { m with curx := 0 } :=
  ⟨shows.console, rfl, shows.line, shows.pending, shows.lead, Nat.zero_le _, shows.inGrid,
    shows.picture⟩

/-- A control code other than a tab does to the machine what it does to the
terminal. -/
theorem shows_control (shows : Shows console t m) (code : Uint16) (controls : Controls code)
    (noTab : code ≠ 0x09) : Shows console (step console t code.toNat) (bPutc code m) := by
  have same : code.toNat ≤ 0x1f ∨ code.toNat = 0x7f := by
    unfold Controls at controls
    bv_omega
  rw [bPutc, if_pos controls, step, if_pos same]
  simp only [controlCode, if_neg noTab]
  by_cases feed : code = 0x0a
  · have also : code.toNat = 0x0a := by bv_omega
    rw [if_pos feed, if_pos also]
    exact shows_down (shows_forget shows)
  · have neither : code.toNat ≠ 0x0a := by bv_omega
    rw [if_neg feed, if_neg neither]
    by_cases back : code = 0x0d
    · have also : code.toNat = 0x0d := by bv_omega
      rw [if_pos back, if_pos also]
      exact shows_return (shows_forget shows)
    · have notBack : code.toNat ≠ 0x0d := by bv_omega
      rw [if_neg back, if_neg notBack]
      exact shows_forget shows

/-- Both join a code to a pending lead byte alike. -/
theorem shows_joined (shows : Shows console t m) (code : Uint16) :
    (join code m).toNat = t.joined code.toNat := by
  have pending := shows.pending
  have lead := shows.lead
  unfold join joined
  cases held : t.pending with
  | none =>
    rw [held, Option.getD_none] at pending
    rw [if_neg fun both => both.1 pending]
  | some byte =>
    rw [held, Option.getD_some] at pending
    have some : m.savedByte1 ≠ 0 := by
      rintro null
      exact lead (by rw [held, ← pending, null])
    have bound := byte.isLt
    by_cases short : code.toNat < 0x100
    · have low : code ≤ 0xff := by bv_omega
      have sum : byte.toNat <<< 8 ||| code.toNat = byte.toNat <<< 8 + code.toNat :=
        (Nat.shiftLeft_add_eq_or_of_lt short _).symm
      have fits : byte.toNat <<< 8 % 2 ^ 16 = byte.toNat <<< 8 := by
        rw [Nat.shiftLeft_eq]
        omega
      have widened : byte.toNat % 2 ^ 16 = byte.toNat := Nat.mod_eq_of_lt (by omega)
      simp only [short, ↓reduceIte]
      rw [if_pos ⟨some, low⟩, pending, BitVec.toNat_or, BitVec.toNat_shiftLeft, BitVec.toNat_setWidth,
        widened, fits, Nat.or_comm, sum, Nat.shiftLeft_eq]
    · have long : ¬ code ≤ 0xff := by bv_omega
      simp only [short, ↓reduceIte]
      rw [if_neg fun both => long both.2]

/-- Both make room alike. -/
theorem shows_room (shows : Shows console t m) (code : Uint16) :
    Shows console
      (if t.column = 96 ∨ 0x100 ≤ code.toNat ∧ t.column = 95 then down { t with column := 0 } else t)
      (makeRoom code m) := by
  have column := shows.column
  have inLine := shows.inLine
  simp only [makeRoom]
  by_cases last : 0x100 ≤ code ∧ m.curx + 1 = 96
  · have wraps : t.column = 96 ∨ 0x100 ≤ code.toNat ∧ t.column = 95 := by bv_omega
    rw [if_pos last, if_pos last.2, if_pos wraps]
    exact shows_down (shows_return (m := m) shows)
  · rw [if_neg last]
    by_cases wrap : m.curx = 96
    · have wraps : t.column = 96 ∨ 0x100 ≤ code.toNat ∧ t.column = 95 := by bv_omega
      rw [if_pos wrap, if_pos wraps]
      exact shows_down (shows_return shows)
    · have stays : ¬ (t.column = 96 ∨ 0x100 ≤ code.toNat ∧ t.column = 95) := by bv_omega
      rw [if_neg wrap, if_neg stays]
      exact shows

/-- Where there is room, the bitmap of a character ends on the line. -/
theorem glyph_fits {code : Uint16} {column : Nat} (room : column ≤ 95)
    (wideRoom : 0x100 ≤ code.toNat → column ≤ 94) :
    column + (glyph console (BitVec.ofNat 32 code.toNat)).columns ≤ 96 := by
  rcases glyph_columns console (BitVec.ofNat 32 code.toNat) with one | ⟨two, wide⟩
  · omega
  · have low := code.isLt
    rw [BitVec.toNat_ofNat] at wide
    have before := wideRoom (by omega)
    omega

/-- The cursor moves over the columns of the character. -/
theorem draw_column (code : Uint16) (column : m.curx.toNat = t.column) (room : t.column ≤ 95) :
    (draw code m).curx.toNat = t.column + width code.toNat := by
  simp only [draw, width]
  by_cases wide : 0x100 ≤ code
  · have wideNat : 0x100 ≤ code.toNat := by bv_omega
    rw [if_pos wide, if_pos wideNat]
    bv_omega
  · have narrow : ¬ 0x100 ≤ code.toNat := by bv_omega
    rw [if_neg wide, if_neg narrow]
    bv_omega

/-- The character is drawn at the cursor; the line and the lead byte stay. -/
theorem draw_tvram (code : Uint16) (column : m.curx.toNat = t.column) (line : m.cury.toNat = t.line)
    (inLine : t.column ≤ 96) (inGrid : t.line ≤ 30) :
    (draw code m).tvram = m.tvram.drawChar (t.column : Nat) (t.line : Nat)
        (BitVec.ofNat 32 code.toNat) ∧
      (draw code m).cury = m.cury ∧ (draw code m).savedByte1 = m.savedByte1 := by
  have x : m.curx.toInt = (t.column : Nat) := by
    rw [← column]
    exact BitVec.toInt_eq_toNat_of_lt (by omega)
  have y : m.cury.toInt = (t.line : Nat) := by
    rw [← line]
    exact BitVec.toInt_eq_toNat_of_lt (by omega)
  have codeSame : code.setWidth 32 = BitVec.ofNat 32 code.toNat := by
    apply BitVec.eq_of_toNat_eq
    simp
  simp only [draw, x, y, codeSame]
  split <;> exact ⟨rfl, rfl, rfl⟩

/-- Where there is room, both draw the same bitmap. -/
theorem shows_draw (shows : Shows console t m) (code : Uint16) (room : t.column ≤ 95)
    (wideRoom : 0x100 ≤ code.toNat → t.column ≤ 94) :
    Shows console { put (glyph console (BitVec.ofNat 32 code.toNat)) t with
      column := t.column + width code.toNat } (draw code m) := by
  obtain ⟨sameConsole, column, line, pending, lead, inLine, inGrid, picture⟩ := shows
  have fits := @glyph_fits console code t.column room wideRoom
  have moved := draw_column code column room
  obtain ⟨drawn, others⟩ := draw_tvram code column line inLine inGrid
  refine ⟨?_, moved, others.1 ▸ line, others.2 ▸ pending, lead, ?_, inGrid, ?_⟩
  · rw [drawn, drawChar_console, sameConsole]
  · simp only [width]
    split
    · rename_i wide
      have := wideRoom wide
      omega
    · omega
  · intro plane row column inPlanes inRows inColumns
    rw [drawn, drawChar_buf, sameConsole, cell_paint _ _ _ _ (by omega) _ _ _ inColumns inRows (by omega)]
    simp only [rendered, put]
    by_cases inside : 16 * t.line ≤ row ∧ row < 16 * t.line + 16 ∧ t.column ≤ column ∧
        column < t.column + (glyph console (BitVec.ofNat 32 code.toNat)).columns
    · have here : row / 16 = t.line ∧ t.column ≤ column ∧
          column < t.column + (glyph console (BitVec.ofNat 32 code.toNat)).columns := by omega
      have offset : row - 16 * t.line = row % 16 := by omega
      rw [if_pos ⟨inPlanes, inside⟩, if_pos (by omega), if_pos here, offset]
    · rw [if_neg fun both => inside both.2, picture _ _ _ inPlanes inRows inColumns, rendered]
      by_cases onScreen : row < 496 ∧ column < 96
      · rw [if_pos onScreen, if_pos onScreen, if_neg (by omega)]
      · rw [if_neg onScreen, if_neg onScreen]

/-- After making room, a character of either width fits the line. -/
theorem room_made (inLine : t.column ≤ 96) (code : Nat) :
    let placed :=
      if t.column = 96 ∨ 0x100 ≤ code ∧ t.column = 95 then down { t with column := 0 } else t
    placed.column ≤ 95 ∧ (0x100 ≤ code → placed.column ≤ 94) := by
  have top (t : Terminal) : (down { t with column := 0 }).column = 0 := by
    simp only [down]
    split <;> rfl
  split
  · simp only [top]
    omega
  · omega

/-- A character does to the machine what it does to the terminal. -/
theorem shows_output (shows : Shows console t m) (code : Uint16) :
    Shows console (output console code.toNat t) (print code m) := by
  have forgotten := shows_forget shows
  have ready := shows_room forgotten code
  have made := room_made forgotten.inLine code.toNat
  have low := code.isLt
  simp only [output, print]
  by_cases leads : Leads code
  · have also : 0x80 ≤ code.toNat ∧ code.toNat ≤ 0x9f ∨ 0xe0 ≤ code.toNat ∧ code.toNat ≤ 0xff := by
      unfold Leads at leads
      bv_omega
    have same : code.setWidth 8 = BitVec.ofNat 8 code.toNat := by
      apply BitVec.eq_of_toNat_eq
      simp
    have some : BitVec.ofNat 8 code.toNat ≠ 0 := by
      intro null
      have zero := congrArg BitVec.toNat null
      rw [BitVec.toNat_ofNat] at zero
      change code.toNat % 2 ^ 8 = 0 at zero
      omega
    rw [if_pos leads, if_pos also]
    exact ⟨ready.console, ready.column, ready.line, same, fun null => some (Option.some.inj null),
      ready.inLine, ready.inGrid, ready.picture⟩
  · have neither : ¬ (0x80 ≤ code.toNat ∧ code.toNat ≤ 0x9f ∨
        0xe0 ≤ code.toNat ∧ code.toNat ≤ 0xff) := by
      unfold Leads at leads
      bv_omega
    rw [if_neg leads, if_neg neither]
    exact shows_draw ready code made.1 made.2

/-- A code other than a tab does to the machine what it does to the terminal. -/
theorem shows_step (shows : Shows console t m) (code : Uint16) (noTab : code ≠ 0x09) :
    Shows console (step console t code.toNat) (bPutc code m) := by
  by_cases controls : Controls code
  · exact shows_control shows code controls noTab
  · have neither : ¬ (code.toNat ≤ 0x1f ∨ code.toNat = 0x7f) := by
      unfold Controls at controls
      bv_omega
    rw [bPutc, if_neg controls, step, if_neg neither, ← shows_joined shows]
    exact shows_output shows (join code m)

/-- A machine before any output, with zeroed text video memory. -/
def fresh (console : Console) : Machine TextVideoMemory := ⟨0, 0, 0, construct console⟩

/-- A fresh machine shows the empty terminal. -/
theorem shows_fresh (console : Console) : Shows console start (fresh console) := by
  refine ⟨rfl, rfl, rfl, rfl, by simp [start], by simp [start], by simp [start], ?_⟩
  intro plane row column _ _ _
  simp [cell, fresh, construct, rendered, start]

/-- The bitmaps that the terminal puts at its cursor are those that the console has for the
codes. For a code of one byte it is one column, the narrow bitmap of the code; for the code
that Shift-JIS has for a cell, two columns, the wide bitmap of the cell's row and place. -/
theorem output_glyph (console : Console) :
    (∀ code : Uint16, code.toNat < 0x100 → glyph console (BitVec.ofNat 32 code.toNat) =
      ⟨width code.toNat, fun row _ => console.b16Image (BitVec.ofNat 32 code.toNat) row⟩) ∧
    ∀ row place : Nat, HostFonts.Cell row place →
      glyph console (BitVec.ofNat 32 (HostFonts.encodeCell row place).toNat) =
        ⟨width (HostFonts.encodeCell row place).toNat,
          fun line column => console.k16Image (BitVec.ofNat 32 (row * 0x100 + place)) (2 * line + column)⟩ := by
  have same (code : Uint16) : BitVec.ofNat 32 code.toNat = code.setWidth 32 := by
    apply BitVec.eq_of_toNat_eq
    simp
  constructor
  · intro code short
    rw [width, if_neg (by omega), same, HostFonts.glyph_narrow console short, same]
  · intro row place inside
    have kanji := HostFonts.encodeCell_shiftJis inside
    have lead := kanji.lead
    have long : 0x100 ≤ (HostFonts.encodeCell row place).toNat := by
      unfold ConsoleGlyphs.LeadsKanji at lead
      omega
    have request := HostFonts.request_toNat inside
    rw [width, if_pos long, same, HostFonts.glyph_wide console inside
      ((HostFonts.codeBytes_iff kanji inside).mpr ⟨rfl, rfl⟩), ← request, BitVec.ofNat_toNat,
      BitVec.setWidth_eq]

/-- After any codes without tabs a fresh machine shows the terminal: two text planes
are the picture of the grid, and the cursors and lead bytes agree.

Proof: by induction on the codes; each code keeps the machine showing the terminal. -/
theorem console_shows_terminal (console : Console) (codes : List Uint16) (noTab : 0x09 ∉ codes) :
    Shows console (run console codes) (prints codes (fresh console)) := by
  induction codes using List.reverseRecOn with
  | nil => exact shows_fresh console
  | append_singleton codes code inductionHypothesis =>
    rw [List.mem_append, not_or, List.mem_singleton] at noTab
    rw [prints_append, run, List.foldl_append]
    exact shows_step (inductionHypothesis noTab.1) code (Ne.symm noTab.2)

/-- A kanji, a line feed and a letter. -/
theorem console_shows_terminal_kanji :
    Shows .sample (run .sample [0x88, 0x9f, 0x0a, 0x41])
      (prints [0x88, 0x9f, 0x0a, 0x41] (fresh .sample)) :=
  console_shows_terminal .sample [0x88, 0x9f, 0x0a, 0x41] (by decide)

end Terminal

end Vx68k
