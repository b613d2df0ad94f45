import Vx68k.ConsoleGlyphs

/-!
# How far the cursor moves

`b_putc` moves the cursor by one column or two after a character, and `draw_char` overwrites
one column or two for it. Here every drawn character is kept with the place and the width of
its bitmap and with the cursor after it, line by line: a line ends when the cursor moves to
the next one, or when the screen scrolls under it.
-/

namespace Vx68k

open ByteStores Buffers TextVideoMemory

namespace ConsoleAdvance

open Machine ConsoleGlyphs

/-- A text video memory that tells what one code did to it: whether it scrolled, and the byte
column and the width of every bitmap drawn. -/
structure Tracing where
  tvram : TextVideoMemory
  scrolled : Bool
  bitmaps : List (Int × Nat)

/-- Scrolling is noted, and so is the column and the width of every bitmap. -/
instance : Video Tracing where
  scroll tracing := { tracing with tvram := tracing.tvram.scroll, scrolled := true }
  drawChar x y c tracing := { tracing with
    tvram := tracing.tvram.drawChar x y c
    bitmaps := tracing.bitmaps ++ [(x, (glyph tracing.tvram.connectedConsole c).columns)] }

/-- The text video memory does not see what is noted. -/
theorem tracing_follows : Follows Tracing.tvram := ⟨fun _ => rfl, fun _ _ _ _ => rfl⟩

/-- A character drawn: its first byte column, the columns it overwrote, and the cursor after
it. -/
structure Stroke where
  start : Int
  columns : Nat
  after : Uint32
deriving DecidableEq

/-- A machine with the characters drawn on the cursor's line, and on the lines before. -/
structure Printed where
  machine : Machine TextVideoMemory
  current : List Stroke
  earlier : List (List Stroke)

/-- The machine with nothing noted yet. -/
def traced (m : Machine TextVideoMemory) : Machine Tracing := seenAs (⟨·, false, []⟩) m

/-- Note what one code did, from the machine that it left. -/
def Printed.note (after : Machine Tracing) (printed : Printed) : Printed :=
  let strokes := after.tvram.bitmaps.map fun bitmap => ⟨bitmap.1, bitmap.2, after.curx⟩
  let machine := seenAs Tracing.tvram after
  if after.cury = printed.machine.cury ∧ after.tvram.scrolled = false then
    ⟨machine, printed.current ++ strokes, printed.earlier⟩
  else ⟨machine, strokes, printed.earlier ++ [printed.current]⟩

/-- Output a code and note what it did. -/
def Printed.putc (code : Uint16) (printed : Printed) : Printed :=
  printed.note (bPutc code (traced printed.machine))

/-- Print codes one after the other. -/
def Printed.run (codes : List Uint16) (printed : Printed) : Printed :=
  codes.foldl (fun printed code => printed.putc code) printed

/-- Some character of the line overwrote the column. -/
def Covered (line : List Stroke) (column : Int) : Prop :=
  ∃ stroke ∈ line, stroke.start ≤ column ∧ column < stroke.start + stroke.columns

/-- From the first column printed up to a bound, nothing keeps old contents but the last
column, where a wide character did not fit. -/
def Gapless (line : List Stroke) (bound : Int) : Prop :=
  ∀ stroke ∈ line, ∀ column, stroke.start ≤ column → column < bound →
    Covered line column ∨ column = 95

/-- Every character moved the cursor past what it overwrote, and no line has a gap. -/
structure Exact (printed : Printed) : Prop where
  advance : ∀ line ∈ printed.current :: printed.earlier, ∀ stroke ∈ line,
    (stroke.after.toNat : Int) = stroke.start + stroke.columns
  current : Gapless printed.current printed.machine.curx.toNat
  earlier : ∀ line ∈ printed.earlier, Gapless line 96

/-- The number of columns that the cursor moves by. -/
def width (code : Uint16) : Nat := if 0x100 ≤ code then 2 else 1

/-- The cursor and the bitmap agree on a code just if one of two bytes is that of a kanji. -/
theorem glyph_width (console : Console) (code : Uint16) :
    (glyph console (code.setWidth 32)).columns = width code ↔ Matches code := by
  obtain ⟨shifted, direct, low, high⟩ := codeBytes_ranges code
  have columns : (glyph console (code.setWidth 32)).columns =
      if (0x21 ≤ (codeBytes (code.setWidth 32)).1 ∧ (codeBytes (code.setWidth 32)).1 ≤ 0x7e)
      then 2 else 1 := by
    simp only [glyph]
    split <;> rfl
  have wide : (0x100 : Uint16) ≤ code ↔ 0x100 ≤ code.toNat := Iff.rfl
  rw [columns]
  unfold width Matches
  by_cases leads : LeadsKanji (code.toNat / 0x100)
  · have long : (0x100 : Uint16) ≤ code := by
      rw [wide]
      unfold LeadsKanji at leads
      omega
    simp only [(shifted leads).1, and_self, if_true, long, leads, or_true]
  · rw [direct leads]
    simp only [leads, or_false, wide, RowOfKanji]
    split <;> split <;> omega

section Cursor

variable {V : Type} [Video V]

/-- The column that a code finds, once there is room for it. -/
def room (code : Uint16) (curx : Uint32) : Uint32 := if Wraps code curx then 0 else curx

/-- Where the cursor is once there is room. -/
theorem makeRoom_curx (code : Uint16) (m : Machine V) :
    (makeRoom code m).curx = room code m.curx := by
  rw [makeRoom_eq, room]
  split
  · exact lineFeed_curx _
  · rfl

/-- Drawing moves the cursor by the width of the code. -/
theorem draw_curx (code : Uint16) (m : Machine V) :
    (draw code m).curx = m.curx + BitVec.ofNat 32 (width code) := by
  simp only [draw, width]
  split
  · exact BitVec.add_assoc m.curx 1 1
  · rfl

/-- There is room for the whole character. -/
theorem room_fits (code : Uint16) {curx : Uint32} (bounded : curx.toNat ≤ 96) :
    (room code curx).toNat + width code ≤ 96 := by
  unfold room width
  split
  · split <;> decide
  · rename_i fits
    rw [Wraps, not_or] at fits
    split
    · rename_i wide
      have notLast : curx + 1 ≠ 96 := fun same => fits.2 ⟨wide, same⟩
      bv_omega
    · bv_omega

/-- A line is left from its last column only, or from behind it. -/
theorem wraps_last {code : Uint16} {curx : Uint32} (wraps : Wraps code curx) :
    95 ≤ curx.toNat := by
  rcases wraps with wrap | ⟨_, last⟩
  · bv_omega
  · bv_omega

end Cursor

section Lines

/-- Whether the cursor is still on the line where it was. -/
theorem lineFeed_leaves (m : Machine Tracing) :
    ¬ ((lineFeed m).cury = m.cury ∧ (lineFeed m).tvram.scrolled = false) := by
  simp only [lineFeed]
  split
  · exact fun same => Bool.noConfusion (show true = false from same.2)
  · exact fun same => absurd same.1 (by bv_omega)

/-- A line feed draws nothing. -/
theorem lineFeed_bitmaps (m : Machine Tracing) :
    (lineFeed m).tvram.bitmaps = m.tvram.bitmaps := by
  simp only [lineFeed]
  split <;> rfl

/-- Making room draws nothing. -/
theorem makeRoom_bitmaps (code : Uint16) (m : Machine Tracing) :
    (makeRoom code m).tvram.bitmaps = m.tvram.bitmaps := by
  rw [makeRoom_eq]
  split
  · exact lineFeed_bitmaps _
  · rfl

/-- The line is left if there is no room, and not otherwise. -/
theorem makeRoom_leaves (code : Uint16) (m : Machine Tracing) (fresh : m.tvram.scrolled = false) :
    ((makeRoom code m).cury = m.cury ∧ (makeRoom code m).tvram.scrolled = false) ↔
      ¬ Wraps code m.curx := by
  rw [makeRoom_eq]
  split
  · rename_i wraps
    exact ⟨fun same => absurd same (lineFeed_leaves { m with curx := 0 }), fun fits => absurd wraps fits⟩
  · rename_i fits
    exact ⟨fun _ => fits, fun _ => ⟨rfl, fresh⟩⟩

/-- Drawing adds a bitmap at the cursor and stays on the line. -/
theorem draw_bitmaps (code : Uint16) (m : Machine Tracing) :
    (draw code m).tvram.bitmaps = m.tvram.bitmaps ++
        [(m.curx.toInt, (glyph m.tvram.tvram.connectedConsole (code.setWidth 32)).columns)] ∧
      (draw code m).cury = m.cury ∧ (draw code m).tvram.scrolled = m.tvram.scrolled := by
  simp only [draw]
  split <;> exact ⟨rfl, rfl, rfl⟩

end Lines

/-- The invariant of a run in which cursor and bitmaps agree. On the cursor's line there is not
even a gap at the end. -/
structure Tidy (cursor : Nat) (current : List Stroke) (earlier : List (List Stroke)) : Prop where
  bounded : cursor ≤ 96
  advance : ∀ line ∈ current :: earlier, ∀ stroke ∈ line,
    (stroke.after.toNat : Int) = stroke.start + stroke.columns
  current : ∀ stroke ∈ current, ∀ column, stroke.start ≤ column → column < cursor →
    Covered current column
  earlier : ∀ line ∈ earlier, Gapless line 96

section Steps

variable {cursor : Nat} {current : List Stroke} {earlier : List (List Stroke)}

/-- Lines that are tidy are exact. -/
theorem Tidy.exact {printed : Printed}
    (tidy : Tidy printed.machine.curx.toNat printed.current printed.earlier) : Exact printed :=
  ⟨tidy.advance, fun stroke member column start before =>
    Or.inl (tidy.current stroke member column start before), tidy.earlier⟩

/-- A line that is left from its last column has a gap there at most. -/
theorem Tidy.leave (tidy : Tidy cursor current earlier) (last : 95 ≤ cursor) :
    Tidy 0 [] (earlier ++ [current]) := by
  refine ⟨by omega, fun line member stroke drawn => ?_, by simp, fun line member => ?_⟩
  · have known : line = [] ∨ line ∈ earlier ∨ line = current := by simpa using member
    rcases known with rfl | old | rfl
    · exact absurd drawn (List.not_mem_nil)
    · exact tidy.advance line (List.mem_cons_of_mem _ old) stroke drawn
    · exact tidy.advance line List.mem_cons_self stroke drawn
  · rcases List.mem_append.mp member with old | new
    · exact tidy.earlier line old
    · obtain rfl := List.mem_singleton.mp new
      intro stroke drawn column start before
      by_cases left : column < cursor
      · exact Or.inl (tidy.current stroke drawn column start left)
      · exact Or.inr (by omega)

/-- A character drawn at the cursor joins the ones before it. -/
theorem Tidy.draw (tidy : Tidy cursor current earlier) {columns : Nat} {after : Uint32}
    (moved : after.toNat = cursor + columns) (fits : cursor + columns ≤ 96) :
    Tidy after.toNat (current ++ [⟨cursor, columns, after⟩]) earlier := by
  refine ⟨by omega, fun line member stroke drawn => ?_, fun stroke drawn column start before => ?_,
    tidy.earlier⟩
  · rcases List.mem_cons.mp member with rfl | old
    · rcases List.mem_append.mp drawn with before | new
      · exact tidy.advance current List.mem_cons_self stroke before
      · obtain rfl := List.mem_singleton.mp new
        simp only [moved]
        omega
    · exact tidy.advance line (List.mem_cons_of_mem _ old) stroke drawn
  · by_cases new : cursor ≤ column
    · exact ⟨_, List.mem_append_right _ List.mem_cons_self, new, by simp only; omega⟩
    · rcases List.mem_append.mp drawn with old | here
      · obtain ⟨other, found, covers⟩ := tidy.current stroke old column start (by omega)
        exact ⟨other, List.mem_append_left _ found, covers⟩
      · obtain rfl := List.mem_singleton.mp here
        exact absurd start new

/-- Lines stay tidy when room is made. -/
theorem Tidy.room {curx : Uint32} (tidy : Tidy curx.toNat current earlier) (code : Uint16) :
    Tidy (room code curx).toNat (if Wraps code curx then [] else current)
      (if Wraps code curx then earlier ++ [current] else earlier) := by
  unfold ConsoleAdvance.room
  split
  · rename_i wraps
    exact tidy.leave (wraps_last wraps)
  · exact tidy

end Steps

/-- Noting what a code did leaves its output as it is. -/
theorem putc_machine (code : Uint16) (printed : Printed) :
    (printed.putc code).machine = bPutc code printed.machine := by
  have same := bPutc_seenAs tracing_follows code (traced printed.machine)
  simp only [Printed.putc, Printed.note]
  split <;> exact same.symm

/-- The machine prints as it does without a record of lines. -/
theorem run_machine (codes : List Uint16) (printed : Printed) :
    (printed.run codes).machine = prints codes printed.machine :=
  (List.foldl_hom Printed.machine fun printed code => (putc_machine code printed).symm).symm

/-- The lines after a code that was output with room for a character. -/
theorem note_lines {code : Uint16} {printed : Printed} (after : Machine Tracing)
    (stays : (after.cury = printed.machine.cury ∧ after.tvram.scrolled = false) ↔
      ¬ Wraps code printed.machine.curx) :
    (printed.note after).current = (if Wraps code printed.machine.curx then [] else printed.current) ++
        (after.tvram.bitmaps.map fun bitmap => ⟨bitmap.1, bitmap.2, after.curx⟩) ∧
      (printed.note after).earlier = if Wraps code printed.machine.curx then
        printed.earlier ++ [printed.current] else printed.earlier := by
  simp only [Printed.note, stays]
  by_cases wraps : Wraps code printed.machine.curx
  · simp only [wraps, not_true_eq_false, if_false, if_true, List.nil_append, and_self]
  · simp only [wraps, not_false_eq_true, if_false, if_true, and_self]

/-- The strokes of one code: none, or the character it completes, at the column with room. -/
def strokes (code : Uint16) (m : Machine TextVideoMemory) : List Stroke :=
  match drawnCode m.savedByte1 code with
  | none => []
  | some c =>
    [⟨(room c m.curx).toInt, (glyph m.tvram.connectedConsole (c.setWidth 32)).columns,
      room c m.curx + BitVec.ofNat 32 (width c)⟩]

/-- The width of a bitmap does not depend on the console. -/
theorem glyph_columns_console (console other : Console) (c : Uint32) :
    (glyph console c).columns = (glyph other c).columns := by
  simp only [glyph]
  split <;> rfl

/-- What is noted for a code that is no control code. -/
theorem putc_lines {code : Uint16} (plain : ¬ Controls code) (printed : Printed) :
    (printed.putc code).current =
        (if Wraps (join code printed.machine) printed.machine.curx then [] else printed.current) ++
          strokes code printed.machine ∧
      (printed.putc code).earlier =
        (if Wraps (join code printed.machine) printed.machine.curx then
          printed.earlier ++ [printed.current] else printed.earlier) ∧
      (printed.putc code).machine.curx = room (join code printed.machine) printed.machine.curx +
        BitVec.ofNat 32 ((drawnCode printed.machine.savedByte1 code).elim 0 width) := by
  let fresh : Machine Tracing := { traced printed.machine with savedByte1 := 0 }
  have stays (c : Uint16) := makeRoom_leaves c fresh rfl
  have curx (c : Uint16) : (makeRoom c fresh).curx = room c printed.machine.curx :=
    makeRoom_curx c fresh
  have blank (c : Uint16) : (makeRoom c fresh).tvram.bitmaps = [] := makeRoom_bitmaps c fresh
  have moves : (printed.putc code).machine.curx = (bPutc code (traced printed.machine)).curx := by
    simp only [Printed.putc, Printed.note]
    split <;> rfl
  rw [moves, Printed.putc]
  cases drawn : drawnCode printed.machine.savedByte1 code with
  | none =>
    have waits : bPutc code (traced printed.machine) =
        { makeRoom (join code printed.machine) fresh with
          savedByte1 := (join code printed.machine).setWidth 8 } := by
      rcases bPutc_waits (m := traced printed.machine) drawn with ⟨controls, _⟩ | ⟨_, waits⟩
      · exact absurd controls plain
      · exact waits
    obtain ⟨current, earlier⟩ := note_lines (bPutc code (traced printed.machine))
      (by rw [waits]; exact stays (join code printed.machine))
    refine ⟨?_, earlier, ?_⟩
    · rw [current, waits, blank, strokes, drawn]
      rfl
    · rw [waits]
      simp [curx]
  | some c =>
    have draws := bPutc_draws (m := traced printed.machine) drawn
    obtain ⟨_, whole, _⟩ := drawnCode_eq drawn
    have joined : join code printed.machine = c := whole
    obtain ⟨bitmaps, cury, scrolled⟩ := draw_bitmaps c (makeRoom c fresh)
    have kept := stays c
    rw [← cury, ← scrolled] at kept
    obtain ⟨current, earlier⟩ := note_lines (bPutc code (traced printed.machine))
      (by rw [draws]; exact kept)
    have moved : (bPutc code (traced printed.machine)).curx =
        room c printed.machine.curx + BitVec.ofNat 32 (width c) := by
      rw [draws, draw_curx, ← curx]
    refine ⟨?_, joined ▸ earlier, joined ▸ moved⟩
    rw [current, moved, joined, strokes, drawn, draws, bitmaps, blank, curx]
    simp only [List.nil_append, List.map_cons, List.map_nil]
    rw [glyph_columns_console _ printed.machine.tvram.connectedConsole]

/-- The cursor stays within the line and its wrap position. -/
theorem putc_bounded {code : Uint16} (plain : ¬ Controls code) {printed : Printed}
    (bounded : printed.machine.curx.toNat ≤ 96) : (printed.putc code).machine.curx.toNat ≤ 96 := by
  rw [(putc_lines plain printed).2.2]
  have fits := room_fits (join code printed.machine) bounded
  cases drawn : drawnCode printed.machine.savedByte1 code with
  | none =>
    simp only [Option.elim_none, BitVec.add_zero]
    omega
  | some c =>
    have whole : join code printed.machine = c := (drawnCode_eq drawn).2.1
    rw [whole] at fits ⊢
    rw [Option.elim_some, BitVec.toNat_add, BitVec.toNat_ofNat]
    omega

/-- A code whose character is as wide as its bitmap keeps the lines tidy. -/
theorem putc_tidy {code : Uint16} (plain : ¬ Controls code) {printed : Printed}
    (agrees : ∀ c, drawnCode printed.machine.savedByte1 code = some c → Matches c)
    (tidy : Tidy printed.machine.curx.toNat printed.current printed.earlier) :
    Tidy (printed.putc code).machine.curx.toNat (printed.putc code).current
      (printed.putc code).earlier := by
  obtain ⟨current, earlier, curx⟩ := putc_lines plain printed
  have ready := tidy.room (join code printed.machine)
  have fits := room_fits (join code printed.machine) tidy.bounded
  rw [curx, current, earlier, strokes]
  cases drawn : drawnCode printed.machine.savedByte1 code with
  | none => simpa using ready
  | some c =>
    have whole : join code printed.machine = c := (drawnCode_eq drawn).2.1
    rw [whole] at fits ready ⊢
    have start : (room c printed.machine.curx).toInt = (room c printed.machine.curx).toNat :=
      BitVec.toInt_eq_toNat_of_lt (by omega)
    have columns := (glyph_width printed.machine.tvram.connectedConsole c).mpr (agrees c drawn)
    have moved : (room c printed.machine.curx + BitVec.ofNat 32 (width c)).toNat =
        (room c printed.machine.curx).toNat + width c := by
      rw [BitVec.toNat_add, BitVec.toNat_ofNat]
      omega
    simp only [Option.elim_some, start, columns]
    exact ready.draw moved fits

/-- A code that was drawn and moved the cursor past its bitmap is as wide as that. -/
theorem putc_agrees {code c : Uint16} {printed : Printed}
    (bounded : printed.machine.curx.toNat ≤ 96)
    (drawn : drawnCode printed.machine.savedByte1 code = some c)
    (advance : ∀ stroke ∈ (printed.putc code).current,
      (stroke.after.toNat : Int) = stroke.start + stroke.columns) : Matches c := by
  obtain ⟨plain, whole, _⟩ := drawnCode_eq drawn
  have fits := room_fits c bounded
  rw [(putc_lines plain printed).1, strokes, drawn] at advance
  have moved := advance _ (List.mem_append_right _ List.mem_cons_self)
  have start : (room c printed.machine.curx).toInt = (room c printed.machine.curx).toNat :=
    BitVec.toInt_eq_toNat_of_lt (by omega)
  simp only [start, BitVec.toNat_add, BitVec.toNat_ofNat] at moved
  refine (glyph_width printed.machine.tvram.connectedConsole c).mp ?_
  omega

/-- More codes are printed after the first ones. -/
theorem run_append (codes more : List Uint16) (printed : Printed) :
    printed.run (codes ++ more) = (printed.run codes).run more :=
  List.foldl_append

/-- In every run without control codes the cursor stays within the line.

Proof: by induction on the run. -/
theorem run_bounded {codes : List Uint16} (plain : ∀ code ∈ codes, ¬ Controls code)
    {printed : Printed} (bounded : printed.machine.curx.toNat ≤ 96) :
    (printed.run codes).machine.curx.toNat ≤ 96 := by
  induction codes generalizing printed with
  | nil => exact bounded
  | cons code rest inductionHypothesis =>
    exact inductionHypothesis (fun later member => plain later (List.mem_cons_of_mem _ member))
      (putc_bounded (plain code List.mem_cons_self) bounded)

/-- For every machine with the cursor on its line and all codes but control codes: in all states
of the run, every character drawn has moved the cursor past what it overwrote and no line has a
gap, if and only if every code drawn is of one byte or that of a kanji.

Proof: by induction on the run; the invariant is `Tidy`. Conversely the first code that is drawn
too narrow is the last one of some state. -/
theorem runs_exact_iff (m : Machine TextVideoMemory) (bounded : m.curx.toNat ≤ 96)
    (codes : List Uint16) (plain : ∀ code ∈ codes, ¬ Controls code) :
    (∀ done, done <+: codes → Exact (Printed.run done ⟨m, [], []⟩)) ↔
      ∀ c ∈ drawnCodes m.savedByte1 codes, Matches c := by
  have saved (done : List Uint16) : (Printed.run done ⟨m, [], []⟩).machine.savedByte1 =
      done.foldl savedAfter m.savedByte1 := by
    rw [run_machine, prints_saved]
  constructor
  · intro exact c member
    obtain ⟨done, code, first, drawn⟩ := mem_drawnCodes.mp member
    have within : (Printed.run done ⟨m, [], []⟩).machine.curx.toNat ≤ 96 :=
      run_bounded (fun earlier known => plain earlier
        (first.subset (List.mem_append_left _ known))) bounded
    have after := exact (done ++ [code]) first
    rw [run_append] at after
    exact putc_agrees within (by rw [saved]; exact drawn)
      (after.advance _ List.mem_cons_self)
  · intro agrees done
    suffices tidy : done <+: codes → Tidy (Printed.run done ⟨m, [], []⟩).machine.curx.toNat
        (Printed.run done ⟨m, [], []⟩).current (Printed.run done ⟨m, [], []⟩).earlier from
      fun first => (tidy first).exact
    induction done using List.reverseRecOn with
    | nil => exact fun _ => ⟨bounded, by simp [Printed.run], by simp [Printed.run], by simp [Printed.run]⟩
    | append_singleton done code inductionHypothesis =>
      intro first
      have before := inductionHypothesis ((List.prefix_append done [code]).trans first)
      rw [run_append]
      refine putc_tidy (plain code (first.subset (by simp))) (fun c drawn => ?_) before
      rw [saved] at drawn
      exact agrees c (mem_drawnCodes.mpr ⟨done, code, first, drawn⟩)

/-- A kanji in Shift-JIS, then one in JIS at the end of the line. -/
theorem runs_exact_iff_kanji :
    (∀ done, done <+: [0x889f, 0x3021] →
        Exact (Printed.run done ⟨⟨93, 0, 0, construct .sample⟩, [], []⟩)) ↔
      ∀ c ∈ drawnCodes 0 [0x889f, 0x3021], Matches c :=
  runs_exact_iff ⟨93, 0, 0, construct .sample⟩ (by decide) [0x889f, 0x3021] (by simp [Controls])

/-- The byte `0x80` counts as the first of two for the cursor, but not for the bitmap: one
column is drawn and the cursor moves by two. -/
theorem code_8041_leaves_gap :
    (Printed.run [0x8041] ⟨⟨0, 0, 0, construct .sample⟩, [], []⟩).current = [⟨0, 1, 2⟩] ∧
      ¬ ((∀ code ∈ [(0x8041 : Uint16)], ¬ Controls code) → ∀ done, done <+: [0x8041] →
        Exact (Printed.run done ⟨⟨0, 0, 0, construct .sample⟩, [], []⟩)) := by
  have plain : ¬ Controls 0x8041 := by decide
  have drawn : (Printed.run [0x8041] ⟨⟨0, 0, 0, construct .sample⟩, [], []⟩).current =
      [⟨0, 1, 2⟩] := by
    change (Printed.putc 0x8041 ⟨⟨0, 0, 0, construct .sample⟩, [], []⟩).current = _
    rw [(putc_lines plain _).1]
    decide
  refine ⟨drawn, fun exact => ?_⟩
  have after := (exact (by simpa using plain) _ (List.prefix_refl _)).advance _ List.mem_cons_self
    ⟨0, 1, 2⟩ (by rw [drawn]; exact List.mem_cons_self)
  exact absurd after (by decide)

end ConsoleAdvance

end Vx68k
