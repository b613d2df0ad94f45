import Vx68k.ConsoleCursor

/-!
# Console output and its bitmaps

`b_putc` and `draw_char` each tell narrow characters from wide ones, by different means: the
first by the size of the code, the second by the JIS row it decodes. The cursor keeps up with
the bitmaps as long as both agree. The decoded cell is not checked at all, and the console
uses it as an index of its table of kanji.

Both depend only on the codes that are drawn, which the lead bytes among the codes decide,
not on where the cursor is.
-/

namespace Vx68k

open ByteStores Buffers TextVideoMemory

namespace ConsoleGlyphs

open Machine

/-- A code with the byte saved before it. -/
def joinSaved (saved : Byte) (code : Uint16) : Uint16 :=
  if saved ≠ 0 ∧ code ≤ 0xff then code ||| saved.setWidth 16 <<< 8 else code

/-- The byte that is saved after a code. -/
def savedAfter (saved : Byte) (code : Uint16) : Byte :=
  if Controls code then 0
  else if Leads (joinSaved saved code) then (joinSaved saved code).setWidth 8
  else 0

/-- The code that is drawn for a code, if any. -/
def drawnCode (saved : Byte) (code : Uint16) : Option Uint16 :=
  if Controls code ∨ Leads (joinSaved saved code) then none else some (joinSaved saved code)

/-- The codes that are drawn for some codes, after a saved byte. -/
def drawnCodes : Byte → List Uint16 → List Uint16
  | _, [] => []
  | saved, code :: rest => (drawnCode saved code).toList ++ drawnCodes (savedAfter saved code) rest

/-- Every drawn code is completed by one of the codes, with what those before it saved.

Proof: by induction on the codes, the saved byte general. -/
theorem mem_drawnCodes {saved : Byte} {codes : List Uint16} {c : Uint16} :
    c ∈ drawnCodes saved codes ↔ ∃ done code, done ++ [code] <+: codes ∧
      drawnCode (done.foldl savedAfter saved) code = some c := by
  induction codes generalizing saved with
  | nil => simp [drawnCodes]
  | cons first rest inductionHypothesis =>
    rw [drawnCodes, List.mem_append, Option.mem_toList, inductionHypothesis]
    constructor
    · rintro (here | ⟨done, code, earlier, drawn⟩)
      · exact ⟨[], first, by simp, here⟩
      · exact ⟨first :: done, code, by simpa using earlier, drawn⟩
    · rintro ⟨done, code, earlier, drawn⟩
      cases done with
      | nil =>
        obtain rfl : code = first := by simpa using earlier
        exact Or.inl drawn
      | cons head tail =>
        rw [List.cons_append, List.cons_prefix_cons] at earlier
        obtain ⟨rfl, later⟩ := earlier
        exact Or.inr ⟨tail, code, later, drawn⟩

/-- The kanji that `draw_char` asks the console for, if any. -/
def kanjiRequest (c : Uint32) : Option Uint32 :=
  let ch1 := (codeBytes c).1
  let ch2 := (codeBytes c).2
  if 0x21 ≤ ch1 ∧ ch1 ≤ 0x7e then some (BitVec.ofInt 32 ch1 <<< 8 ||| BitVec.ofInt 32 ch2) else none

/-- A character is drawn with the bitmap that is asked for. -/
theorem glyph_kanjiRequest (console : Console) (c : Uint32) :
    glyph console c = match kanjiRequest c with
      | some request => ⟨2, fun row column => console.k16Image request (2 * row + column)⟩
      | none => ⟨1, fun row _ => console.b16Image (BitVec.ofInt 32 (codeBytes c).2) row⟩ := by
  simp only [glyph, kanjiRequest]
  split
  · rfl
  · rfl

/-- The row and the cell as the console computes them, within its table of 94 rows of 94
cells. -/
def InTable (request : Uint32) : Prop :=
  let h := request >>> 8
  let l := request &&& 0xff
  (0x21 ≤ h ∧ h ≤ 0x7e) ∧ 0x21 ≤ l ∧ l ≤ 0x7e

instance (request : Uint32) : Decidable (InTable request) := inferInstanceAs (Decidable (_ ∧ _))

/-- A lead byte of Shift-JIS. -/
def LeadsKanji (lead : Nat) : Prop := 0x81 ≤ lead ∧ lead ≤ 0x9f ∨ 0xe0 ≤ lead ∧ lead ≤ 0xef

instance (lead : Nat) : Decidable (LeadsKanji lead) := inferInstanceAs (Decidable (_ ∨ _))

/-- The row of a JIS code. -/
def RowOfKanji (row : Nat) : Prop := 0x21 ≤ row ∧ row ≤ 0x7e

instance (row : Nat) : Decidable (RowOfKanji row) := inferInstanceAs (Decidable (_ ∧ _))

/-- The second byte of a kanji is that of a cell. -/
def Valid (code : Uint16) : Prop :=
  (RowOfKanji (code.toNat / 0x100) → 0x21 ≤ code.toNat % 0x100 ∧ code.toNat % 0x100 ≤ 0x7e) ∧
    (LeadsKanji (code.toNat / 0x100) → 0x40 ≤ code.toNat % 0x100 ∧ code.toNat % 0x100 ≤ 0xfc)

instance (code : Uint16) : Decidable (Valid code) := inferInstanceAs (Decidable ((_ → _) ∧ (_ → _)))

/-- A code of two bytes is that of a kanji. -/
def Matches (code : Uint16) : Prop :=
  code.toNat < 0x100 ∨ RowOfKanji (code.toNat / 0x100) ∨ LeadsKanji (code.toNat / 0x100)

instance (code : Uint16) : Decidable (Matches code) := inferInstanceAs (Decidable (_ ∨ _))

/-- The bytes that a code decodes to. The row of a kanji in Shift-JIS is always one of the
table; its cell is if the second byte is valid. -/
theorem codeBytes_ranges (code : Uint16) :
    (LeadsKanji (code.toNat / 0x100) →
      (0x21 ≤ (codeBytes (code.setWidth 32)).1 ∧ (codeBytes (code.setWidth 32)).1 ≤ 0x7e) ∧
      (0x21 ≤ (codeBytes (code.setWidth 32)).2 ∧ (codeBytes (code.setWidth 32)).2 ≤ 0x7e ↔
        0x40 ≤ code.toNat % 0x100 ∧ code.toNat % 0x100 ≤ 0xfc)) ∧
    (¬ LeadsKanji (code.toNat / 0x100) → codeBytes (code.setWidth 32) =
      (((code.toNat / 0x100 : Nat) : Int), ((code.toNat % 0x100 : Nat) : Int))) ∧
    -0x100 ≤ (codeBytes (code.setWidth 32)).2 ∧ (codeBytes (code.setWidth 32)).2 < 0x100 := by
  have number : (code.setWidth 32).toNat = code.toNat := BitVec.toNat_setWidth_of_le (by decide)
  have bound := code.isLt
  have high : ((code.toNat : Nat) : Int) / 256 % 256 = (code.toNat / 0x100 : Nat) := by omega
  have low : ((code.toNat : Nat) : Int) % 256 = (code.toNat % 0x100 : Nat) := by omega
  unfold codeBytes LeadsKanji
  rw [number, high, low]
  generalize code.toNat / 0x100 = lead
  have small : code.toNat % 0x100 < 0x100 := Nat.mod_lt _ (by decide)
  generalize code.toNat % 0x100 = trail at small
  dsimp only
  refine ⟨fun leads => ?_, fun direct => ?_, ?_⟩
  · rw [if_pos (by omega)]
    split <;> split <;> split <;> dsimp only <;> omega
  · rw [if_neg (by omega)]
  · split
    · split <;> split <;> dsimp only <;> omega
    · dsimp only
      omega

/-- The high part and the low byte of a kanji. -/
theorem inTable_iff (request : Uint32) : InTable request ↔
    (0x21 ≤ request.toNat / 0x100 ∧ request.toNat / 0x100 ≤ 0x7e) ∧
      0x21 ≤ request.toNat % 0x100 ∧ request.toNat % 0x100 ≤ 0x7e := by
  have row : (request >>> 8).toNat = request.toNat / 0x100 := by
    rw [BitVec.toNat_ushiftRight, Nat.shiftRight_eq_div_pow]
  have cell : (request &&& 0xff).toNat = request.toNat % 0x100 := and_low_toNat _ _ 8 rfl
  simp only [InTable, BitVec.le_def, row, cell]
  rfl

/-- A kanji of a row of the table is in it if its cell is, also where the cell came out
negative: that sets all bits of the row. -/
theorem request_inTable {row cell : Int} (rows : 0x21 ≤ row ∧ row ≤ 0x7e)
    (cells : -0x100 ≤ cell ∧ cell < 0x100) :
    InTable (BitVec.ofInt 32 row <<< 8 ||| BitVec.ofInt 32 cell) ↔ 0x21 ≤ cell ∧ cell ≤ 0x7e := by
  have rowNumber : (BitVec.ofInt 32 row).toNat = row.toNat := by
    rw [BitVec.toNat_ofInt]
    omega
  have shifted : (BitVec.ofInt 32 row <<< 8).toNat = row.toNat <<< 8 := by
    rw [BitVec.toNat_shiftLeft, rowNumber, Nat.shiftLeft_eq]
    omega
  rw [inTable_iff, BitVec.toNat_or, shifted]
  by_cases negative : cell < 0
  · have large : 0xffffff00 ≤ (BitVec.ofInt 32 cell).toNat := by
      rw [BitVec.toNat_ofInt]
      omega
    have larger : (BitVec.ofInt 32 cell).toNat ≤ row.toNat <<< 8 ||| (BitVec.ofInt 32 cell).toNat :=
      Nat.right_le_or
    omega
  · have cellNumber : (BitVec.ofInt 32 cell).toNat = cell.toNat := by
      rw [BitVec.toNat_ofInt]
      omega
    have sum : row.toNat <<< 8 ||| cell.toNat = row.toNat * 0x100 + cell.toNat := by
      rw [← Nat.shiftLeft_add_eq_or_of_lt (by omega), Nat.shiftLeft_eq]
    rw [cellNumber, sum]
    omega

/-- For a code of 16 bits, the kanji that is asked for is in the table if the second byte is
valid. -/
theorem kanjiRequest_inTable (code : Uint16) :
    (∀ request ∈ kanjiRequest (code.setWidth 32), InTable request) ↔ Valid code := by
  obtain ⟨shifted, direct, low, high⟩ := codeBytes_ranges code
  have kanji : (0x21 ≤ (codeBytes (code.setWidth 32)).1 ∧ (codeBytes (code.setWidth 32)).1 ≤ 0x7e →
      (0x21 ≤ (codeBytes (code.setWidth 32)).2 ∧ (codeBytes (code.setWidth 32)).2 ≤ 0x7e)) ↔
      Valid code := by
    unfold Valid
    by_cases leads : LeadsKanji (code.toNat / 0x100)
    · obtain ⟨row, cell⟩ := shifted leads
      have other : ¬ RowOfKanji (code.toNat / 0x100) := by
        unfold LeadsKanji RowOfKanji at *
        omega
      simp only [row, cell, leads, other, and_self, true_implies, false_implies, true_and]
    · rw [direct leads]
      simp only [leads, false_implies, and_true, RowOfKanji]
      omega
  rw [← kanji, kanjiRequest]
  generalize codeBytes (code.setWidth 32) = bytes at low high
  by_cases asks : 0x21 ≤ bytes.1 ∧ bytes.1 ≤ 0x7e
  · rw [if_pos asks]
    simp only [Option.mem_some_iff, forall_eq', asks, and_self, true_implies]
    exact request_inTable asks ⟨low, high⟩
  · simp [asks]

section Output

variable {V : Type} [Video V]

/-- What is saved depends on the codes alone. -/
theorem bPutc_saved (code : Uint16) (m : Machine V) :
    (bPutc code m).savedByte1 = savedAfter m.savedByte1 code := by
  rw [bPutc, savedAfter]
  split
  · exact controlCode_savedByte1 code m
  · rw [print]
    change _ = if Leads (join code m) then _ else _
    split
    · rfl
    · rw [draw_savedByte1, makeRoom_savedByte1]

/-- A drawn code is no control code and no lead byte. -/
theorem drawnCode_eq {saved : Byte} {code c : Uint16} (drawn : drawnCode saved code = some c) :
    ¬ Controls code ∧ joinSaved saved code = c ∧ ¬ Leads c := by
  rw [drawnCode] at drawn
  split at drawn
  · cases drawn
  · rename_i completes
    rw [not_or] at completes
    obtain rfl := Option.some.inj drawn
    exact ⟨completes.1, rfl, completes.2⟩

/-- A code that completes a character draws it. -/
theorem bPutc_draws {code c : Uint16} {m : Machine V} (drawn : drawnCode m.savedByte1 code = some c) :
    bPutc code m = draw c (makeRoom c { m with savedByte1 := 0 }) := by
  obtain ⟨plain, joined, completes⟩ := drawnCode_eq drawn
  have whole : join code m = c := joined
  rw [bPutc, if_neg plain, whole]
  exact if_neg completes

/-- Any other code moves the cursor or waits for the next one. -/
theorem bPutc_waits {code : Uint16} {m : Machine V} (waits : drawnCode m.savedByte1 code = none) :
    Controls code ∧ bPutc code m = controlCode code m ∨ ¬ Controls code ∧ bPutc code m =
      { makeRoom (join code m) { m with savedByte1 := 0 } with
        savedByte1 := (join code m).setWidth 8 } := by
  by_cases controls : Controls code
  · exact Or.inl ⟨controls, if_pos controls⟩
  · have leads : Leads (join code m) := by
      by_contra completes
      have drawn : drawnCode m.savedByte1 code = some (join code m) :=
        if_neg (not_or.mpr ⟨controls, completes⟩)
      rw [drawn] at waits
      cases waits
    refine Or.inr ⟨controls, ?_⟩
    rw [bPutc, if_neg controls]
    exact if_pos leads

/-- The saved byte of the machine is the one that the codes leave. -/
theorem prints_saved (codes : List Uint16) (m : Machine V) :
    (prints codes m).savedByte1 = codes.foldl savedAfter m.savedByte1 :=
  (List.foldl_hom Machine.savedByte1 fun m code => (bPutc_saved code m).symm).symm

end Output

section Views

variable {V W : Type} [Video V] [Video W]

/-- A view that scrolls and draws as the memory does. -/
structure Follows (view : V → W) : Prop where
  scroll : ∀ tvram, view (Video.scroll tvram) = Video.scroll (view tvram)
  drawChar : ∀ x y c tvram, view (Video.drawChar x y c tvram) = Video.drawChar x y c (view tvram)

/-- The machine with a view of its text video memory. -/
def seenAs (view : V → W) (m : Machine V) : Machine W :=
  ⟨m.curx, m.cury, m.savedByte1, view m.tvram⟩

variable {view : V → W}

/-- A line feed looks the same in the view. -/
theorem lineFeed_seenAs (follows : Follows view) (m : Machine V) :
    lineFeed (seenAs view m) = seenAs view (lineFeed m) := by
  by_cases last : m.cury + 1 = 31
  · simp only [lineFeed, seenAs, last, if_true, follows.scroll]
  · simp only [lineFeed, seenAs, last, if_false]

/-- So does a control code. -/
theorem controlCode_seenAs (follows : Follows view) (code : Uint16) (m : Machine V) :
    controlCode code (seenAs view m) = seenAs view (controlCode code m) := by
  have feeds := lineFeed_seenAs follows { m with savedByte1 := 0 }
  simp only [controlCode]
  split
  · rfl
  · split
    · exact feeds
    · split <;> rfl

/-- So does making room. -/
theorem makeRoom_seenAs (follows : Follows view) (code : Uint16) (m : Machine V) :
    makeRoom code (seenAs view m) = seenAs view (makeRoom code m) := by
  rw [makeRoom_eq, makeRoom_eq]
  change (if Wraps code m.curx then lineFeed (seenAs view { m with curx := 0 }) else _) = _
  rw [lineFeed_seenAs follows]
  split <;> rfl

/-- So does drawing. -/
theorem draw_seenAs (follows : Follows view) (code : Uint16) (m : Machine V) :
    draw code (seenAs view m) = seenAs view (draw code m) := by
  simp only [draw]
  split <;> simp only [seenAs, follows.drawChar]

/-- So does the output of a character. -/
theorem bPutc_seenAs (follows : Follows view) (code : Uint16) (m : Machine V) :
    bPutc code (seenAs view m) = seenAs view (bPutc code m) := by
  have rooms (code : Uint16) := makeRoom_seenAs follows code { m with savedByte1 := 0 }
  by_cases controls : Controls code
  · rw [bPutc, bPutc, if_pos controls, if_pos controls, controlCode_seenAs follows]
  · rw [bPutc, bPutc, if_neg controls, if_neg controls]
    change print (join code m) _ = _
    simp only [print]
    change (if _ then { makeRoom _ (seenAs view { m with savedByte1 := 0 }) with savedByte1 := _ }
      else draw _ (makeRoom _ (seenAs view { m with savedByte1 := 0 }))) = _
    rw [rooms]
    split
    · rfl
    · exact draw_seenAs follows _ _

/-- Output does the same to a machine and to what is seen of it. -/
theorem prints_seenAs (follows : Follows view) (codes : List Uint16) (m : Machine V) :
    prints codes (seenAs view m) = seenAs view (prints codes m) :=
  List.foldl_hom (seenAs view) fun m code => bPutc_seenAs follows code m

end Views

/-- A text video memory with a record of the kanji that were asked for. -/
structure Asking where
  tvram : TextVideoMemory
  asked : List Uint32

/-- The kanji that the console is asked for are noted. -/
instance : Video Asking where
  scroll asking := { asking with tvram := asking.tvram.scroll }
  drawChar x y c asking :=
    ⟨asking.tvram.drawChar x y c, asking.asked ++ (kanjiRequest c).toList⟩

/-- The record changes nothing of the output. -/
theorem asking_follows : Follows Asking.tvram := ⟨fun _ => rfl, fun _ _ _ _ => rfl⟩

/-- A machine with nothing asked for yet. -/
def unasked (m : Machine TextVideoMemory) : Machine Asking := seenAs (⟨·, []⟩) m

/-- The text video memory does not see what is noted. -/
theorem prints_unasked (codes : List Uint16) (m : Machine TextVideoMemory) :
    seenAs Asking.tvram (prints codes (unasked m)) = prints codes m :=
  (prints_seenAs asking_follows codes (unasked m)).symm

section Requests

variable {m : Machine Asking}

/-- A line feed asks for nothing. -/
@[simp]
theorem lineFeed_asked (m : Machine Asking) : (lineFeed m).tvram.asked = m.tvram.asked := by
  simp only [lineFeed]
  split <;> rfl

/-- Nor does a control code. -/
@[simp]
theorem controlCode_asked (code : Uint16) (m : Machine Asking) :
    (controlCode code m).tvram.asked = m.tvram.asked := by
  simp only [controlCode]
  split
  · rfl
  · split
    · exact lineFeed_asked _
    · split <;> rfl

/-- Nor does making room. -/
@[simp]
theorem makeRoom_asked (code : Uint16) (m : Machine Asking) :
    (makeRoom code m).tvram.asked = m.tvram.asked := by
  rw [makeRoom_eq]
  split
  · exact lineFeed_asked _
  · rfl

/-- Drawing asks for the kanji of the code, if it is one. -/
@[simp]
theorem draw_asked (code : Uint16) (m : Machine Asking) :
    (draw code m).tvram.asked = m.tvram.asked ++ (kanjiRequest (code.setWidth 32)).toList := by
  simp only [draw]
  split <;> rfl

/-- A code asks for the kanji of the character it completes. -/
theorem bPutc_asked (code : Uint16) (m : Machine Asking) : (bPutc code m).tvram.asked =
    m.tvram.asked ++
      (drawnCode m.savedByte1 code).toList.flatMap fun c => (kanjiRequest (c.setWidth 32)).toList := by
  cases drawn : drawnCode m.savedByte1 code with
  | none =>
    rcases bPutc_waits drawn with ⟨_, moves⟩ | ⟨_, waits⟩
    · rw [moves]
      simp
    · rw [waits]
      simp
  | some c =>
    rw [bPutc_draws drawn]
    simp

/-- The kanji asked for are those of the characters drawn.

Proof: by induction on the codes; each leaves the saved byte that the rest is read with. -/
theorem prints_asked (codes : List Uint16) (m : Machine Asking) : (prints codes m).tvram.asked =
    m.tvram.asked ++
      (drawnCodes m.savedByte1 codes).flatMap fun c => (kanjiRequest (c.setWidth 32)).toList := by
  induction codes generalizing m with
  | nil => simp [prints, drawnCodes]
  | cons code rest inductionHypothesis =>
    have rest := inductionHypothesis (bPutc code m)
    rw [bPutc_saved, bPutc_asked] at rest
    rw [drawnCodes, List.flatMap_append, ← List.append_assoc]
    exact rest

/-- For every machine and all codes: every kanji that is asked for is in the console's table
if and only if the second byte of every kanji drawn is valid. -/
theorem requests_inTable_iff (m : Machine TextVideoMemory) (codes : List Uint16) :
    (∀ request ∈ (prints codes (unasked m)).tvram.asked, InTable request) ↔
      ∀ c ∈ drawnCodes m.savedByte1 codes, Valid c := by
  have start : (unasked m).tvram.asked = [] := rfl
  have saved : (unasked m).savedByte1 = m.savedByte1 := rfl
  rw [prints_asked, start, saved, List.nil_append]
  simp only [List.mem_flatMap, Option.mem_toList, forall_exists_index, and_imp,
    ← kanjiRequest_inTable]
  exact ⟨fun all c drawn request asked => all request c drawn asked,
    fun all request c drawn asked => all c drawn request asked⟩

/-- The first byte of a kanji and a space ask for a kanji in front of its row. -/
theorem space_asks_outside :
    (prints [0x81, 0x20] (unasked ⟨0, 0, 0, construct .sample⟩)).tvram.asked = [0x2101] ∧
      ¬ ∀ request ∈ (prints [0x81, 0x20] (unasked ⟨0, 0, 0, construct .sample⟩)).tvram.asked,
        InTable request := by
  have asked : (prints [0x81, 0x20] (unasked ⟨0, 0, 0, construct .sample⟩)).tvram.asked =
      [0x2101] := by
    rw [prints_asked]
    decide
  rw [asked]
  exact ⟨rfl, fun all => absurd (all _ (List.mem_singleton_self _)) (by decide)⟩

end Requests

end ConsoleGlyphs

end Vx68k
