import Vx68k.ConsoleGlyphs
import Vx68k.FontCalls

/-!
# Addresses of glyphs

`_FNTADR` answers where the glyph of a character is, `_FNTGET` copies it from there. Both
decode the character code, but the first takes it from a word register whose accesses are
signed, and does not mask the high byte: the codes from 0x8000 on, those of all kanji in
Shift-JIS, are narrow characters to it.
-/

namespace Vx68k

open Programs ByteStores

/-- The word accesses of the processor library to a register, which are signed. -/
structure RegisterWords where
  get : Uint32 → Int
  put : Uint32 → Uint32 → Uint32
  get_signed : ∀ register, get register = (register.setWidth 16).toInt

/-- Accesses that keep the upper half of the register. -/
def RegisterWords.lower : RegisterWords where
  get register := (register.setWidth 16).toInt
  put register value := register &&& ~~~0xffff ||| value &&& 0xffff
  get_signed _ := rfl

/-- The registers that `_FNTADR` works on. -/
structure FontRegisters where
  d0 : Uint32
  d1 : Uint32
  d2 : Uint32

namespace FontAddresses

open FontCalls ConsoleGlyphs

/-- The width is that of the type of the code, at least that of an `unsigned int`. Size 6 also
prints a message. -/
def iocsFntadr (words : RegisterWords) (width : Nat) (regs : FontRegisters) : FontRegisters :=
  let ch : BitVec width := BitVec.ofInt width (words.get regs.d1)
  let size := regs.d2
  let (ch1, ch2) := jisBytes ((ch >>> 8).setWidth 32) ((ch &&& 0xff).setWidth 32)
  if ch1 ≥ 0x21 ∧ ch1 ≤ 0x7e then
    if size = 6 then
      ⟨0xf00000 + FontRom.jisx0208_16Offset ch1 ch2, words.put regs.d1 (2 - 1),
        words.put regs.d2 (12 - 1)⟩
    else if size = 12 then
      ⟨0xf00000 + FontRom.jisx0208_24Offset ch1 ch2, words.put regs.d1 (3 - 1),
        words.put regs.d2 (24 - 1)⟩
    else
      ⟨0xf00000 + FontRom.jisx0208_16Offset ch1 ch2, words.put regs.d1 (2 - 1),
        words.put regs.d2 (16 - 1)⟩
  else
    if size = 6 then
      ⟨0xf00000 + FontRom.jisx0201_16Offset ch2, words.put regs.d1 (1 - 1),
        words.put regs.d2 (12 - 1)⟩
    else if size = 12 then
      ⟨0xf00000 + FontRom.jisx0201_24Offset ch2, words.put regs.d1 (2 - 1),
        words.put regs.d2 (24 - 1)⟩
    else
      ⟨0xf00000 + FontRom.jisx0201_16Offset ch2, words.put regs.d1 (1 - 1),
        words.put regs.d2 (16 - 1)⟩

/-- A bitmap that `_FNTGET` copies: its size, where it is read from, and its bytes. -/
structure Fetch where
  width : Uint32
  height : Uint32
  source : Uint32
  count : Nat

/-- The bitmap for a size and a code, if any. -/
def fetch (sizeCh : Uint32) : Option Fetch :=
  let (ch1, ch2) := jisBytes (sizeCh >>> 8 &&& 0xff) (sizeCh &&& 0xff)
  if ch1 ≥ 0x21 ∧ ch1 ≤ 0x7e then
    if sizeCh >>> 16 = 6 then none
    else if sizeCh >>> 16 = 12 then
      some ⟨24, 24, 0xf00000 + FontRom.jisx0208_24Offset ch1 ch2, 24 * 3⟩
    else some ⟨16, 16, 0xf00000 + FontRom.jisx0208_16Offset ch1 ch2, 16 * 2⟩
  else
    if sizeCh >>> 16 = 6 then none
    else if sizeCh >>> 16 = 12 then
      some ⟨12, 24, 0xf00000 + FontRom.jisx0201_24Offset ch2, 24 * 2⟩
    else some ⟨8, 16, 0xf00000 + FontRom.jisx0201_16Offset ch2, 16 * 1⟩

/-- The call copies that bitmap. -/
theorem iocsFntget_fetch {M : Type} [Bus M] [WordBus M] [FontBus M] :
    (iocsFntget : Method M Unit) = (do
      let context ← .state
      match fetch context.d1 with
      | none => pure ()
      | some bitmap =>
        storeBitmap context.a1 bitmap.width bitmap.height bitmap.source bitmap.count) := by
  rw [iocsFntget]
  congr 1
  funext context
  simp only [fetch]
  split
  · split
    · rfl
    · split <;> rfl
  · split
    · rfl
    · split <;> rfl

/-- Where there is a bitmap, `_FNTGET` ends as storing it does. -/
theorem ends_fntget_fetch {M : Type} [Bus M] [WordBus M] [FontBus M] {context after : IocsContext M}
    {outcome : Except Thrown Unit} {bitmap : Fetch} (fetched : fetch context.d1 = some bitmap) :
    Ends iocsFntget context outcome after ↔
      Ends (storeBitmap context.a1 bitmap.width bitmap.height bitmap.source bitmap.count) context
        outcome after := by
  rw [iocsFntget_fetch, ends_after_state, fetched]

/-- The size and the code of a `_FNTGET` call like this one. -/
def sizeCode (regs : FontRegisters) : Uint32 := regs.d2 <<< 16 ||| regs.d1 &&& 0xffff

/-- Both calls designate the same bitmap, all of which is in the font ROM. -/
def Designates (words : RegisterWords) (width : Nat) (regs : FontRegisters) : Prop :=
  ∃ bitmap, fetch (sizeCode regs) = some bitmap ∧
    (iocsFntadr words width regs).d0 = bitmap.source ∧
      0xf00000 ≤ bitmap.source.toNat ∧ bitmap.source.toNat + bitmap.count ≤ 0xfc0000

/-- The codes for which they do: those below 0x8000 whose bitmap is in the ROM, those above it
that are no kanji, and one more, where the bitmaps of a kanji and of a narrow character start
at the same place. -/
def Agrees (size : Uint32) (c : Nat) : Prop :=
  c < 0x8000 ∧ (size = 8 → ¬ (c / 0x100 = 0x21 ∧ c % 0x100 < 0x21)) ∧
      (size = 12 → c / 0x100 < 0x30 ∨ 0x7e < c / 0x100 ∨ (c / 0x100 - 0x28) * 94 + c % 0x100 ≤ 7313) ∨
    0x8000 ≤ c ∧ (¬ LeadsKanji (c / 0x100) ∨ size = 8 ∧ c = 0xecfe)

instance (size : Uint32) (c : Nat) : Decidable (Agrees size c) :=
  inferInstanceAs (Decidable (_ ∧ _ ∧ _ ∨ _ ∧ (_ ∨ _)))

/-- The parts of the size and the code. -/
theorem sizeCode_parts {regs : FontRegisters} (sizes : regs.d2 = 8 ∨ regs.d2 = 12) :
    sizeCode regs >>> 16 = regs.d2 ∧
      (sizeCode regs).toNat % 0x10000 = regs.d1.toNat % 0x10000 := by
  have code : (regs.d1 &&& 0xffff).toNat = regs.d1.toNat % 0x10000 := and_low_toNat _ _ 16 rfl
  have shifted : (regs.d2 <<< 16).toNat = regs.d2.toNat <<< 16 := by
    rcases sizes with eight | twelve
    · rw [eight]
      rfl
    · rw [twelve]
      rfl
  have whole : (sizeCode regs).toNat = regs.d2.toNat * 0x10000 + regs.d1.toNat % 0x10000 := by
    rw [sizeCode, BitVec.toNat_or, shifted, code, ← Nat.shiftLeft_add_eq_or_of_lt (by omega),
      Nat.shiftLeft_eq]
  refine ⟨BitVec.eq_of_toNat_eq ?_, by omega⟩
  rw [BitVec.toNat_ushiftRight, Nat.shiftRight_eq_div_pow, whole]
  omega

/-- The code in a register. -/
def ch (words : RegisterWords) (width : Nat) (d1 : Uint32) : BitVec width :=
  BitVec.ofInt width (words.get d1)

/-- The bits of the code from the fifteenth on are the sign. -/
theorem ch_bit (words : RegisterWords) (width : Nat) (d1 : Uint32) (bit : Nat) :
    (ch words width d1).getLsbD bit =
      (decide (bit < width) && if bit < 16 then d1.getLsbD bit else d1.getLsbD 15) := by
  have extended : ch words width d1 = (d1.setWidth 16).signExtend width := by
    rw [ch, words.get_signed]
    rfl
  rw [extended, BitVec.getLsbD_signExtend, BitVec.msb_eq_getLsbD_last, BitVec.getLsbD_setWidth,
    BitVec.getLsbD_setWidth]
  by_cases low : bit < 16
  · simp [low]
  · simp [low]

/-- The mask of a byte. -/
theorem mask_bit (width bit : Nat) :
    (0xff : BitVec width).getLsbD bit = (decide (bit < width) && decide (bit < 8)) := by
  change (BitVec.ofNat width (2 ^ 8 - 1)).getLsbD bit = _
  rw [BitVec.getLsbD_ofNat, Nat.testBit_two_pow_sub_one]

/-- Its low byte is that of the register. -/
theorem ch_low (words : RegisterWords) {width : Nat} (wide : 32 ≤ width) (d1 : Uint32) :
    (ch words width d1 &&& 0xff).setWidth 32 = BitVec.ofNat 32 (d1.toNat % 0x100) := by
  rw [← (code_bytes d1).2]
  apply BitVec.eq_of_getLsbD_eq
  intro bit inside
  have within : bit < width := by omega
  rw [BitVec.getLsbD_setWidth, BitVec.getLsbD_and, BitVec.getLsbD_and, ch_bit, mask_bit, mask_bit]
  by_cases low : bit < 8
  · simp [low, inside, within, show bit < 16 by omega]
  · simp [low]

/-- Below 0x8000 its high byte is that of the register too. -/
theorem ch_high (words : RegisterWords) {width : Nat} (wide : 32 ≤ width) {d1 : Uint32}
    (positive : d1.toNat % 0x10000 < 0x8000) :
    (ch words width d1 >>> 8).setWidth 32 = BitVec.ofNat 32 (d1.toNat / 0x100 % 0x100) := by
  have sign : d1.getLsbD 15 = false := by
    rw [BitVec.getLsbD, Nat.testBit_eq_decide_div_mod_eq]
    exact decide_eq_false (by omega)
  rw [← (code_bytes d1).1]
  apply BitVec.eq_of_getLsbD_eq
  intro bit inside
  rw [BitVec.getLsbD_setWidth, BitVec.getLsbD_ushiftRight, BitVec.getLsbD_and,
    BitVec.getLsbD_ushiftRight, ch_bit, mask_bit]
  by_cases low : bit < 8
  · simp [low, inside, show 8 + bit < width by omega, show 8 + bit < 16 by omega]
  · rw [if_neg (show ¬ 8 + bit < 16 by omega), sign]
    simp [low]

/-- From 0x8000 on it is no byte: the sign is in it. -/
theorem ch_negative (words : RegisterWords) {width : Nat} (wide : 32 ≤ width) {d1 : Uint32}
    (negative : 0x8000 ≤ d1.toNat % 0x10000) :
    0x100 ≤ ((ch words width d1 >>> 8).setWidth 32).toNat := by
  have sign : d1.getLsbD 15 = true := by
    rw [BitVec.getLsbD, Nat.testBit_eq_decide_div_mod_eq]
    exact decide_eq_true (by omega)
  have bit : ((ch words width d1 >>> 8).setWidth 32).getLsbD 8 = true := by
    rw [BitVec.getLsbD_setWidth, BitVec.getLsbD_ushiftRight, ch_bit, sign]
    simp [show 16 < width by omega]
  exact Nat.ge_two_pow_of_testBit bit

/-- The address of a glyph of size 8 or 12, by the bytes of its code. -/
def glyphAddress (size : Uint32) (bytes : Uint32 × Uint32) : Uint32 :=
  if bytes.1 ≥ 0x21 ∧ bytes.1 ≤ 0x7e then
    0xf00000 + if size = 12 then FontRom.jisx0208_24Offset bytes.1 bytes.2
      else FontRom.jisx0208_16Offset bytes.1 bytes.2
  else
    0xf00000 + if size = 12 then FontRom.jisx0201_24Offset bytes.2
      else FontRom.jisx0201_16Offset bytes.2

/-- The number of bytes of its bitmap. -/
def glyphCount (size : Uint32) (bytes : Uint32 × Uint32) : Nat :=
  if bytes.1 ≥ 0x21 ∧ bytes.1 ≤ 0x7e then if size = 12 then 72 else 32
  else if size = 12 then 48 else 16

variable {words : RegisterWords} {width : Nat} {regs : FontRegisters}

/-- `_FNTADR` answers the address of the glyph of its two bytes. -/
theorem fntadr_address (sizes : regs.d2 = 8 ∨ regs.d2 = 12) :
    (iocsFntadr words width regs).d0 = glyphAddress regs.d2
      (jisBytes ((ch words width regs.d1 >>> 8).setWidth 32)
        ((ch words width regs.d1 &&& 0xff).setWidth 32)) := by
  have notSix : ¬ regs.d2 = 6 := by
    rintro six
    rw [six] at sizes
    exact absurd sizes (by decide)
  simp only [iocsFntadr, ch, if_neg notSix]
  generalize jisBytes ((BitVec.ofInt width (words.get regs.d1) >>> 8).setWidth 32)
    ((BitVec.ofInt width (words.get regs.d1) &&& 0xff).setWidth 32) = bytes
  unfold glyphAddress
  split
  · split <;> rfl
  · split <;> rfl

/-- `_FNTGET` fetches the bitmap at the address of the glyph of its two bytes. -/
theorem fetch_address (sizes : regs.d2 = 8 ∨ regs.d2 = 12) :
    ∃ bitmap, fetch (sizeCode regs) = some bitmap ∧
      bitmap.source = glyphAddress regs.d2 (jisBytes
        (BitVec.ofNat 32 (regs.d1.toNat / 0x100 % 0x100)) (BitVec.ofNat 32 (regs.d1.toNat % 0x100))) ∧
      bitmap.count = glyphCount regs.d2 (jisBytes
        (BitVec.ofNat 32 (regs.d1.toNat / 0x100 % 0x100)) (BitVec.ofNat 32 (regs.d1.toNat % 0x100))) := by
  obtain ⟨size, code⟩ := sizeCode_parts sizes
  obtain ⟨high, low⟩ := code_bytes (sizeCode regs)
  have highSame : (sizeCode regs).toNat / 256 % 256 = regs.d1.toNat / 0x100 % 0x100 := by omega
  have lowSame : (sizeCode regs).toNat % 256 = regs.d1.toNat % 0x100 := by omega
  rw [fetch, high, low, highSame, lowSame]
  generalize jisBytes (BitVec.ofNat 32 (regs.d1.toNat / 0x100 % 0x100))
    (BitVec.ofNat 32 (regs.d1.toNat % 0x100)) = bytes
  simp only [size, glyphAddress, glyphCount]
  rcases sizes with eight | twelve
  · rw [eight]
    split
    · exact ⟨_, rfl, rfl, rfl⟩
    · exact ⟨_, rfl, rfl, rfl⟩
  · rw [twelve]
    split
    · exact ⟨_, rfl, rfl, rfl⟩
    · exact ⟨_, rfl, rfl, rfl⟩

/-- The whole bitmap is in the font ROM. -/
def Stays (size : Uint32) (bytes : Uint32 × Uint32) : Prop :=
  0xf00000 ≤ (glyphAddress size bytes).toNat ∧
    (glyphAddress size bytes).toNat + glyphCount size bytes ≤ 0xfc0000

/-- What the bytes that each call decodes come to. -/
theorem designates_iff (wide : 32 ≤ width) (sizes : regs.d2 = 8 ∨ regs.d2 = 12) :
    Designates words width regs ↔
      glyphAddress regs.d2 (jisBytes ((ch words width regs.d1 >>> 8).setWidth 32)
          (BitVec.ofNat 32 (regs.d1.toNat % 0x100))) =
        glyphAddress regs.d2 (jisBytes (BitVec.ofNat 32 (regs.d1.toNat / 0x100 % 0x100))
          (BitVec.ofNat 32 (regs.d1.toNat % 0x100))) ∧
      Stays regs.d2 (jisBytes (BitVec.ofNat 32 (regs.d1.toNat / 0x100 % 0x100))
        (BitVec.ofNat 32 (regs.d1.toNat % 0x100))) := by
  obtain ⟨bitmap, fetched, source, count⟩ := fetch_address sizes
  rw [Designates, fntadr_address sizes, ch_low words wide, fetched, Stays, ← source, ← count]
  constructor
  · rintro ⟨_, same, designated⟩
    obtain rfl := Option.some.inj same
    exact designated
  · exact fun designated => ⟨bitmap, rfl, designated⟩

/-- Bytes that do not lead in Shift-JIS are kept. -/
theorem jisBytes_keeps {ch1 : Uint32} (other : ¬ LeadsKanji ch1.toNat) (ch2 : Uint32) :
    jisBytes ch1 ch2 = (ch1, ch2) := by
  unfold LeadsKanji at other
  rw [jisBytes, if_neg (by bv_omega)]

/-- The number of a kanji, as an integer. -/
theorem linear_ofInt {row : Nat} (rows : 0x21 ≤ row ∧ row ≤ 0x7e) (cell : Int) :
    FontRom.linearJisx0208 (BitVec.ofNat 32 row) (BitVec.ofInt 32 cell) =
      BitVec.ofInt 32 ((FontRom.rank row : Int) * 94 + (cell - 0x21)) := by
  have number : (BitVec.ofInt 32 cell).toNat = (cell % 4294967296).toNat := BitVec.toNat_ofInt cell
  generalize BitVec.ofInt 32 cell = bits at *
  apply BitVec.eq_of_toNat_eq
  rw [FontRom.linearJisx0208, FontRom.rank, BitVec.toNat_ofInt]
  by_cases far : 0x30 ≤ row
  · rw [if_pos far, if_pos (by bv_omega)]
    bv_omega
  · rw [if_neg far, if_neg (by bv_omega)]
    bv_omega

/-- The address of a wide glyph. -/
theorem glyphAddress_wide (size : Uint32) {row : Nat} (rows : 0x21 ≤ row ∧ row ≤ 0x7e) (cell : Int) :
    glyphAddress size (BitVec.ofNat 32 row, BitVec.ofInt 32 cell) = BitVec.ofInt 32
      (0xf00000 + if size = 12 then ((FontRom.rank row : Int) * 94 + (cell - 0x21)) * 72 + 0x40000
        else ((FontRom.rank row : Int) * 94 + (cell - 0x21)) * 32) := by
  have wide : BitVec.ofNat 32 row ≥ 0x21 ∧ BitVec.ofNat 32 row ≤ 0x7e := by bv_omega
  have number := linear_ofInt rows cell
  generalize (FontRom.rank row : Int) * 94 + (cell - 0x21) = linear at number ⊢
  have start : BitVec.ofInt 32 0xf00000 = 0xf00000 := by decide
  have large : BitVec.ofInt 32 72 = 24 * 3 := by decide
  have small : BitVec.ofInt 32 32 = 16 * 2 := by decide
  have second : BitVec.ofInt 32 0x40000 = 0x40000 := by decide
  rw [glyphAddress, if_pos wide, BitVec.ofInt_add, start]
  split
  · rw [FontRom.jisx0208_24Offset, number, BitVec.ofInt_add, BitVec.ofInt_mul, large, second]
  · rw [FontRom.jisx0208_16Offset, number, BitVec.ofInt_mul, small]

/-- The address of a wide glyph, by its row and cell. -/
theorem glyphAddress_wide_toNat (size : Uint32) {row : Nat} (rows : 0x21 ≤ row ∧ row ≤ 0x7e)
    (cell : Int) (cells : -0x100 ≤ cell ∧ cell < 0x100) :
    ((glyphAddress size (BitVec.ofNat 32 row, BitVec.ofInt 32 cell)).toNat : Int) =
      0xf00000 + if size = 12 then ((FontRom.rank row : Int) * 94 + (cell - 0x21)) * 72 + 0x40000
        else ((FontRom.rank row : Int) * 94 + (cell - 0x21)) * 32 := by
  have ranks : FontRom.rank row ≤ 86 := by
    unfold FontRom.rank
    split <;> omega
  rw [glyphAddress_wide size rows, BitVec.toNat_ofInt]
  split
  · rw [Int.emod_eq_of_lt (by omega) (by omega), Int.toNat_of_nonneg (by omega)]
  · rw [Int.emod_eq_of_lt (by omega) (by omega), Int.toNat_of_nonneg (by omega)]

/-- The address of a narrow glyph. -/
theorem glyphAddress_narrow (size : Uint32) {ch1 : Uint32} (narrow : ¬ (0x21 ≤ ch1 ∧ ch1 ≤ 0x7e))
    {cell : Nat} (small : cell < 0x100) :
    (glyphAddress size (ch1, BitVec.ofNat 32 cell)).toNat =
      if size = 12 then 0xf3d000 + cell * 48 else 0xf3a800 + cell * 16 := by
  have outside : ¬ (ch1 ≥ 0x21 ∧ ch1 ≤ 0x7e) := narrow
  rw [glyphAddress, if_neg outside]
  split
  · rw [FontRom.jisx0201_24Offset, show (24 * 2 : Uint32) = 48 from rfl]
    bv_omega
  · rw [FontRom.jisx0201_16Offset, show (16 * 1 : Uint32) = 16 from rfl]
    bv_omega

/-- All narrow bitmaps are in the ROM. -/
theorem stays_narrow (size : Uint32) {ch1 : Uint32} (narrow : ¬ (0x21 ≤ ch1 ∧ ch1 ≤ 0x7e))
    {cell : Nat} (small : cell < 0x100) : Stays size (ch1, BitVec.ofNat 32 cell) := by
  have outside : ¬ (ch1 ≥ 0x21 ∧ ch1 ≤ 0x7e) := narrow
  rw [Stays, glyphAddress_narrow size narrow small, glyphCount, if_neg outside]
  split <;> omega

/-- A number that counts through the cells of a pair of rows, of a lead and a trail byte; the trail
bytes below 0x40 have negative ones. -/
def pairCell (trail : Nat) : Int := if trail < 0x80 then (trail : Int) - 0x40 else trail - 0x41

/-- The conversion of a lead byte and any other. A negative number counts as one in the second
row. -/
theorem jisBytes_lead {lead trail : Nat} (leads : LeadsKanji lead) (small : trail < 0x100) :
    ∃ row : Nat, ∃ cell : Int, jisBytes (BitVec.ofNat 32 lead) (BitVec.ofNat 32 trail) =
        (BitVec.ofNat 32 row, BitVec.ofInt 32 cell) ∧
      (row = leadRank lead * 2 + 0x21 ∧ cell = pairCell trail + 0x21 ∧
          0 ≤ pairCell trail ∧ pairCell trail < 94 ∨
        row = leadRank lead * 2 + 0x22 ∧ cell = pairCell trail - 94 + 0x21 ∧
          ¬ (0 ≤ pairCell trail ∧ pairCell trail < 94)) := by
  unfold LeadsKanji at leads
  have rows := leadRank_ofNat leads
  have cells : (if BitVec.ofNat 32 trail ≥ 0x80 then
      BitVec.ofNat 32 trail - (0x40 + 1) else BitVec.ofNat 32 trail - 0x40) =
        BitVec.ofInt 32 (pairCell trail) := by
    apply BitVec.eq_of_toNat_eq
    rw [BitVec.toNat_ofInt]
    by_cases low : trail < 0x80
    · rw [pairCell, if_pos low, if_neg (by bv_omega)]
      bv_omega
    · rw [pairCell, if_neg low, if_pos (by bv_omega)]
      bv_omega
  have bits : (BitVec.ofInt 32 (pairCell trail)).toNat = (pairCell trail % 4294967296).toNat :=
    BitVec.toNat_ofInt _
  have range : -0x40 ≤ pairCell trail ∧ pairCell trail < 0xc0 := by
    unfold pairCell
    split <;> omega
  have base : BitVec.ofInt 32 0x21 = 0x21 := by decide
  have cellsInRow : BitVec.ofInt 32 94 = 94 := by decide
  rw [jisBytes, if_pos (by bv_omega)]
  simp only [rows, cells]
  by_cases first : 0 ≤ pairCell trail ∧ pairCell trail < 94
  · refine ⟨leadRank lead * 2 + 0x21, pairCell trail + 0x21, ?_, Or.inl ⟨rfl, rfl, first⟩⟩
    rw [if_neg (by bv_omega), BitVec.ofInt_add, base]
    exact Prod.ext (by bv_omega) rfl
  · refine ⟨leadRank lead * 2 + 0x22, pairCell trail - 94 + 0x21, ?_, Or.inr ⟨rfl, rfl, first⟩⟩
    rw [if_pos (by bv_omega), BitVec.ofInt_add, Int.sub_eq_add_neg, BitVec.ofInt_add,
      BitVec.ofInt_neg, base, cellsInRow, ← BitVec.sub_eq_add_neg]
    exact Prod.ext (by bv_omega) rfl

/-- A code in two bytes that is none in Shift-JIS has its bitmap in the ROM unless its row is the
first one and its cell before it, or it is a large one past the end. -/
theorem stays_direct {size : Uint32} (sizes : size = 8 ∨ size = 12) {row cell : Nat} (low : row < 0x80)
    (small : cell < 0x100) : Stays size (BitVec.ofNat 32 row, BitVec.ofNat 32 cell) ↔
      (size = 8 → ¬ (row = 0x21 ∧ cell < 0x21)) ∧
        (size = 12 → row < 0x30 ∨ 0x7e < row ∨ (row - 0x28) * 94 + cell ≤ 7313) := by
  by_cases rows : 0x21 ≤ row ∧ row ≤ 0x7e
  · have wide : BitVec.ofNat 32 row ≥ 0x21 ∧ BitVec.ofNat 32 row ≤ 0x7e := by bv_omega
    have address := glyphAddress_wide_toNat size rows cell (by omega)
    rw [BitVec.ofInt_natCast] at address
    rw [Stays, glyphCount, if_pos wide]
    rcases sizes with rfl | rfl
    · simp only [show ¬ (8 : Uint32) = 12 by decide, if_false, true_implies, false_implies,
        and_true] at address ⊢
      unfold FontRom.rank at address
      split at address <;> omega
    · simp only [show ¬ (12 : Uint32) = 8 by decide, if_true, true_implies, false_implies,
        true_and] at address ⊢
      unfold FontRom.rank at address
      split at address <;> omega
  · have narrow : ¬ (0x21 ≤ BitVec.ofNat 32 row ∧ BitVec.ofNat 32 row ≤ 0x7e) := by bv_omega
    have stays := stays_narrow size narrow small
    exact iff_of_true stays ⟨fun _ => by omega, fun _ => by omega⟩

/-- A kanji in Shift-JIS and the narrow character of its trail byte are in different places, but
for one. -/
theorem lead_narrow {size : Uint32} (sizes : size = 8 ∨ size = 12) {lead trail : Nat}
    (leads : LeadsKanji lead) (small : trail < 0x100) {high : Uint32}
    (narrow : ¬ (0x21 ≤ high ∧ high ≤ 0x7e)) :
    glyphAddress size (high, BitVec.ofNat 32 trail) =
        glyphAddress size (jisBytes (BitVec.ofNat 32 lead) (BitVec.ofNat 32 trail)) ↔
      size = 8 ∧ lead = 0xec ∧ trail = 0xfe := by
  obtain ⟨row, cell, decoded, places⟩ := jisBytes_lead leads small
  have ranks : leadRank lead ≤ 46 := by
    unfold LeadsKanji at leads
    unfold leadRank
    split <;> omega
  have rows : 0x21 ≤ row ∧ row ≤ 0x7e := by omega
  have cells : -0x100 ≤ cell ∧ cell < 0x100 := by
    unfold pairCell at places
    split at places <;> omega
  have far := glyphAddress_wide_toNat size rows cell cells
  rw [decoded, ← BitVec.toNat_inj, glyphAddress_narrow size narrow small]
  generalize (glyphAddress size (BitVec.ofNat 32 row, BitVec.ofInt 32 cell)).toNat = address at far
  unfold LeadsKanji at leads
  unfold FontRom.rank at far
  rcases sizes with rfl | rfl
  · simp only [show ¬ (8 : Uint32) = 12 by decide, if_false, true_and] at far ⊢
    have ranked : lead = leadRank lead + 0x81 ∧ leadRank lead ≤ 30 ∨
        lead = leadRank lead + 0xc1 ∧ 31 ≤ leadRank lead := by
      unfold leadRank
      split <;> omega
    generalize leadRank lead = pair at *
    unfold pairCell at places
    rcases places with ⟨rfl, rfl, _⟩ | ⟨rfl, rfl, _⟩
    · split at far <;> split at far <;> omega
    · split at far <;> split at far <;> omega
  · simp only [show ¬ (12 : Uint32) = 8 by decide, if_true, false_and, iff_false] at far ⊢
    unfold pairCell at places
    rcases places with ⟨rfl, rfl, _⟩ | ⟨rfl, rfl, _⟩
    · split at far <;> split at far <;> omega
    · split at far <;> split at far <;> omega

/-- Both calls designate the same glyph in the cases named. -/
theorem designates_agrees (wide : 32 ≤ width) (sizes : regs.d2 = 8 ∨ regs.d2 = 12) :
    Designates words width regs ↔ Agrees regs.d2 (regs.d1.toNat % 0x10000) := by
  have row : regs.d1.toNat % 0x10000 / 0x100 = regs.d1.toNat / 0x100 % 0x100 := by omega
  have cell : regs.d1.toNat % 0x10000 % 0x100 = regs.d1.toNat % 0x100 := by omega
  have small : regs.d1.toNat % 0x100 < 0x100 := Nat.mod_lt _ (by decide)
  rw [designates_iff wide sizes, Agrees, row, cell]
  by_cases positive : regs.d1.toNat % 0x10000 < 0x8000
  · have low : regs.d1.toNat / 0x100 % 0x100 < 0x80 := by omega
    have direct : ¬ LeadsKanji (BitVec.ofNat 32 (regs.d1.toNat / 0x100 % 0x100)).toNat := by
      unfold LeadsKanji
      bv_omega
    rw [ch_high words wide positive, jisBytes_keeps direct, stays_direct sizes low small]
    simp only [true_and, positive, show ¬ 0x8000 ≤ regs.d1.toNat % 0x10000 by omega, false_and,
      or_false]
  · have negative : 0x8000 ≤ regs.d1.toNat % 0x10000 := by omega
    have large := ch_negative words wide negative
    generalize (ch words width regs.d1 >>> 8).setWidth 32 = high at large
    have kept : ¬ LeadsKanji high.toNat := by
      unfold LeadsKanji
      omega
    have narrow : ¬ (0x21 ≤ high ∧ high ≤ 0x7e) := by bv_omega
    simp only [positive, negative, false_and, false_or, true_and]
    rw [jisBytes_keeps kept]
    by_cases leads : LeadsKanji (regs.d1.toNat / 0x100 % 0x100)
    · rw [lead_narrow sizes leads small narrow]
      simp only [leads, not_true_eq_false, false_or]
      constructor
      · rintro ⟨⟨eight, lead, trail⟩, -⟩
        exact ⟨eight, by omega⟩
      · rintro ⟨eight, code⟩
        have lead : regs.d1.toNat / 0x100 % 0x100 = 0xec := by omega
        have trail : regs.d1.toNat % 0x100 = 0xfe := by omega
        rw [eight, lead, trail]
        exact ⟨⟨rfl, rfl, rfl⟩, by unfold Stays; decide⟩
    · have other : ¬ LeadsKanji (BitVec.ofNat 32 (regs.d1.toNat / 0x100 % 0x100)).toNat := by
        rw [BitVec.toNat_ofNat, Nat.mod_eq_of_lt (by omega)]
        exact leads
      have far : ¬ (0x21 ≤ BitVec.ofNat 32 (regs.d1.toNat / 0x100 % 0x100) ∧
          BitVec.ofNat 32 (regs.d1.toNat / 0x100 % 0x100) ≤ 0x7e) := by bv_omega
      rw [jisBytes_keeps other]
      have same : glyphAddress regs.d2 (high, BitVec.ofNat 32 (regs.d1.toNat % 0x100)) =
          glyphAddress regs.d2 (BitVec.ofNat 32 (regs.d1.toNat / 0x100 % 0x100),
            BitVec.ofNat 32 (regs.d1.toNat % 0x100)) := by
        rw [← BitVec.toNat_inj, glyphAddress_narrow _ narrow small, glyphAddress_narrow _ far small]
      exact iff_of_true ⟨same, stays_narrow _ far small⟩ (Or.inl leads)

/-- For every register contents, every size 8 or 12 and every width of the type of the code from
that of an `unsigned int` on: `_FNTGET` copies a bitmap, and `_FNTADR` answers its address and it
is all in the font ROM if and only if the code is one of those named. -/
theorem fntadr_fntget_iff {M : Type} [Bus M] [WordBus M] [FontBus M] (words : RegisterWords)
    {width : Nat} (wide : 32 ≤ width) (regs : FontRegisters) (sizes : regs.d2 = 8 ∨ regs.d2 = 12) :
    ∃ bitmap : Fetch, (∀ context : IocsContext M, context.d1 = sizeCode regs → ∀ outcome after,
        Ends iocsFntget context outcome after ↔
          Ends (storeBitmap context.a1 bitmap.width bitmap.height bitmap.source bitmap.count) context
            outcome after) ∧
      ((iocsFntadr words width regs).d0 = bitmap.source ∧
          0xf00000 ≤ bitmap.source.toNat ∧ bitmap.source.toNat + bitmap.count ≤ 0xfc0000 ↔
        Agrees regs.d2 (regs.d1.toNat % 0x10000)) := by
  obtain ⟨bitmap, fetched, -⟩ := fetch_address sizes
  refine ⟨bitmap, fun context call outcome after => ?_, ?_⟩
  · exact ends_fntget_fetch (call ▸ fetched)
  · rw [← designates_agrees wide sizes, Designates]
    constructor
    · exact fun designated => ⟨bitmap, fetched, designated⟩
    · rintro ⟨other, same, designated⟩
      obtain rfl := Option.some.inj (fetched.symm.trans same)
      exact designated

/-- A kanji by its JIS code. -/
theorem fntadr_fntget_iff_jis : ∃ bitmap : Fetch,
    (iocsFntadr .lower 32 ⟨0, 0x3021, 8⟩).d0 = bitmap.source ∧
      0xf00000 ≤ bitmap.source.toNat ∧ bitmap.source.toNat + bitmap.count ≤ 0xfc0000 := by
  obtain ⟨bitmap, -, designated⟩ := fntadr_fntget_iff (M := WithFont MainMemory.ByteMemory) .lower
    (by decide : 32 ≤ 32) ⟨0, 0x3021, 8⟩ (Or.inl rfl)
  exact ⟨bitmap, designated.mpr (by decide)⟩

/-- The same kanji in Shift-JIS: the address is that of a narrow character. -/
theorem fntadr_misses_shiftJis :
    (iocsFntadr .lower 32 ⟨0, 0x889f, 8⟩).d0 = 0xf3b1f0 ∧
      (fetch (sizeCode ⟨0, 0x889f, 8⟩)).map Fetch.source = some 0xf05e00 ∧
        ¬ Designates .lower 32 ⟨0, 0x889f, 8⟩ := by
  have address : (iocsFntadr .lower 32 ⟨0, 0x889f, 8⟩).d0 = 0xf3b1f0 := by decide
  have source : (fetch (sizeCode ⟨0, 0x889f, 8⟩)).map Fetch.source = some 0xf05e00 := by decide
  refine ⟨address, source, ?_⟩
  rintro ⟨bitmap, fetched, same, -⟩
  rw [fetched] at source
  rw [address, Option.some.inj source] at same
  exact absurd same (by decide)

end FontAddresses

end Vx68k
