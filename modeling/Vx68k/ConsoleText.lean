import Vx68k.ConsoleCursor

/-!
# Text by bytes and by characters

Texts reach `b_putc` byte by byte, as `b_print` and the console device send them, or one
code to a character, as the calls for single characters allow. In the first way the lead
byte of a character waits in the machine for the second one, and may have moved to the next
line before. Both ways leave the same machine.
-/

namespace Vx68k

open ByteStores

namespace Machine

variable {V : Type} [Video V]

/-- Output the bytes of a string. The console device outputs a block likewise. -/
def bPrint (str : List Byte) (m : Machine V) : Machine V :=
  str.foldl (fun m byte => bPutc (byte.setWidth 16) m) m

/-- A text is printed byte by byte. -/
theorem bPrint_prints (str : List Byte) (m : Machine V) :
    bPrint str m = prints (str.map fun byte => byte.setWidth 16) m := by
  rw [bPrint, prints, List.foldl_map]

end Machine

namespace ConsoleText

open Machine

/-- A character of a text: a control code, a character of one byte, or one of two. -/
inductive Character where
  | control (code : Byte) (controls : code ≤ 0x1f ∨ code = 0x7f)
  | narrow (code : Byte) (printable : 0x20 ≤ code ∧ code ≤ 0x7e ∨ 0xa0 ≤ code ∧ code ≤ 0xdf)
  | wide (lead trail : Byte) (leads : 0x80 ≤ lead ∧ lead ≤ 0x9f ∨ 0xe0 ≤ lead)
    (trails : 0x20 ≤ trail ∧ trail ≠ 0x7f)

namespace Character

/-- The bytes of a character. -/
def bytes : Character → List Byte
  | control code _ => [code]
  | narrow code _ => [code]
  | wide lead trail _ _ => [lead, trail]

/-- The single code of a character. -/
def code : Character → Uint16
  | control code _ => code.setWidth 16
  | narrow code _ => code.setWidth 16
  | wide lead trail _ _ => lead ++ trail

end Character

variable {V : Type} [Video V]

/-- A lead byte makes room for itself alone; making room for the whole character then leads
to the same place as doing so at once. -/
theorem makeRoom_lead {lead code : Uint16} (short : ¬ 0x100 ≤ lead) (m : Machine V) :
    makeRoom code (makeRoom lead m) = makeRoom code m := by
  by_cases wrap : m.curx = 96
  · rw [makeRoom_wraps (Or.inl wrap), makeRoom_wraps (m := m) (Or.inl wrap), makeRoom_fits]
    simp [Wraps]
  · rw [makeRoom_fits (not_or.mpr ⟨wrap, fun both => short both.1⟩)]

/-- Output of a character with nothing saved, in one code. -/
theorem bPutc_unsaved {code : Uint16} (prints : ¬ Controls code) {m : Machine V}
    (unsaved : m.savedByte1 = 0) : bPutc code m = print code m := by
  rw [bPutc, if_neg prints, join, if_neg fun both => both.1 unsaved]

/-- A saved byte and the one after it make the code of the character. -/
theorem join_pair (lead trail : Byte) :
    trail.setWidth 16 ||| lead.setWidth 16 <<< 8 = (lead ++ trail : Uint16) := by
  apply BitVec.eq_of_getLsbD_eq
  intro bit inside
  rw [BitVec.getLsbD_append, BitVec.getLsbD_or, BitVec.getLsbD_shiftLeft, BitVec.getLsbD_setWidth,
    BitVec.getLsbD_setWidth]
  by_cases low : bit < 8
  · simp [low, inside]
  · have none : trail.getLsbD bit = false := BitVec.getLsbD_of_ge _ _ (by omega)
    simp [low, inside, none, show bit - 8 < 16 by omega]

/-- The number of a code of two bytes. -/
theorem pair_toNat (lead trail : Byte) :
    (lead ++ trail : Uint16).toNat = lead.toNat * 256 + trail.toNat := by
  rw [BitVec.toNat_append, ← Nat.shiftLeft_add_eq_or_of_lt trail.isLt, Nat.shiftLeft_eq]

/-- Output of the two bytes of a character.

Proof: the lead byte leaves the machine with room for it and itself saved; the second byte
is joined to it and makes room again. -/
theorem print_pair {lead trail : Byte} (leads : 0x80 ≤ lead ∧ lead ≤ 0x9f ∨ 0xe0 ≤ lead)
    (trails : 0x20 ≤ trail ∧ trail ≠ 0x7f) {m : Machine V} (unsaved : m.savedByte1 = 0) :
    bPutc (trail.setWidth 16) (bPutc (lead.setWidth 16) m) = print (lead ++ trail) m := by
  have some : lead ≠ 0 := by bv_omega
  have whole := pair_toNat lead trail
  have long : (0x100 : Uint16) ≤ lead ++ trail := by bv_omega
  have short : ¬ (0x100 : Uint16) ≤ lead.setWidth 16 := by bv_omega
  have waits : Leads (lead.setWidth 16) := by
    unfold Leads
    bv_omega
  have complete : ¬ Leads (lead ++ trail) := by
    unfold Leads
    bv_omega
  have leadPrints : ¬ Controls (lead.setWidth 16) := by
    unfold Controls
    bv_omega
  have trailPrints : ¬ Controls (trail.setWidth 16) := by
    unfold Controls
    bv_omega
  have joined (m : Machine V) : join (trail.setWidth 16) { m with savedByte1 := lead } =
      lead ++ trail := by
    rw [join, if_pos ⟨some, by bv_omega⟩, join_pair]
  have kept : (lead.setWidth 16).setWidth 8 = lead := by simp
  have saves : bPutc (lead.setWidth 16) m =
      { makeRoom (lead.setWidth 16) { m with savedByte1 := 0 } with savedByte1 := lead } := by
    rw [bPutc_unsaved leadPrints unsaved]
    simp only [print, if_pos waits, kept]
  have forgets : { makeRoom (lead.setWidth 16) { m with savedByte1 := 0 } with savedByte1 := 0 } =
      makeRoom (lead.setWidth 16) { m with savedByte1 := 0 } := by
    have cleared := makeRoom_savedByte1 (lead.setWidth 16) { m with savedByte1 := 0 }
    generalize makeRoom (lead.setWidth 16) { m with savedByte1 := 0 } = moved at cleared
    cases moved
    cases cleared
    rfl
  rw [saves, bPutc, if_neg trailPrints, joined]
  simp only [print, if_neg complete, forgets, makeRoom_lead short]

/-- The bytes of a character do the same as its code, and none is left saved. -/
theorem prints_bytes (character : Character) {m : Machine V} (unsaved : m.savedByte1 = 0) :
    bPrint character.bytes m = bPutc character.code m ∧
      (bPutc character.code m).savedByte1 = 0 := by
  cases character with
  | control code controls =>
    have control : Controls (code.setWidth 16) := by
      unfold Controls
      bv_omega
    exact ⟨rfl, by rw [Character.code, bPutc, if_pos control, controlCode_savedByte1]⟩
  | narrow code printable =>
    have prints : ¬ Controls (code.setWidth 16) := by
      unfold Controls
      bv_omega
    have complete : ¬ Leads (code.setWidth 16) := by
      unfold Leads
      bv_omega
    refine ⟨rfl, ?_⟩
    rw [Character.code, bPutc_unsaved prints unsaved]
    simp only [print, if_neg complete, draw_savedByte1, makeRoom_savedByte1]
  | wide lead trail leads trails =>
    have whole := pair_toNat lead trail
    have prints : ¬ Controls (lead ++ trail) := by
      unfold Controls
      bv_omega
    have complete : ¬ Leads (lead ++ trail) := by
      unfold Leads
      bv_omega
    rw [Character.code, bPutc_unsaved prints unsaved]
    refine ⟨print_pair leads trails unsaved, ?_⟩
    simp only [print, if_neg complete, draw_savedByte1, makeRoom_savedByte1]

/-- For every machine with no byte saved and every text, output byte by byte leaves the same
machine as output of one code to a character: the same cursor, the same contents and marks of
the text video memory, and no byte saved.

Proof: by induction on the text; each character starts with no byte saved. -/
theorem bytes_print_characters (text : List Character) (m : Machine V) (unsaved : m.savedByte1 = 0) :
    bPrint (text.flatMap Character.bytes) m = prints (text.map Character.code) m ∧
      (prints (text.map Character.code) m).savedByte1 = 0 := by
  induction text generalizing m with
  | nil => exact ⟨rfl, unsaved⟩
  | cons character rest inductionHypothesis =>
    obtain ⟨first, again⟩ := prints_bytes character unsaved
    obtain ⟨later, last⟩ := inductionHypothesis _ again
    rw [List.flatMap_cons, bPrint, List.foldl_append, ← bPrint, ← bPrint, first]
    exact ⟨later, last⟩

/-- A kanji at the end of a line, where it does not fit. -/
theorem bytes_print_characters_wrap :
    bPrint [0x88, 0x9f, 0x0a] (⟨95, 30, 0, TextVideoMemory.construct .sample⟩ : Machine _) =
      prints [0x889f, 0x0a] ⟨95, 30, 0, TextVideoMemory.construct .sample⟩ :=
  (bytes_print_characters [.wide 0x88 0x9f (by decide) (by decide), .control 0x0a (by decide)]
    ⟨95, 30, 0, TextVideoMemory.construct .sample⟩ rfl).1

end ConsoleText

end Vx68k
