import Vx68k.TextPlanes
import Vx68k.Palettes

/-!
# Keeping the console window fresh

Two threads share the text video memory. The machine's thread changes bytes and then
marks the rows it has changed; the console's thread tests and clears one mark after
the other and scans the rows that were marked. A change of a palette entry sets a flag,
and a pass that finds it set scans every row. The steps of both interleave in any way.

A row of the window may be behind, but never without a reason to catch up: a mark, the
flag, a mutator that has yet to mark it or a pass that has yet to scan it.
-/

namespace Vx68k

open ByteStores Buffers TextVideoMemory

namespace ConsoleRefresh

/-- A pixel of the window: red, green and blue. -/
abbrev Pixel := Byte × Byte × Byte

/-- The pixel of a color, from the console's table. -/
def rgb (color : Uint16) : Pixel :=
  let i := color.toNat
  let x := i &&& 1
  (BitVec.ofNat 8 ((i >>> 5 &&& 0x3e ||| x) * 0xff / 0x3f),
    BitVec.ofNat 8 ((i >>> 10 &&& 0x3e ||| x) * 0xff / 0x3f),
    BitVec.ofNat 8 ((i &&& 0x3f) * 0xff / 0x3f))

/-- Scan pixels from a raster iterator on. -/
def scanFrom (buf : Buffer Byte) (colors : Nat → Uint16) : Nat → RasterIterator → List Pixel
  | 0, _ => []
  | count + 1, r => rgb (colors r.value) :: scanFrom buf colors count (r.next buf)

/-- The pixels of a row of the window. -/
def scanRow (y : Nat) (palettes : PalettesMemory) (tvram : TextVideoMemory) : List Pixel :=
  scanFrom tvram.buf palettes.tpalette 768 (raster 0 (BitVec.ofNat 32 y) tvram)

/-- Some byte of a row is not what it was. -/
def RowDiffers (old new : Buffer Byte) (y : Nat) : Prop :=
  ∃ plane column, plane < 4 ∧ column < 128 ∧ cell new plane y column ≠ cell old plane y column

/-- Equal rows are fetched alike. -/
theorem packsAt_congr {old new : Buffer Byte} {y : Nat} (same : ¬ RowDiffers old new y)
    (pos : Uint32) : packsAt new (y * rowSize) pos = packsAt old (y * rowSize) pos := by
  apply List.map_congr_left
  intro plane member
  have known : ∃ index : Nat, index < 4 ∧ plane = index := by
    simp only [List.mem_cons, List.not_mem_nil, or_false] at member
    rcases member with rfl | rfl | rfl | rfl
    · exact ⟨0, by decide, rfl⟩
    · exact ⟨1, by decide, rfl⟩
    · exact ⟨2, by decide, rfl⟩
    · exact ⟨3, by decide, rfl⟩
  obtain ⟨index, inPlanes, rfl⟩ := known
  have place : (y : Int) * rowSize + (pos.toNat / 8 % 128 : Nat) + index * planeSize =
      index * planeSize + y * rowSize + (pos.toNat / 8 % 128 : Nat) := by ring
  rw [place]
  by_contra differs
  exact same ⟨index, pos.toNat / 8 % 128, inPlanes, Nat.mod_lt _ (by decide), differs⟩

/-- Equal rows are scanned alike from any position. -/
theorem scanFrom_congr {old new : Buffer Byte} {y : Nat} (same : ¬ RowDiffers old new y)
    (colors : Nat → Uint16) (count : Nat) (r : RasterIterator) (inRow : r.buf = y * rowSize) :
    scanFrom new colors count r = scanFrom old colors count r := by
  induction count generalizing r with
  | zero => rfl
  | succ count inductionHypothesis =>
    have next : r.next new = r.next old := by
      simp only [RasterIterator.next]
      rw [inRow, packsAt_congr same]
    have stays : (r.next old).buf = y * rowSize := by
      simp only [RasterIterator.next]
      split <;> exact inRow
    rw [scanFrom, scanFrom, next, inductionHypothesis _ stays]

/-- A row that has not changed looks the same. -/
theorem scanRow_congr {old new : TextVideoMemory} {y : Nat} (inPlane : y < 1024)
    (same : ¬ RowDiffers old.buf new.buf y) (palettes : PalettesMemory) :
    scanRow y palettes new = scanRow y palettes old := by
  have number : (((BitVec.ofNat 32 y).toNat : Nat) : Int) = y := by
    rw [BitVec.toNat_ofNat, Nat.mod_eq_of_lt (by omega)]
  have begins : raster 0 (BitVec.ofNat 32 y) new = raster 0 (BitVec.ofNat 32 y) old := by
    simp only [raster, number, packsAt_congr same]
  rw [scanRow, scanRow, begins]
  exact scanFrom_congr same _ _ _ (by simp only [raster, number])

/-- A call that changes the text video memory. -/
inductive Mutation where
  | put8 (address value : Uint32)
  | put16 (address : Uint32) (value : Uint16)
  | scroll
  | drawChar (x y : Int) (c : Uint32)
  | fillPlane (left top right bottom plane : Int) (pattern : Uint16)

namespace Mutation

/-- Arguments in range: a word address is even, a character lies in its rows, and a
rectangle lies in a plane. -/
def InRange (console : Console) : Mutation → Prop
  | put8 _ _ => True
  | put16 address _ => address.toNat % 2 = 0
  | scroll => True
  | drawChar x y c => 0 ≤ x ∧ x + (glyph console c).columns ≤ 128 ∧ 0 ≤ y ∧ y < 64
  | fillPlane left top right bottom plane _ => 0 ≤ left ∧ left < 1024 ∧ left ≤ right ∧ right ≤ 1024 ∧
      0 ≤ top ∧ top ≤ bottom ∧ bottom ≤ 1024 ∧ 0 ≤ plane ∧ plane < 4

/-- The call itself. -/
def perform : Mutation → TextVideoMemory → Except Fault TextVideoMemory
  | put8 address value, tvram => tvram.put8 address value .superData
  | put16 address value, tvram => tvram.put16 address value .superData
  | scroll, tvram => .ok tvram.scroll
  | drawChar x y c, tvram => .ok (tvram.drawChar x y c)
  | fillPlane left top right bottom plane pattern, tvram =>
    .ok (tvram.fillPlane left top right bottom plane pattern)

/-- The first phase of a call that changes something: the new bytes, and the rows
that are left to mark. -/
def change : Mutation → TextVideoMemory → Option (Buffer Byte × Uint32 × Uint32)
  | put8 address value, tvram =>
    if value.setWidth 8 ≠ tvram.buf (offset address) then
      some (store tvram.buf (offset address) (value.setWidth 8), row address, row address + 1)
    else none
  | put16 address value, tvram =>
    if value ≠ word tvram.buf (offset address) then
      some (storeWord (offset address) value tvram.buf, row address, row address + 1)
    else none
  | scroll, tvram => some (scrollPlane 1 (scrollPlane 0 tvram.buf), 0, 31 * 16)
  | drawChar x y c, tvram => some (storeAll (paint x y (glyph tvram.connectedConsole c)) tvram.buf,
      BitVec.ofInt 32 (y * 16), BitVec.ofInt 32 (y * 16 + 16))
  | fillPlane left top right bottom plane pattern, tvram =>
    some (performAll (fillSteps left top right bottom plane pattern) tvram.buf,
      BitVec.ofInt 32 top, BitVec.ofInt 32 bottom)

/-- A call is its two phases. -/
theorem perform_phases (mutation : Mutation) (tvram : TextVideoMemory) :
    mutation.perform tvram = .ok (match mutation.change tvram with
      | some (buf, topY, bottomY) => markUpdateArea topY bottomY { tvram with buf := buf }
      | none => tvram) := by
  cases mutation with
  | put8 address value =>
    simp only [perform, change, TextVideoMemory.put8]
    rw [if_neg (by simp)]
    split <;> simp_all
  | put16 address value =>
    simp only [perform, change, TextVideoMemory.put16]
    rw [if_neg (by simp)]
    split <;> simp_all
  | scroll => rfl
  | drawChar x y c => rfl
  | fillPlane left top right bottom plane pattern => rfl

/-- The row of an address is marked by itself. -/
theorem fills_row {address : Uint32} {y : Nat} (here : y = offset address / 128 % 1024) :
    Fills (row address) (row address + 1) y := by
  have place : (row address).toNat = y := by
    rw [row, BitVec.toNat_ofNat, here]
    omega
  unfold Fills
  bv_omega

/-- Rows from one line to another within a plane are marked. -/
theorem fills_between {top bottom : Int} {y : Nat} (topLow : 0 ≤ top) (bottomHigh : bottom ≤ 1024)
    (low : top ≤ y) (high : y < bottom) : Fills (BitVec.ofInt 32 top) (BitVec.ofInt 32 bottom) y := by
  have number (line : Int) (low : 0 ≤ line) (high : line ≤ 1024) :
      ((BitVec.ofInt 32 line).toNat : Int) = line := by
    rw [BitVec.toNat_ofInt]
    omega
  have first := number top topLow (by omega)
  have last := number bottom (by omega) bottomHigh
  unfold Fills
  refine ⟨fun same => ?_, by omega, by omega⟩
  rw [same] at first
  omega

/-- A call with arguments in range marks every row that it has changed. -/
theorem change_marks {mutation : Mutation} {tvram : TextVideoMemory} {buf : Buffer Byte}
    {topY bottomY : Uint32} (inRange : mutation.InRange tvram.connectedConsole)
    (changed : mutation.change tvram = some (buf, topY, bottomY)) (y : Nat) (inPlane : y < 1024)
    (differs : RowDiffers tvram.buf buf y) : Fills topY bottomY y := by
  obtain ⟨plane, column, inPlanes, inRow, differs⟩ := differs
  cases mutation with
  | put8 address value =>
    simp only [change, Option.ite_none_right_eq_some, Option.some.injEq, Prod.mk.injEq] at changed
    obtain ⟨-, rfl, rfl, rfl⟩ := changed
    by_contra unmarked
    exact differs (cell_store address _ _ _ _ _ inRow inPlane fun here => unmarked (fills_row here))
  | put16 address value =>
    simp only [change, Option.ite_none_right_eq_some, Option.some.injEq, Prod.mk.injEq] at changed
    obtain ⟨-, rfl, rfl, rfl⟩ := changed
    by_contra unmarked
    exact differs (cell_storeWord address _ _ _ _ _ inRow inPlane inRange
      fun here => unmarked (fills_row here))
  | scroll =>
    simp only [change, Option.some.injEq, Prod.mk.injEq] at changed
    obtain ⟨rfl, rfl, rfl⟩ := changed
    by_cases moved : y < 496
    · exact @fills_between 0 496 y (by omega) (by omega) (by omega) (by omega)
    · refine absurd ?_ differs
      rw [cell_scroll _ _ _ _ inRow inPlane, if_neg (by omega), if_neg (by omega)]
  | drawChar x line c =>
    simp only [change, Option.some.injEq, Prod.mk.injEq] at changed
    obtain ⟨rfl, rfl, rfl⟩ := changed
    obtain ⟨xLow, fits, lineLow, lineHigh⟩ := inRange
    obtain ⟨x, rfl⟩ := Int.eq_ofNat_of_zero_le xLow
    obtain ⟨line, rfl⟩ := Int.eq_ofNat_of_zero_le lineLow
    by_cases painted : 16 * line ≤ y ∧ y < 16 * line + 16
    · exact fills_between (by omega) (by omega) (by omega) (by omega)
    · refine absurd ?_ differs
      rw [cell_paint _ _ _ _ (by omega) _ _ _ inRow inPlane (by omega), if_neg (by omega)]
  | fillPlane left top right bottom filled pattern =>
    simp only [change, Option.some.injEq, Prod.mk.injEq] at changed
    obtain ⟨rfl, rfl, rfl⟩ := changed
    obtain ⟨leftLow, leftHigh, ordered, rightHigh, topLow, rows, bottomHigh, planeLow, planeHigh⟩ :=
      inRange
    obtain ⟨filled, rfl⟩ := Int.eq_ofNat_of_zero_le planeLow
    by_cases inside : top ≤ y ∧ y < bottom
    · exact fills_between topLow bottomHigh inside.1 inside.2
    · exact absurd (cell_fill left top right bottom filled pattern _ leftLow leftHigh ordered rightHigh
        topLow bottomHigh plane y column inRow inPlane (by omega)) differs

end Mutation

/-- Where the console's thread is in a pass: between passes, about to test the mark of
a row, or about to scan a row. Rows are all scanned in a full pass. -/
inductive Pass where
  | idle
  | testing (full : Bool) (y : Nat)
  | scanning (full : Bool) (y : Nat)

/-- The pass still has to scan a row, whatever its mark. -/
def Pass.Owes : Pass → Nat → Prop
  | idle, _ => False
  | testing full next, y => full = true ∧ next ≤ y
  | scanning full next, y => y = next ∨ full = true ∧ next < y

/-- A mutator between its phases: the bytes before it, and the rows left to mark. -/
structure Change where
  old : Buffer Byte
  topY : Uint32
  bottomY : Uint32

/-- What the two threads share, and where each of them is. -/
structure Display where
  tvram : TextVideoMemory
  palettes : PalettesMemory
  changing : Option Change
  pass : Pass
  displayed : Nat → List Pixel

/-- The steps of the machine's thread and of `handle_timeout`. -/
inductive Step : Display → Display → Prop
  | change (d : Display) (mutation : Mutation) (buf : Buffer Byte) (topY bottomY : Uint32)
      (none : d.changing = none) (inRange : mutation.InRange d.tvram.connectedConsole)
      (changed : mutation.change d.tvram = some (buf, topY, bottomY)) :
      Step d { d with tvram := { d.tvram with buf := buf }, changing := some ⟨d.tvram.buf, topY, bottomY⟩ }
  | mark (d : Display) (change : Change) (changed : d.changing = some change) :
      Step d { d with tvram := markUpdateArea change.topY change.bottomY d.tvram, changing := none }
  | palette (d : Display) (address : Uint32) (value : Uint16) (fc : FunctionCode)
      (after : PalettesMemory) (done : d.palettes.put16 address value fc = .ok after) :
      Step d { d with palettes := after }
  | start (d : Display) (idle : d.pass = .idle) : Step d { d with pass := .testing false 0 }
  | startChecked (d : Display) (idle : d.pass = .idle) :
      Step d { d with
        palettes := d.palettes.checkTextColorsModified.2
        pass := .testing d.palettes.checkTextColorsModified.1 0 }
  | test (d : Display) (full : Bool) (y : Nat) (testing : d.pass = .testing full y) (visible : y < 512) :
      Step d { d with
        tvram := (d.tvram.rowChanged (BitVec.ofNat 32 y)).2
        pass := if (d.tvram.rowChanged (BitVec.ofNat 32 y)).1 || full then .scanning full y
          else .testing full (y + 1) }
  | scan (d : Display) (full : Bool) (y : Nat) (scanning : d.pass = .scanning full y) :
      Step d { d with
        displayed := Function.update d.displayed y (scanRow y d.palettes d.tvram)
        pass := .testing full (y + 1) }
  | finish (d : Display) (full : Bool) (testing : d.pass = .testing full 512) :
      Step d { d with pass := .idle }

/-- The states from the call of `connect` on. It may find any contents, marks,
palette and window, and a pass under way, but no mutator between its phases. -/
inductive Reached : Display → Prop
  | connected (d : Display) (console : Console) (none : d.changing = none) :
      Reached { d with tvram := d.tvram.connect console }
  | step (d after : Display) (reached : Reached d) (step : Step d after) : Reached after

/-- A row of the window shows the row of the text video memory in the colors of the
palette, or something will make it: its mark, the palette's flag, a mutator that has
changed it and not yet marked it, or the pass, which has yet to scan it. -/
def Fresh (d : Display) (y : Nat) : Prop :=
  d.displayed y = scanRow y d.palettes d.tvram ∨ d.tvram.rasterUpdateMarks y = true ∨
    d.palettes.textColorsModified = true ∨
    (∃ change, d.changing = some change ∧ RowDiffers change.old d.tvram.buf y) ∨ d.pass.Owes y

/-- A mutator between its phases will mark the rows it has changed. -/
def Honest (d : Display) : Prop :=
  ∀ change, d.changing = some change → ∀ y : Nat, y < 1024 →
    RowDiffers change.old d.tvram.buf y → Fills change.topY change.bottomY y

/-- What every step keeps. -/
structure Invariant (d : Display) : Prop where
  honest : Honest d
  fresh : ∀ y, y < 512 → Fresh d y

/-- A fill of marks sets those it covers and keeps the rest. -/
theorem marked_keeps {topY bottomY : Uint32} {tvram : TextVideoMemory} {y : Int}
    (marked : tvram.rasterUpdateMarks y = true) :
    (markUpdateArea topY bottomY tvram).rasterUpdateMarks y = true := by
  simp [markUpdateArea, marked]

/-- The marks of a filled area are set. -/
theorem marked_fills {topY bottomY : Uint32} (tvram : TextVideoMemory) {y : Int}
    (fills : Fills topY bottomY y) :
    (markUpdateArea topY bottomY tvram).rasterUpdateMarks y = true := by
  simp [markUpdateArea, fills]

/-- Testing a row's mark tells its value and keeps the others. -/
theorem rowChanged_marks (tvram : TextVideoMemory) (y : Nat) (inPlane : y < 1024) :
    (tvram.rowChanged (BitVec.ofNat 32 y)).1 = tvram.rasterUpdateMarks y ∧
      (tvram.rowChanged (BitVec.ofNat 32 y)).2.buf = tvram.buf ∧
      ∀ other : Nat, other ≠ y → (tvram.rowChanged (BitVec.ofNat 32 y)).2.rasterUpdateMarks other =
        tvram.rasterUpdateMarks other := by
  have number : (BitVec.ofNat 32 y).toNat = y := by
    rw [BitVec.toNat_ofNat, Nat.mod_eq_of_lt (by omega)]
  simp only [rowChanged, number]
  refine ⟨trivial, ?_, fun other different => ?_⟩
  · split <;> rfl
  · split
    · exact if_neg (by omega)
    · rfl

/-- Scanning looks at the bytes only. -/
theorem scanRow_buf {tvram other : TextVideoMemory} (same : other.buf = tvram.buf) (y : Nat)
    (palettes : PalettesMemory) : scanRow y palettes other = scanRow y palettes tvram := by
  simp only [scanRow, raster, same]

/-- Connecting a console marks every visible row. -/
theorem invariant_connected (d : Display) (console : Console) (none : d.changing = none) :
    Invariant { d with tvram := d.tvram.connect console } := by
  constructor
  · intro change changed
    rw [none] at changed
    exact nomatch changed
  · intro y visible
    refine Or.inr (Or.inl (marked_fills _ ⟨by decide, ?_, fun _ => ?_⟩))
    · exact Int.natCast_nonneg y
    · change (y : Int) < 512
      omega

/-- Changing bytes leaves the rows that look different to the mutator. -/
theorem invariant_change {d : Display} (invariant : Invariant d) {mutation : Mutation}
    {buf : Buffer Byte} {topY bottomY : Uint32} (none : d.changing = none)
    (inRange : mutation.InRange d.tvram.connectedConsole)
    (changed : mutation.change d.tvram = some (buf, topY, bottomY)) :
    Invariant { d with
      tvram := { d.tvram with buf := buf }, changing := some ⟨d.tvram.buf, topY, bottomY⟩ } := by
  constructor
  · intro change current
    obtain rfl := Option.some.inj current
    exact Mutation.change_marks inRange changed
  · intro y visible
    by_cases differs : RowDiffers d.tvram.buf buf y
    · exact Or.inr (Or.inr (Or.inr (Or.inl ⟨_, rfl, differs⟩)))
    · rcases invariant.fresh y visible with shown | marked | flagged | ⟨change, current, -⟩ | owed
      · have same : scanRow y d.palettes { d.tvram with buf := buf } = scanRow y d.palettes d.tvram :=
          scanRow_congr (by omega) differs d.palettes
        exact Or.inl (shown.trans same.symm)
      · exact Or.inr (Or.inl marked)
      · exact Or.inr (Or.inr (Or.inl flagged))
      · rw [none] at current
        exact nomatch current
      · exact Or.inr (Or.inr (Or.inr (Or.inr owed)))

/-- Marking hands the changed rows over to their marks. -/
theorem invariant_mark {d : Display} (invariant : Invariant d) {change : Change}
    (changed : d.changing = some change) : Invariant { d with
      tvram := markUpdateArea change.topY change.bottomY d.tvram, changing := none } := by
  refine ⟨fun change current => (nomatch current), fun y visible => ?_⟩
  rcases invariant.fresh y visible with shown | marked | flagged | ⟨other, current, differs⟩ | owed
  · exact Or.inl shown
  · exact Or.inr (Or.inl (marked_keeps marked))
  · exact Or.inr (Or.inr (Or.inl flagged))
  · obtain rfl := Option.some.inj (changed.symm.trans current)
    exact Or.inr (Or.inl (marked_fills _ (invariant.honest change changed y (by omega) differs)))
  · exact Or.inr (Or.inr (Or.inr (Or.inr owed)))

/-- A palette write that changes an entry leaves the flag. -/
theorem invariant_palette {d : Display} (invariant : Invariant d) {address : Uint32} {value : Uint16}
    {fc : FunctionCode} {after : PalettesMemory} (done : d.palettes.put16 address value fc = .ok after) :
    Invariant { d with palettes := after } := by
  refine ⟨invariant.honest, fun y visible => ?_⟩
  rcases PalettesMemory.put16_flags done with rfl | flagged
  · exact invariant.fresh y visible
  · exact Or.inr (Or.inr (Or.inl flagged))

/-- A pass that finds the flag set owes every row. -/
theorem invariant_startChecked {d : Display} (invariant : Invariant d) (idle : d.pass = .idle) :
    Invariant { d with
      palettes := d.palettes.checkTextColorsModified.2
      pass := .testing d.palettes.checkTextColorsModified.1 0 } := by
  refine ⟨invariant.honest, fun y visible => ?_⟩
  rcases invariant.fresh y visible with shown | marked | flagged | changed | owed
  · exact Or.inl shown
  · exact Or.inr (Or.inl marked)
  · exact Or.inr (Or.inr (Or.inr (Or.inr ⟨flagged, Nat.zero_le y⟩)))
  · exact Or.inr (Or.inr (Or.inr (Or.inl changed)))
  · rw [idle] at owed
    exact owed.elim

/-- A row whose mark is cleared is about to be scanned. -/
theorem invariant_test {d : Display} (invariant : Invariant d) {full : Bool} {next : Nat}
    (testing : d.pass = .testing full next) (visible : next < 512) :
    Invariant { d with
      tvram := (d.tvram.rowChanged (BitVec.ofNat 32 next)).2
      pass := if (d.tvram.rowChanged (BitVec.ofNat 32 next)).1 || full then .scanning full next
        else .testing full (next + 1) } := by
  obtain ⟨value, bytes, others⟩ := rowChanged_marks d.tvram next (by omega)
  have owes (y : Nat) (owed : y = next ∧ d.tvram.rasterUpdateMarks next = true ∨
      full = true ∧ next ≤ y) :
      (if d.tvram.rasterUpdateMarks next || full then Pass.scanning full next
        else .testing full (next + 1)).Owes y := by
    rcases owed with ⟨rfl, marked⟩ | ⟨rfl, later⟩
    · rw [marked, Bool.true_or]
      exact Or.inl rfl
    · rw [Bool.or_true]
      rcases Nat.eq_or_lt_of_le later with rfl | after
      · exact Or.inl rfl
      · exact Or.inr ⟨rfl, after⟩
  constructor
  · intro change current y inPlane differs
    simp only [bytes] at differs
    exact invariant.honest change current y inPlane differs
  · intro y visible
    simp only [Fresh, value, bytes, scanRow_buf bytes]
    rcases invariant.fresh y visible with shown | marked | flagged | changed | owed
    · exact Or.inl shown
    · by_cases here : y = next
      · exact Or.inr (Or.inr (Or.inr (Or.inr (owes y (Or.inl ⟨here, here ▸ marked⟩)))))
      · exact Or.inr (Or.inl ((others y here).trans marked))
    · exact Or.inr (Or.inr (Or.inl flagged))
    · exact Or.inr (Or.inr (Or.inr (Or.inl changed)))
    · rw [testing] at owed
      exact Or.inr (Or.inr (Or.inr (Or.inr (owes y (Or.inr owed)))))

/-- A row that has been scanned is shown. -/
theorem invariant_scan {d : Display} (invariant : Invariant d) {full : Bool} {next : Nat}
    (scanning : d.pass = .scanning full next) :
    Invariant { d with
      displayed := Function.update d.displayed next (scanRow next d.palettes d.tvram)
      pass := .testing full (next + 1) } := by
  refine ⟨invariant.honest, fun y visible => ?_⟩
  by_cases here : y = next
  · subst here
    exact Or.inl (Function.update_self _ _ _)
  · rcases invariant.fresh y visible with shown | marked | flagged | changed | owed
    · exact Or.inl ((Function.update_of_ne here _ _).trans shown)
    · exact Or.inr (Or.inl marked)
    · exact Or.inr (Or.inr (Or.inl flagged))
    · exact Or.inr (Or.inr (Or.inr (Or.inl changed)))
    · rw [scanning] at owed
      rcases owed with same | ⟨every, later⟩
      · exact absurd same here
      · exact Or.inr (Or.inr (Or.inr (Or.inr ⟨every, later⟩)))

/-- A step that only moves the pass keeps the invariant if what was owed still is. -/
theorem invariant_moves {d : Display} (invariant : Invariant d) (pass : Pass)
    (settled : ∀ y, y < 512 → ¬ d.pass.Owes y) : Invariant { d with pass := pass } := by
  refine ⟨invariant.honest, fun y visible => ?_⟩
  rcases invariant.fresh y visible with shown | marked | flagged | changed | owed
  · exact Or.inl shown
  · exact Or.inr (Or.inl marked)
  · exact Or.inr (Or.inr (Or.inl flagged))
  · exact Or.inr (Or.inr (Or.inr (Or.inl changed)))
  · exact absurd owed (settled y visible)

/-- Every step keeps the reasons for rows that are behind. -/
theorem invariant_step {d after : Display} (step : Step d after) (invariant : Invariant d) :
    Invariant after := by
  cases step with
  | change mutation buf topY bottomY none inRange changed =>
    exact invariant_change invariant none inRange changed
  | mark change changed => exact invariant_mark invariant changed
  | palette address value fc after done => exact invariant_palette invariant done
  | start idle =>
    apply invariant_moves invariant _
    intro y visible owed
    rw [idle] at owed
    exact owed
  | startChecked idle => exact invariant_startChecked invariant idle
  | test full y testing visible => exact invariant_test invariant testing visible
  | scan full y scanning => exact invariant_scan invariant scanning
  | finish full testing =>
    apply invariant_moves invariant _
    intro y visible owed
    rw [testing] at owed
    exact absurd owed.2 (by omega)

/-- In every state of every interleaving after `connect`, every visible row is fresh.

Proof: connecting marks every row, and each step of either thread keeps the reasons. -/
theorem visible_rows_fresh (d : Display) (reached : Reached d) (y : Nat) (visible : y < 512) :
    Fresh d y := by
  have invariant : Invariant d := by
    induction reached with
    | connected d console none => exact invariant_connected d console none
    | step d after _ step inductionHypothesis => exact invariant_step step inductionHypothesis
  exact invariant.fresh y visible

/-- After the first phase of a byte write to a fresh machine with a console
connected. -/
theorem visible_rows_fresh_put8 : ∃ d, Reached d ∧ d.changing ≠ none ∧ Fresh d 0 := by
  have reached : Reached ⟨(construct .sample).connect .sample, .construct, none, .idle, fun _ => []⟩ :=
    .connected ⟨construct .sample, .construct, none, .idle, fun _ => []⟩ .sample rfl
  have changed : (Mutation.put8 0 1).change ((construct .sample).connect .sample) =
      some (store (fun _ => 0) (offset 0) 1, row 0, row 0 + 1) := by
    have differs : BitVec.setWidth 8 (1 : Uint32) ≠ (construct .sample).buf (offset 0) :=
      (by decide : (1 : Byte) ≠ 0)
    rw [Mutation.change, connect, markUpdateArea_buf, if_pos differs]
    rfl
  have later := Reached.step _ _ reached (.change _ (.put8 0 1) _ _ _ rfl trivial changed)
  exact ⟨_, later, nofun, visible_rows_fresh _ later 0 (by decide)⟩

end ConsoleRefresh

end Vx68k
