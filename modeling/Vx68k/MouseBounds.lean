import Vx68k.Histories
import Vx68k.MainMemory

/-!
# The mouse and its bounds

The serial controller keeps the position of the mouse and the bounds it may move in.
The host sets the position, which is brought into the bounds then; the guest sets the
bounds, and the position is left where it is. A guest that asks for the position after
it has made the bounds narrower is told one outside them.

The constructor leaves the position undefined; it is a parameter of the model. The
buttons are left out.
-/

namespace Vx68k

open Histories ByteStores

/-- A position or a motion on the screen. -/
@[ext]
structure Point where
  x : Int
  y : Int
deriving DecidableEq

/-- The mouse's part of an `scc_memory`. -/
structure SccMemory where
  mouseLeft : Int
  mouseTop : Int
  mouseRight : Int
  mouseBottom : Int
  mousePosition : Point
  oldMousePosition : Point
  mouseMotion : Point
deriving DecidableEq

namespace SccMemory

/-- A new object; the points are what memory happens to hold. -/
def construct (mousePosition oldMousePosition mouseMotion : Point) : SccMemory where
  mouseLeft := 0
  mouseTop := 0
  mouseRight := 768
  mouseBottom := 512
  mousePosition := mousePosition
  oldMousePosition := oldMousePosition
  mouseMotion := mouseMotion

/-- Move the mouse to a position, or to the nearest one inside the bounds. -/
def setMousePosition (x y : Int) (scc : SccMemory) : SccMemory :=
  let x := if x < scc.mouseLeft then scc.mouseLeft
    else if x ≥ scc.mouseRight then scc.mouseRight - 1 else x
  let y := if y < scc.mouseTop then scc.mouseTop
    else if y ≥ scc.mouseBottom then scc.mouseBottom - 1 else y
  { scc with mousePosition := ⟨x, y⟩ }

/-- Note the motion since the last time. -/
def trackMouse (scc : SccMemory) : SccMemory :=
  { scc with
    mouseMotion := ⟨scc.mousePosition.x - scc.oldMousePosition.x,
      scc.mousePosition.y - scc.oldMousePosition.y⟩
    oldMousePosition := scc.mousePosition }

/-- Set the bounds. The position is left where it is. -/
def setMouseBounds (l t r b : Int) (scc : SccMemory) : SccMemory :=
  { scc with mouseLeft := l, mouseTop := t, mouseRight := r, mouseBottom := b }

/-- Set the bounds to the screen, and no motion. -/
def initializeMouse (scc : SccMemory) : SccMemory :=
  { scc with
    mouseLeft := 0, mouseTop := 0, mouseRight := 768, mouseBottom := 512, mouseMotion := ⟨0, 0⟩ }

/-- `_MS_CURGT`; its value is D0. -/
def iocsMsCurgt (scc : SccMemory) : Uint32 :=
  (BitVec.ofInt 32 scc.mousePosition.x &&& 0xffff) <<< 16 |||
    (BitVec.ofInt 32 scc.mousePosition.y &&& 0xffff)

/-- `_MS_INIT`. -/
def iocsMsInit (scc : SccMemory) : SccMemory := scc.initializeMouse

/-- `_MS_LIMIT` with D1 and D2. -/
def iocsMsLimit (d1 d2 : Uint32) (scc : SccMemory) : SccMemory :=
  scc.setMouseBounds (d1 >>> 16).toNat (d1 &&& 0xffff).toNat (d2 >>> 16).toNat (d2 &&& 0xffff).toNat

/-- What the host and the guest do to the mouse. -/
inductive Event where
  | setMousePosition (x y : Int)
  | msLimit (d1 d2 : Uint32)
  | msInit
  | trackMouse
deriving DecidableEq

/-- What each call does. -/
def perform (scc : SccMemory) : Event → SccMemory
  | .setMousePosition x y => scc.setMousePosition x y
  | .msLimit d1 d2 => scc.iocsMsLimit d1 d2
  | .msInit => scc.iocsMsInit
  | .trackMouse => scc.trackMouse

/-- Bounds set by the guest have their left before their right and their top above
their bottom. -/
def Event.Proper : Event → Prop
  | .msLimit d1 d2 => d1 >>> 16 < d2 >>> 16 ∧ d1 &&& 0xffff < d2 &&& 0xffff
  | _ => True

instance : DecidablePred Event.Proper
  | .msLimit _ _ => inferInstanceAs (Decidable (_ ∧ _))
  | .setMousePosition _ _ | .msInit | .trackMouse => inferInstanceAs (Decidable True)

/-- A point is within the bounds in force. -/
def Contains (scc : SccMemory) (point : Point) : Prop :=
  scc.mouseLeft ≤ point.x ∧ point.x < scc.mouseRight ∧
    scc.mouseTop ≤ point.y ∧ point.y < scc.mouseBottom

instance (scc : SccMemory) (point : Point) : Decidable (scc.Contains point) :=
  inferInstanceAs (Decidable (_ ∧ _))

/-- The position the guest is told: the halves of D0. -/
def reported (scc : SccMemory) : Point where
  x := (scc.iocsMsCurgt >>> 16).toNat
  y := (scc.iocsMsCurgt &&& 0xffff).toNat

/-- The position the guest is told is within the bounds in force. -/
def Respects (scc : SccMemory) : Prop := scc.Contains scc.reported

instance : DecidablePred Respects := fun scc =>
  inferInstanceAs (Decidable (scc.Contains scc.reported))

/-- New bounds contain the position they find. -/
def Finds (scc : SccMemory) : Event → Prop
  | .msLimit d1 d2 => (scc.iocsMsLimit d1 d2).Contains scc.mousePosition
  | .msInit => scc.iocsMsInit.Contains scc.mousePosition
  | _ => True

instance : ∀ scc event, Decidable (Finds scc event)
  | scc, .msLimit d1 d2 => inferInstanceAs (Decidable ((scc.iocsMsLimit d1 d2).Contains _))
  | scc, .msInit => inferInstanceAs (Decidable (scc.iocsMsInit.Contains _))
  | _, .setMousePosition _ _ | _, .trackMouse => inferInstanceAs (Decidable True)

/-- The bounds are not empty and fit sixteen bits. -/
structure Framed (scc : SccMemory) : Prop where
  left : 0 ≤ scc.mouseLeft
  width : scc.mouseLeft < scc.mouseRight
  right : scc.mouseRight ≤ 0xffff
  top : 0 ≤ scc.mouseTop
  height : scc.mouseTop < scc.mouseBottom
  bottom : scc.mouseBottom ≤ 0xffff

/-- The position fits sixteen bits as well. -/
structure Sound (scc : SccMemory) : Prop extends Framed scc where
  x : 0 ≤ scc.mousePosition.x ∧ scc.mousePosition.x ≤ 0xffff
  y : 0 ≤ scc.mousePosition.y ∧ scc.mousePosition.y ≤ 0xffff

/-- The guest is told a coordinate of sixteen bits as it is. -/
theorem masked_coordinate {value : Int} (low : 0 ≤ value ∧ value ≤ 0xffff) :
    BitVec.ofInt 32 value &&& 0xffff = (BitVec.ofNat 16 value.toNat).setWidth 32 ∧
      ((BitVec.ofNat 16 value.toNat).toNat : Int) = value := by
  obtain ⟨number, rfl⟩ := Int.eq_ofNat_of_zero_le low.1
  have small : number < 2 ^ 16 := by omega
  have mask : (BitVec.ofInt 32 (number : Int) &&& 0xffff).toNat = number := by
    rw [BitVec.ofInt_natCast, and_low_toNat _ _ 16 rfl, BitVec.toNat_ofNat]
    omega
  have same : (BitVec.ofNat 16 number).toNat = number := Nat.mod_eq_of_lt small
  refine ⟨BitVec.eq_of_toNat_eq ?_, by rw [Int.toNat_natCast, same]⟩
  rw [mask, Int.toNat_natCast, BitVec.toNat_setWidth, same, Nat.mod_eq_of_lt (by omega)]

/-- In a sound state the guest is told the position itself. -/
theorem reported_position {scc : SccMemory} (sound : Sound scc) :
    scc.reported = scc.mousePosition := by
  obtain ⟨maskX, exactX⟩ := masked_coordinate sound.x
  obtain ⟨maskY, exactY⟩ := masked_coordinate sound.y
  have joined : scc.iocsMsCurgt.toNat =
      (BitVec.ofNat 16 scc.mousePosition.x.toNat).toNat * 2 ^ 16 +
        (BitVec.ofNat 16 scc.mousePosition.y.toNat).toNat := by
    rw [iocsMsCurgt, maskX, maskY, MainMemory.join_cells]
  have boundX := (BitVec.ofNat 16 scc.mousePosition.x.toNat).isLt
  have boundY := (BitVec.ofNat 16 scc.mousePosition.y.toNat).isLt
  have high : (scc.iocsMsCurgt >>> 16).toNat = scc.iocsMsCurgt.toNat / 2 ^ 16 := by
    simp [Nat.shiftRight_eq_div_pow]
  have low : (scc.iocsMsCurgt &&& 0xffff).toNat = scc.iocsMsCurgt.toNat % 2 ^ 16 :=
    and_low_toNat _ _ 16 rfl
  have x : scc.reported.x = scc.mousePosition.x := by
    change ((scc.iocsMsCurgt >>> 16).toNat : Int) = _
    rw [high]
    omega
  have y : scc.reported.y = scc.mousePosition.y := by
    change ((scc.iocsMsCurgt &&& 0xffff).toNat : Int) = _
    rw [low]
    omega
  exact Point.ext x y

/-- In a sound state the bounds are respected if the position lies in them. -/
theorem respects_position {scc : SccMemory} (sound : Sound scc) :
    scc.Respects ↔ scc.Contains scc.mousePosition := by
  rw [Respects, reported_position sound]

/-- A position set by the host is brought into the bounds. -/
theorem setMousePosition_contains {scc : SccMemory} (framed : Framed scc) (x y : Int) :
    (scc.setMousePosition x y).Contains (scc.setMousePosition x y).mousePosition := by
  have width := framed.width
  have height := framed.height
  simp only [Contains, setMousePosition]
  refine ⟨?_, ?_, ?_, ?_⟩ <;> split_ifs <;> omega

/-- A position in the bounds has sixteen bits when the bounds have. -/
theorem sound_set {scc : SccMemory} (framed : Framed scc) (x y : Int) :
    Sound (scc.setMousePosition x y) := by
  obtain ⟨left, right, top, bottom⟩ := setMousePosition_contains framed x y
  exact { framed with
    x := ⟨framed.left.trans left, (right.trans_le framed.right).le⟩
    y := ⟨framed.top.trans top, (bottom.trans_le framed.bottom).le⟩ }

/-- The bounds of a new and of an initialized mouse. -/
theorem framed_initial {scc : SccMemory} (left : scc.mouseLeft = 0) (top : scc.mouseTop = 0)
    (right : scc.mouseRight = 768) (bottom : scc.mouseBottom = 512) : Framed scc :=
  ⟨by omega, by omega, by omega, by omega, by omega, by omega⟩

/-- The bounds of a proper call are halves of its registers. -/
theorem framed_limit (scc : SccMemory) {d1 d2 : Uint32} (proper : (Event.msLimit d1 d2).Proper) :
    Framed (scc.iocsMsLimit d1 d2) := by
  obtain ⟨width, height⟩ := proper
  have bound := d2.isLt
  have low : (d2 &&& 0xffff).toNat = d2.toNat % 2 ^ 16 := and_low_toNat _ _ 16 rfl
  have high : (d2 >>> 16).toNat = d2.toNat / 2 ^ 16 := by simp [Nat.shiftRight_eq_div_pow]
  have right : (d2 >>> 16).toNat ≤ 0xffff := by omega
  have bottom : (d2 &&& 0xffff).toNat ≤ 0xffff := by omega
  exact {
    left := Int.natCast_nonneg _
    width := Int.ofNat_lt.mpr width
    right := Int.ofNat_le.mpr right
    top := Int.natCast_nonneg _
    height := Int.ofNat_lt.mpr height
    bottom := Int.ofNat_le.mpr bottom }

/-- Every event keeps the bounds and the position to sixteen bits. -/
theorem sound_perform {scc : SccMemory} (event : Event) (proper : event.Proper)
    (sound : Sound scc) : Sound (scc.perform event) := by
  cases event with
  | setMousePosition x y => exact sound_set sound.toFramed x y
  | msLimit d1 d2 => exact { framed_limit scc proper with x := sound.x, y := sound.y }
  | msInit => exact { @framed_initial scc.iocsMsInit rfl rfl rfl rfl with x := sound.x, y := sound.y }
  | trackMouse => exact { sound with }

/-- An event keeps the position in the bounds exactly when bounds it sets contain
the position they find. -/
theorem perform_respects {scc : SccMemory} (event : Event) (proper : event.Proper)
    (sound : Sound scc) (respects : scc.Respects) :
    (scc.perform event).Respects ↔ scc.Finds event := by
  rw [respects_position (sound_perform event proper sound)]
  cases event with
  | setMousePosition x y =>
    exact ⟨fun _ => trivial, fun _ => setMousePosition_contains sound.toFramed x y⟩
  | msLimit d1 d2 => exact Iff.rfl
  | msInit => exact Iff.rfl
  | trackMouse => exact ⟨fun _ => trivial, fun _ => (respects_position sound).mp respects⟩

/-- The state in which the host has set the position once. -/
def started (mousePosition oldMousePosition mouseMotion : Point) (x y : Int) : SccMemory :=
  (construct mousePosition oldMousePosition mouseMotion).setMousePosition x y

/-- The state after the start is sound and respects the bounds. -/
theorem sound_started (mousePosition oldMousePosition mouseMotion : Point) (x y : Int) :
    Sound (started mousePosition oldMousePosition mouseMotion x y) ∧
      (started mousePosition oldMousePosition mouseMotion x y).Respects := by
  have framed := @framed_initial (construct mousePosition oldMousePosition mouseMotion) rfl rfl rfl rfl
  have sound := sound_set framed x y
  exact ⟨sound, (respects_position sound).mpr (setMousePosition_contains framed x y)⟩

/-- In every run from an object whose position has been set, the guest is told a
position within the bounds in force throughout exactly when all bounds the guest sets
contain the position they find.

Proof: the bounds and the position fit sixteen bits throughout, so the guest is told the
position itself; then each event is decided by its own kind. -/
theorem respects_throughout_iff (mousePosition oldMousePosition mouseMotion : Point) (x y : Int)
    (events : List Event) (proper : ∀ event ∈ events, event.Proper) :
    Throughout perform Respects (started mousePosition oldMousePosition mouseMotion x y) events ↔
      EveryEvent perform Finds (started mousePosition oldMousePosition mouseMotion x y) events := by
  obtain ⟨sound, respects⟩ := sound_started mousePosition oldMousePosition mouseMotion x y
  exact throughout_iff (fun _ event fine kept => sound_perform event fine kept)
    (fun _ event fine kept within => perform_respects event fine kept within)
    sound respects events proper

/-- Bounds of a hundred by a hundred, set around a position of (30, 40). -/
theorem respects_throughout_narrow : Throughout perform Respects (started ⟨0, 0⟩ ⟨0, 0⟩ ⟨0, 0⟩ 30 40)
    [.msLimit 0 0x00640064, .setMousePosition 700 (-1), .trackMouse, .msInit] :=
  (respects_throughout_iff ⟨0, 0⟩ ⟨0, 0⟩ ⟨0, 0⟩ 30 40 _ (by decide)).mpr (by decide)

/-- The same bounds, set when the position is (700, 500). -/
theorem narrow_bounds_overtaken :
    (∀ event ∈ [Event.msLimit 0 0x00640064], event.Proper) ∧
      ¬ Throughout perform Respects (started ⟨0, 0⟩ ⟨0, 0⟩ ⟨0, 0⟩ 700 500) [.msLimit 0 0x00640064] := by
  decide

end SccMemory

end Vx68k
