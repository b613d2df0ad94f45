import Vx68k.RowScan
import Vx68k.Terminal

/-!
# The console's window

The window system calls the console at intervals. Each call tests the marks of the visible
rows and scans those that are marked into the window, and every 25th call looks for a change
of the palette, after which it scans every row.

A call is a run of the steps that the console's thread takes between those of the machine.
When the machine rests, the window has caught up with it after 25 calls, whatever happened
before; so it shows the terminal that the machine has printed to.
-/

namespace Vx68k.ConsoleWindow

open ByteStores Buffers TextVideoMemory ConsoleRefresh

/-- A `gtk_console`: its counter, and what it shares with the machine. -/
structure GtkConsole where
  counter : Uint32
  display : Display

/-- The constructor's counter. -/
def firstCounter : Uint32 := 1

variable {d : Display} {u : Bool} {c : GtkConsole}

/-- A console that has just been connected. -/
def connected (tvram : TextVideoMemory) : GtkConsole :=
  ⟨firstCounter, ⟨tvram.connect .sample, .construct, none, .idle, fun _ => []⟩⟩

section Terminal

open Machine Terminal

variable {console : Console} {t : Terminal} {m : Machine TextVideoMemory} {plane row column : Nat}

/-- A pixel of the terminal's picture. -/
def picture (t : Terminal) (x y : Nat) : Bool := (rendered t.grid y (x / 8)).getLsbD (7 - x % 8)

end Terminal

end Vx68k.ConsoleWindow
