import Vx68k.AddressSpace
import Vx68k.Allocator
import Vx68k.AllocatorBlocks
import Vx68k.AllocatorCalls
import Vx68k.AllocatorChain
import Vx68k.AllocatorGaps
import Vx68k.AllocatorHeaders
import Vx68k.AllocatorRequests
import Vx68k.AllocatorRuns
import Vx68k.AllocatorTermination
import Vx68k.Boot
import Vx68k.Buffers
import Vx68k.ByteStores
import Vx68k.Clocks
import Vx68k.CommandLine
import Vx68k.Components
import Vx68k.ConsoleAdvance
import Vx68k.ConsoleCursor
import Vx68k.ConsoleGlyphs
import Vx68k.ConsoleRefresh
import Vx68k.ConsoleText
import Vx68k.ConsoleWindow
import Vx68k.DateTimeText
import Vx68k.Decimals
import Vx68k.DiskDrives
import Vx68k.DmaMove
import Vx68k.DosContext
import Vx68k.Environment
import Vx68k.ExceptionFrames
import Vx68k.Exchanges
import Vx68k.FileBlocks
import Vx68k.FileCounts
import Vx68k.FileDescriptors
import Vx68k.FileNames
import Vx68k.FileReads
import Vx68k.FileSystem
import Vx68k.FileTransfers
import Vx68k.FixUps
import Vx68k.FloppyDisk
import Vx68k.FontAddresses
import Vx68k.FontCalls
import Vx68k.FontRom
import Vx68k.Forests
import Vx68k.Histories
import Vx68k.Holders
import Vx68k.HostFonts
import Vx68k.Keyboard
import Vx68k.LinkedLists
import Vx68k.LoadTraces
import Vx68k.MainMemory
import Vx68k.MemoryBounds
import Vx68k.Monitors
import Vx68k.MouseBounds
import Vx68k.NameConversion
import Vx68k.OpenFiles
import Vx68k.OpmInterrupts
import Vx68k.OpmTimers
import Vx68k.Orbits
import Vx68k.Palettes
import Vx68k.PassedNames
import Vx68k.PositionedFiles
import Vx68k.ProgramLoad
import Vx68k.Programs
import Vx68k.RegisterBytes
import Vx68k.Relocation
import Vx68k.RowScan
import Vx68k.Shell
import Vx68k.ShellLifetime
import Vx68k.StringCalls
import Vx68k.SystemRom
import Vx68k.Terminal
import Vx68k.TerminatedStrings
import Vx68k.TextFill
import Vx68k.TextMemory
import Vx68k.TextPixels
import Vx68k.TextPlanes
import Vx68k.TextVideo
import Vx68k.VdispCalls
import Vx68k.VdispTimer
