import RainbowOs.Lib.Prog
import RainbowOs.Lib.Bytes
import RainbowOs.Lib.Linked
import RainbowOs.Fat12.Name
import RainbowOs.Fat12.Driver
import RainbowOs.Fat12.Layout
import RainbowOs.Fat12.Tables
import RainbowOs.Fat12.Simulation
import RainbowOs.Fat12.Calls
import RainbowOs.Fat12.Sound
import RainbowOs.Fat12.Files
import RainbowOs.Fat12.FileMap
import RainbowOs.Fat12.Ramdisk
import RainbowOs.Fat12.Runs
import RainbowOs.Fat12.Atomic
import RainbowOs.Fat12.Diskfs
import RainbowOs.Fat12.FatRegion
import RainbowOs.Kernel.Paging
import RainbowOs.Kernel.Pmm
import RainbowOs.Kernel.Interrupts
import RainbowOs.Lib.Footprint
import RainbowOs.Fat12.Footprint
import RainbowOs.Fat12.Persist
import RainbowOs.Fat12.Mount
import RainbowOs.Cc.Lexer
import RainbowOs.Cc.Codegen
import RainbowOs.Cc.Parser
import RainbowOs.Cc.Asm
import RainbowOs.Cc.Link
import RainbowOs.Lib.X86Run
import RainbowOs.Cc.Expr
import RainbowOs.Cc.Reading
import RainbowOs.Cc.Climb
import RainbowOs.Cc.Run
import RainbowOs.Cc.Eval
import RainbowOs.Cc.Laws
import RainbowOs.Cc.Trails
import RainbowOs.Cc.Labels
import RainbowOs.Cc.Image
import RainbowOs.Cc.Precedence
import RainbowOs.Basic.Program
import RainbowOs.Cc.Relocated
import RainbowOs.Kernel.Disasm
import RainbowOs.Basic.Expr
import RainbowOs.Basic.Exec
import RainbowOs.Basic.Flow
import RainbowOs.Basic.Jumps
import RainbowOs.Basic.Tokenizer
import RainbowOs.Basic.Conditional
import RainbowOs.Cc.Preproc
import RainbowOs.Cc.Rounds
import RainbowOs.Cc.Regions
import RainbowOs.Cc.Include
import RainbowOs.Basic.Pieces
import RainbowOs.Basic.Shell
import RainbowOs.Basic.Listing
import RainbowOs.Fat12.ReadBack
import RainbowOs.Fat12.Listed
import RainbowOs.Basic.RoundTrip
import RainbowOs.Kernel.Keyboard
import RainbowOs.Editor.Buffer
import RainbowOs.Editor.Text
import RainbowOs.Kernel.Frames
import RainbowOs.Editor.Undo
import RainbowOs.Editor.Walks
import RainbowOs.Editor.Editor
import RainbowOs.Editor.Keys
import RainbowOs.Editor.Effects
import RainbowOs.Editor.Modified
import RainbowOs.Editor.OneUndo
import RainbowOs.Editor.UndoKeys
import RainbowOs.Editor.Save
import RainbowOs.Editor.Cursor
import RainbowOs.Basic.Room
import RainbowOs.Basic.Decimal
import RainbowOs.Basic.Division
import RainbowOs.Basic.Indexed
import RainbowOs.Basic.Loops
import RainbowOs.Basic.Places
import RainbowOs.Basic.ForNext
import RainbowOs.Basic.LineNumbers
import RainbowOs.Basic.Lexing
import RainbowOs.Basic.StringPool
import RainbowOs.Editor.Lines
import RainbowOs.Editor.Words
import RainbowOs.Editor.Ranges
import RainbowOs.Editor.VisualLines
import RainbowOs.Editor.Operators
import RainbowOs.Editor.Linewise
import RainbowOs.Boot.Stage2
import RainbowOs.Kernel.Svga
import RainbowOs.Cc.Compile
import RainbowOs.Cc.SourceLines
import RainbowOs.Cc.Cycles
import RainbowOs.Cc.Names
import RainbowOs.Kernel.Shell
import RainbowOs.Basic.Values
import RainbowOs.Basic.Uses
import RainbowOs.Cc.Replaced
import RainbowOs.Lib.Latch
import RainbowOs.Kernel.Scancodes
import RainbowOs.Fat12.Packing
import RainbowOs.Cc.Reverse
import RainbowOs.Basic.Grammar
import RainbowOs.Cc.Spelling
import RainbowOs.Kernel.Breakpoints
import RainbowOs.Kernel.Window
import RainbowOs.Kernel.Vga
import RainbowOs.Kernel.Console
import RainbowOs.Kernel.Typeset
import RainbowOs.Kernel.Syscalls
import RainbowOs.Kernel.Confined
import RainbowOs.Cc.Termination
import RainbowOs.Cc.Calls
