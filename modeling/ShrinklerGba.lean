import ShrinklerGba.Adler32
import ShrinklerGba.Boot
import ShrinklerGba.CommandLine
import ShrinklerGba.Lzss.HeaderByte
import ShrinklerGba.Overlap
import ShrinklerGba.SameMemory
import ShrinklerGba.Shrinkler.BitReader
import ShrinklerGba.Shrinkler.CodeInHeader
import ShrinklerGba.Shrinkler.Completeness
import ShrinklerGba.Shrinkler.Copyloop
import ShrinklerGba.Shrinkler.DebugChecks
import ShrinklerGba.Shrinkler.LoadAddress
import ShrinklerGba.Shrinkler.NumberCode
import ShrinklerGba.Shrinkler.Packable
import ShrinklerGba.Shrinkler.Program
import ShrinklerGba.Shrinkler.RangeInvariant
import ShrinklerGba.Shrinkler.StackSafety
import ShrinklerGba.Shrinkler.StreamOrder
import ShrinklerGba.TablePrinter
