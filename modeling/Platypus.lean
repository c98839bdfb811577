import Platypus.Bits.Split
import Platypus.Bits.Window
import Platypus.State.Steps
import Platypus.State.Trace
import Platypus.State.Written
import Platypus.Bytes.Buffer
import Platypus.Text.Scan
import Platypus.Text.Fields
import Platypus.Dict.Ordered
import Platypus.Hash.Chains
import Platypus.Dict.Lists
import Platypus.Machine.Asm
import Platypus.Machine.Decode
import Platypus.Machine.Exec
import Platypus.Machine.SysV
import Platypus.Loader.Placement
import Platypus.Loader.ExecWindow
import Platypus.Loader.MapSegments
import Platypus.Loader.Placed
import Platypus.Loader.Sequence
import Platypus.Loader.LoadCmds
import Platypus.Loader.OwnWindow
import Platypus.Loader.Rela
import Platypus.Linker.CallTarget
import Platypus.Linker.CallbackReloc
import Platypus.Linker.GetterStub
import Platypus.Linker.GetterArgs
import Platypus.Linker.ScanRun
import Platypus.Linker.GotStep
import Platypus.Linker.MaskSlots
import Platypus.Linker.AddressTaken
import Platypus.Linker.StubPointer
import Platypus.Linker.Sections
import Platypus.Linker.Phdrs
import Platypus.Linker.CodeSegment
import Platypus.Linker.Addresses
import Platypus.Linker.PltRange
import Platypus.Header.Tables
import Platypus.Header.Dispatch
import Platypus.Header.Guard
import Platypus.Header.Fallthrough
import Platypus.Header.SlotValue
import Platypus.Header.Transfer
import Platypus.Header.DictFile
import Platypus.Parser.Exported
import Platypus.Parser.Check
import Platypus.Parser.Grow
import Platypus.Parser.Callees
import Platypus.Parser.Effect
import Platypus.Parser.Tagged
import Platypus.Parser.Completes
import Platypus.Parser.Order
import Platypus.Parser.Logs
import Platypus.Parser.Forward
import Platypus.Parser.CreateTables
import Platypus.Parser.ThreadKeys
import Platypus.Parser.StructRecords
import Platypus.Loader.Reservation
import Platypus.Loader.MainProgram
import Platypus.Loader.MainImage
import Platypus.Loader.Alignment
import Platypus.Loader.Lookup
import Platypus.Loader.Dispatchers
import Platypus.Loader.DlSym
import Platypus.Loader.Placeholders
import Platypus.Linker.LazySlot
import Platypus.Linker.CallbGetter
import Platypus.Linker.Positions
import Platypus.Linker.GetterPlt
import Platypus.Linker.OwnStub
import Platypus.Linker.CanonicalPlt
import Platypus.Linker.LargeOffset
import Platypus.Linker.PltAddr
import Platypus.Linker.RelaTable
import Platypus.Linker.GnuHash
import Platypus.Linker.RelrTable
import Platypus.Text.Phrases
import Platypus.Text.Lines
import Platypus.Text.Literal
import Platypus.Parser.Records
import Platypus.Parser.Output
import Platypus.Pass.FindDynSym
import Platypus.Search.Bounded
import Platypus.Search.Visited
import Platypus.Pass.Function
import Platypus.Pass.OriginArgument
import Platypus.Pass.BitMasks
import Platypus.Pass.Masked
import Platypus.Pass.Semantics
import Platypus.Pass.Expand
import Platypus.Pass.Proper
import Platypus.Pass.Simulation
import Platypus.Pass.Sites
import Platypus.Pass.ReplacedCalls
import Platypus.Pass.ReadOnly
import Platypus.Pass.Chain
import Platypus.Pass.StructFields
import Platypus.Pass.InstrumentJmp
import Platypus.Pass.FunctionsInValue
import Platypus.Pass.InLine
import Platypus.Pass.Confined
import Platypus.Security.Collect
import Platypus.Loader.DynSymCount
import Platypus.Loader.Unload
import Platypus.Loader.DoRel
import Platypus.Loader.GnuLookup
import Platypus.Loader.DoRelr
import Platypus.Loader.Fixup
import Platypus.Security.FakePlt
import Platypus.System.Relocated
import Platypus.System.Isolation
import Platypus.System.HashTable
import Platypus.System.Packed
import Platypus.System.Lazy
