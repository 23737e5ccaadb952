import QVM.Isa
import QVM.Lib.Bytes
import QVM.Decode
import QVM.Lib.Loop
import QVM.Meter
import QVM.Crypto
import QVM.Container
import QVM.Interp
import QVM.Frame
import QVM.Run
import QVM.Canonical
import QVM.Verify
import QVM.ControlFlow
import QVM.Faults
import QVM.Ledger
import QVM.Progress
import QVM.Footprint
import QVM.Twin
import QVM.Isolation
import QVM.Lib.Threshold
import QVM.MeterThreshold
import QVM.Rent
import QVM.Effects
import QVM.NoPanic
import QVM.Termination
import QVM.Unchecked
import QVM.PanicSites
import QVM.Lib.MerkleTree
import QVM.Merkle
import QVM.Upgrade
import QVM.LeafPrice
import QVM.Abort
import QVM.Stubs
import QVM.Patch
import QVM.Rewriting
import QVM.Dispatch
import QVM.Loader
import QVM.Lib.Stack
import QVM.Subroutine
import QVM.Lib.Words
import QVM.Wide
import QVM.Counters
import QVM.Memory
import QVM.Authority
import QVM.Asm
import QVM.Assembled
import QVM.Listing
import QVM.Portable
import QVM.Lib.Schedule
import QVM.Schedule
import QVM.Extension
import QVM.Source
import QVM.Lib.Budget
import QVM.Price
import QVM.Journal
import QVM.Usage
import QVM.Deploy
import QVM.Fuzz
import QVM.Blocks
import QVM.Linker
import QVM.Persist
import QVM.Guard
import QVM.Sealed
import QVM.Batch
