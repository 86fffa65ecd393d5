import ThreadedForth.Host.Completion
import ThreadedForth.Machine.Assembly
import ThreadedForth.Main
import ThreadedForth.Proofs.Compiler.Booted
import ThreadedForth.Proofs.Machine.ReturnStack
import ThreadedForth.Proofs.Memory.History
import ThreadedForth.Proofs.Structured.Execution
import ThreadedForth.Proofs.Structured.Spaces
import ThreadedForth.Proofs.Machine.Record
import ThreadedForth.Proofs.Machine.Upkeep
import ThreadedForth.Proofs.Session.Record
import ThreadedForth.Proofs.Machine.Alteration
import ThreadedForth.Proofs.Memory.Search
import ThreadedForth.Proofs.Compiler.Pass
import ThreadedForth.Proofs.Compiler.Stray
import ThreadedForth.Proofs.Compiler.Veil
import ThreadedForth.Proofs.Session.Hiding
import ThreadedForth.Proofs.Compiler.Opening
import ThreadedForth.Proofs.Compiler.Visibility
import ThreadedForth.Proofs.Machine.Values
import ThreadedForth.Proofs.Machine.Terms
import ThreadedForth.Proofs.Host.Answer
import ThreadedForth.Proofs.Host.Filter
import ThreadedForth.Proofs.Session.Terms
import ThreadedForth.Proofs.Machine.Plain
import ThreadedForth.Proofs.Session.Leftover
import ThreadedForth.Proofs.Machine.Pair
import ThreadedForth.Proofs.Machine.Link
import ThreadedForth.Proofs.Machine.Lockstep
import ThreadedForth.Proofs.Text.Lines
import ThreadedForth.Proofs.Source.Delivery
import ThreadedForth.Proofs.Session.Lockstep
import ThreadedForth.Proofs.Session.Streams
import ThreadedForth.Proofs.Session.Commands
import ThreadedForth.Proofs.Machine.Stretch
import ThreadedForth.Proofs.Session.Waiting
import ThreadedForth.Proofs.Session.Chunks
import ThreadedForth.Proofs.Session.Progress
import ThreadedForth.Proofs.Session.Agreement
import ThreadedForth.Proofs.Session.Tracing
import ThreadedForth.Proofs.Session.Boot
import ThreadedForth.Proofs.CommandLine.Program
import ThreadedForth.Proofs.Session.Lookup
import ThreadedForth.Proofs.Session.Keeping
import ThreadedForth.Proofs.Source.Account
import ThreadedForth.Proofs.Machine.Refusal
import ThreadedForth.Proofs.Session.Environment
import ThreadedForth.Proofs.Memory.Naming
import ThreadedForth.Proofs.Session.Decompiling
import ThreadedForth.Proofs.Session.Assembling
import ThreadedForth.Proofs.Session.Strings
import ThreadedForth.Proofs.Session.Comments
import ThreadedForth.Proofs.Session.Unknown
import ThreadedForth.Proofs.Memory.Extents
import ThreadedForth.Proofs.Machine.Division
import ThreadedForth.Proofs.Host.Completing
import ThreadedForth.Proofs.Session.Numerals
