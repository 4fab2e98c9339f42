import AsmLinker.Command.Options
import AsmLinker.Command.Run
import AsmLinker.Error
import AsmLinker.Files
import AsmLinker.Image.Writer
import AsmLinker.Log
import AsmLinker.Machine.Instruction
import AsmLinker.Machine.Opcode
import AsmLinker.Machine.Section
import AsmLinker.Machine.Word
import AsmLinker.Main
import AsmLinker.Program.Basic
import AsmLinker.Program.Listing
import AsmLinker.Program.Resolve
import AsmLinker.Proofs.Command.Contract
import AsmLinker.Proofs.Files
import AsmLinker.Proofs.Image.Addresses
import AsmLinker.Proofs.Image.Decoding
import AsmLinker.Proofs.Image.Protocol
import AsmLinker.Proofs.Image.Reader
import AsmLinker.Proofs.Image.Room
import AsmLinker.Proofs.Image.RoundTrip
import AsmLinker.Proofs.Image.Session
import AsmLinker.Proofs.Image.Writing
import AsmLinker.Proofs.Program.Concatenation
import AsmLinker.Proofs.Program.Growth
import AsmLinker.Proofs.Program.Incremental
import AsmLinker.Proofs.Program.Merge
import AsmLinker.Proofs.Program.Outcome
import AsmLinker.Proofs.Program.Payload
import AsmLinker.Proofs.Program.Permutation
import AsmLinker.Proofs.Program.Placement
import AsmLinker.Proofs.Program.Resolve
import AsmLinker.Proofs.Program.Resolved
import AsmLinker.Proofs.Program.Search
import AsmLinker.Proofs.Program.Settling
import AsmLinker.Proofs.Symbols.Listings
import AsmLinker.Proofs.Symbols.ModulePaths
import AsmLinker.Proofs.Symbols.Providers
import AsmLinker.Proofs.Table
import AsmLinker.Proofs.Token.Answers
import AsmLinker.Proofs.Token.Bookkeeping
import AsmLinker.Proofs.Token.Concatenation
import AsmLinker.Proofs.Token.Dissection
import AsmLinker.Proofs.Token.Items
import AsmLinker.Proofs.Token.Lines
import AsmLinker.Proofs.Token.Literals
import AsmLinker.Proofs.Token.Reads
import AsmLinker.Proofs.Token.Registers
import AsmLinker.Proofs.Token.Rendering
import AsmLinker.Proofs.Token.Scanning
import AsmLinker.Proofs.Token.Spelling
import AsmLinker.Proofs.Token.Transcript
import AsmLinker.Proofs.Token.Wording
import AsmLinker.Proofs.Unit.Conformance
import AsmLinker.Proofs.Unit.Contents
import AsmLinker.Proofs.Unit.Grammar
import AsmLinker.Proofs.Unit.Invariant
import AsmLinker.Proofs.Unit.Layout
import AsmLinker.Proofs.Unit.Printing
import AsmLinker.Proofs.Unit.Progress
import AsmLinker.Proofs.Unit.ReadFailures
import AsmLinker.Proofs.Unit.RoundTrip
import AsmLinker.Proofs.Unit.Steps
import AsmLinker.Proofs.Unit.UnknownCharacters
import AsmLinker.Symbols.Exports
import AsmLinker.Symbols.Provider
import AsmLinker.Table
import AsmLinker.Text.Blank
import AsmLinker.Text.Escape
import AsmLinker.Text.Numeral
import AsmLinker.Text.Path
import AsmLinker.Text.Printing
import AsmLinker.Text.Quoted
import AsmLinker.Token.Automaton
import AsmLinker.Token.Basic
import AsmLinker.Token.Literal
import AsmLinker.Token.Scanner
import AsmLinker.Token.Source
import AsmLinker.Token.Stream
import AsmLinker.Unit.Assembly
import AsmLinker.Unit.Basic
