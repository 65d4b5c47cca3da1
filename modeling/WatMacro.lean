import WatMacro.Main
import WatMacro.Proofs.Module.DataSection
import WatMacro.Proofs.Program.Reread
import WatMacro.Proofs.Expand.Tabled
import WatMacro.Proofs.Program.InPlace
import WatMacro.Proofs.Node.Depth
import WatMacro.Proofs.Program.Session
import WatMacro.Proofs.Program.Trivia
import WatMacro.Proofs.Node.WriteBack
import WatMacro.Proofs.Program.Rewriting
import WatMacro.Proofs.Expand.Collected
import WatMacro.Proofs.Expand.Stranded
import WatMacro.Proofs.Node.LineCut
import WatMacro.Proofs.Expand.Hoisted
import WatMacro.Proofs.Program.AddressSpace
import WatMacro.Proofs.Program.Body
import WatMacro.Proofs.Session.Chunks
import WatMacro.Proofs.Session.Refusal
import WatMacro.Proofs.Expand.Fixed
import WatMacro.Proofs.Program.Spelling
import WatMacro.Proofs.Text.Quoted
import WatMacro.Proofs.Lexeme.Literal
import WatMacro.Proofs.Expand.Literal
import WatMacro.Proofs.Expand.ArrayLength
import WatMacro.Proofs.Module.Capacity
import WatMacro.Proofs.Module.Confined
import WatMacro.Proofs.Expand.Siblings
import WatMacro.Proofs.Lexeme.Part
import WatMacro.Proofs.Node.Lines
import WatMacro.Proofs.Expand.CharLiteral
import WatMacro.Proofs.Expand.ModuleForm
