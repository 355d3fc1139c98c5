import GoFun.Main
import GoFun.Proofs.Command.Output
import GoFun.Proofs.Fun.Integer
import GoFun.Proofs.Fun.Text
import GoFun.Proofs.Grammar.Precedence
import GoFun.Proofs.Grammar.Seated
import GoFun.Proofs.Grammar.WellFounded
import GoFun.Proofs.Outline.Listing
import GoFun.Proofs.Outline.Tree
import GoFun.Proofs.Printer.Blank
import GoFun.Proofs.Printer.Header
import GoFun.Proofs.Printer.Idempotent
import GoFun.Proofs.Scope.Fields
import GoFun.Proofs.Scope.Frame
import GoFun.Proofs.Scope.Idempotent
import GoFun.Proofs.Scope.Unbound
import GoFun.Proofs.Source.Cover
import GoFun.Proofs.Source.Excerpt
import GoFun.Proofs.Source.Leading
import GoFun.Proofs.Source.Range
import GoFun.Proofs.Source.Shaped
import GoFun.Proofs.Source.Nested
import GoFun.Proofs.Lex.Clip
import GoFun.Proofs.Lex.NumberKind
