import SchemaLang.Config.Reader
import SchemaLang.Grammar.Step
import SchemaLang.Proofs.Compile.Columns
import SchemaLang.Proofs.Compile.Evaluate
import SchemaLang.Proofs.Compile.Layout
import SchemaLang.Proofs.Compile.Shape
import SchemaLang.Proofs.Compile.Table
import SchemaLang.Proofs.Grammar.Precise
import SchemaLang.Proofs.Json.Exchange
import SchemaLang.Proofs.Ledger.Refusal
import SchemaLang.Proofs.Value.Compatible
import SchemaLang.Proofs.Token.Quoted
import SchemaLang.Proofs.Grammar.Nesting
import SchemaLang.Proofs.Grammar.Slice
import SchemaLang.Proofs.Token.Numeral
import SchemaLang.Proofs.Grammar.OnDemand
import SchemaLang.Proofs.Resolve.Stack
import SchemaLang.Proofs.Token.Lookahead
import SchemaLang.Proofs.Location
