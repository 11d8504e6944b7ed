import FormulaQuery.Command.Outcome
import FormulaQuery.Main
import FormulaQuery.Proofs.Injection
import FormulaQuery.Proofs.Scoping
import FormulaQuery.Proofs.FieldOrder
import FormulaQuery.Proofs.Edits
import FormulaQuery.Proofs.Derivation
import FormulaQuery.Proofs.Parsing
import FormulaQuery.Proofs.TypeRules
import FormulaQuery.Proofs.TypeChecking
import FormulaQuery.Proofs.SchemaExtension
import FormulaQuery.Proofs.Composition
import FormulaQuery.Proofs.Sharing
import FormulaQuery.Proofs.FanOut
import FormulaQuery.Proofs.Dependencies
import FormulaQuery.Proofs.MixedBatch
import FormulaQuery.Proofs.Relocation
import FormulaQuery.Proofs.Spelling
import FormulaQuery.Proofs.Cutting
import FormulaQuery.Proofs.Failure
import FormulaQuery.Proofs.Settling
import FormulaQuery.Proofs.LetterCase
import FormulaQuery.Proofs.Places
import FormulaQuery.Proofs.Operands
import FormulaQuery.Proofs.Rendering
import FormulaQuery.Proofs.SpelledFormulas
import FormulaQuery.Proofs.Loading
import FormulaQuery.Proofs.Violations
import FormulaQuery.Proofs.AliasSearch
import FormulaQuery.Proofs.Constants
import FormulaQuery.Proofs.DepthLimit
import FormulaQuery.Proofs.NumberLiterals
