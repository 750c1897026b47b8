import EcmaScript.Main
import EcmaScript.Tree.Outline
import EcmaScript.Tree.Rename
import EcmaScript.Proofs.ClassScopes.Resolver
import EcmaScript.Proofs.Grammar.DefinedNames
import EcmaScript.Proofs.Grammar.MemberHeads
import EcmaScript.Proofs.Printing.Rereading
import EcmaScript.Proofs.Relation.Conservative
import EcmaScript.Proofs.Relation.Impartial
import EcmaScript.Proofs.Relation.Respelled
import EcmaScript.Proofs.Relation.Replayed
import EcmaScript.Proofs.Tree.Written
import EcmaScript.Proofs.Joining.Programs
import EcmaScript.Proofs.Lexer.Layout
import EcmaScript.Proofs.Text.StringLiterals
import EcmaScript.Proofs.Relation.Safety
import EcmaScript.Proofs.PrivateNames.Reported
import EcmaScript.Proofs.Printing.ClassBodies
import EcmaScript.Proofs.Number.Literals
import EcmaScript.Proofs.Number.Ordering
import EcmaScript.Proofs.Number.RadixDigits
import EcmaScript.Proofs.Parser.PeekedPlaces
import EcmaScript.Proofs.Printing.Arrays
import EcmaScript.Proofs.Relation.Traces
import EcmaScript.Proofs.Text.Positions
