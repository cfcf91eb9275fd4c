import LoxLang.Main
import LoxLang.Proofs.Appending.Composition
import LoxLang.Proofs.Appending.Exhaustion
import LoxLang.Proofs.Depth.Sessions
import LoxLang.Proofs.ExitCodes
import LoxLang.Proofs.ForLoops.Sessions
import LoxLang.Proofs.Forest
import LoxLang.Proofs.Grammar.Exactness
import LoxLang.Proofs.Homes.Sessions
import LoxLang.Proofs.Joining
import LoxLang.Proofs.Layout
import LoxLang.Proofs.Lexical.Lookups
import LoxLang.Proofs.Lines
import LoxLang.Proofs.Links.Sessions
import LoxLang.Proofs.Nodes.Sessions
import LoxLang.Proofs.Numerals.Printed
import LoxLang.Proofs.Placement.Distances
import LoxLang.Proofs.Placement.Initializers
import LoxLang.Proofs.Placement.Misplacements
import LoxLang.Proofs.Printing.Reading
import LoxLang.Proofs.Protocol.Sessions
import LoxLang.Proofs.Receivers.Sessions
import LoxLang.Proofs.Refusals
import LoxLang.Proofs.Renaming.Sessions
import LoxLang.Proofs.Unwinding.Sessions
import LoxLang.Tree.Outline
