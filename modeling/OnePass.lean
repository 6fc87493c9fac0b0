import OnePass.Command.Build
import OnePass.Command.Execute
import OnePass.Command.Files
import OnePass.Compile
import OnePass.Image.Decoding
import OnePass.Image.Listing
import OnePass.Machine
import OnePass.Main
import OnePass.Token.Cursor
import OnePass.Proofs.Recognition
import OnePass.Proofs.Initialization
import OnePass.Proofs.CountingLoops
import OnePass.Proofs.Grammar
import OnePass.Proofs.StoredForm
import OnePass.Proofs.BalancedScopes
import OnePass.Proofs.LexicalScoping
import OnePass.Proofs.NameResolution
import OnePass.Proofs.ParserCompleteness
import OnePass.Proofs.TypeChecking
import OnePass.Proofs.ValidWords
import OnePass.Proofs.WrittenTokens
import OnePass.Proofs.TokenLayout
import OnePass.Proofs.AlignedRuns
import OnePass.Proofs.UnreadableLines
import OnePass.Proofs.CutImages
import OnePass.Proofs.WrittenBack
import OnePass.Proofs.CallIsolation
import OnePass.Proofs.LaterDeclarations
import OnePass.Proofs.UnplacedGeneration
import OnePass.Proofs.FunctionLinkage
import OnePass.Proofs.BlockComments
import OnePass.Proofs.SeparateStorage
import OnePass.Proofs.UntouchedOutput
import OnePass.Proofs.InitializationOrder
import OnePass.Proofs.AppendedCode
import OnePass.Proofs.InputRuns
import OnePass.Proofs.FormatGrammar
import OnePass.Proofs.RandomRange
import OnePass.Proofs.ListingLines
import OnePass.Proofs.ScopeStack
import OnePass.Proofs.LookaheadRuns
import OnePass.Proofs.TreePlaces
import OnePass.Proofs.ReadBack
import OnePass.Proofs.LexemeStream
import OnePass.Proofs.Underlining
import OnePass.Proofs.BarePlaces
import OnePass.Proofs.TreeShapes
import OnePass.Proofs.TreeShapes
