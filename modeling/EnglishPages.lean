import EnglishPages.Main
import EnglishPages.Proofs.BlockShape
import EnglishPages.Proofs.DocumentSource
import EnglishPages.Proofs.HeadImports
import EnglishPages.Proofs.PageTags
import EnglishPages.Proofs.ScriptBraces
import EnglishPages.Proofs.ScriptResets
import EnglishPages.Proofs.ImportResolution
import EnglishPages.Proofs.Phrases
import EnglishPages.Proofs.StatementSpans
import EnglishPages.Proofs.Layout
import EnglishPages.Proofs.ExplicitBlocks
import EnglishPages.Proofs.ScriptComments
import EnglishPages.Proofs.PathNames
import EnglishPages.Proofs.TreeAccess
import EnglishPages.Proofs.CommandRuns
import EnglishPages.Proofs.BuildOutputs
import EnglishPages.Proofs.CompileTargets
import EnglishPages.Proofs.InlinedCode
import EnglishPages.Proofs.BlockHistory
import EnglishPages.Proofs.DocumentJson
import EnglishPages.Proofs.ParseFailures
import EnglishPages.Proofs.SourceJoins
import EnglishPages.Proofs.BlankSurroundings
import EnglishPages.Proofs.ScriptLines
import EnglishPages.Proofs.ClassBodies
import EnglishPages.Proofs.ImportLines
import EnglishPages.Proofs.TokenPlaces
import EnglishPages.Proofs.StyleBraces
import EnglishPages.Proofs.SettingsTexts
import EnglishPages.Proofs.Escaping
import EnglishPages.Proofs.StringLiterals
import EnglishPages.Proofs.CursorProgress
