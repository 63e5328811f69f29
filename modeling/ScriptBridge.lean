import ScriptBridge.Main
import ScriptBridge.Proofs.Bridge.ContainerTypes
import ScriptBridge.Proofs.Bridge.HostTypes
import ScriptBridge.Proofs.Bridge.MemberNames
import ScriptBridge.Proofs.Bridge.MemberTexts
import ScriptBridge.Proofs.Bridge.NameContainers
import ScriptBridge.Proofs.Bridge.Overloads
import ScriptBridge.Proofs.Bridge.PathLines
import ScriptBridge.Proofs.Bridge.TypeBytes
import ScriptBridge.Proofs.Command.ArgumentGroups
import ScriptBridge.Proofs.Command.Verbosity
import ScriptBridge.Proofs.Engine.CatalogCalls
import ScriptBridge.Proofs.Engine.CatalogTables
import ScriptBridge.Proofs.Engine.MemberChains
import ScriptBridge.Proofs.Engine.Signatures
import ScriptBridge.Proofs.File.Folder
import ScriptBridge.Proofs.File.NormalPaths
import ScriptBridge.Proofs.File.Paths
import ScriptBridge.Proofs.File.ResourcePaths
import ScriptBridge.Proofs.File.ScriptDiscovery
import ScriptBridge.Proofs.File.Trees
import ScriptBridge.Proofs.File.UnitWriting
import ScriptBridge.Proofs.Generation.Accounting
import ScriptBridge.Proofs.Generation.BaseReferences
import ScriptBridge.Proofs.Generation.ExistingOnly
import ScriptBridge.Proofs.Generation.FileNames
import ScriptBridge.Proofs.Generation.SourceOrder
import ScriptBridge.Proofs.Generation.UnreadableScripts
import ScriptBridge.Proofs.Lineage.Ancestors
import ScriptBridge.Proofs.Lineage.Answers
import ScriptBridge.Proofs.Lineage.Closure
import ScriptBridge.Proofs.Lineage.Diagnostics
import ScriptBridge.Proofs.Lineage.Inheritance
import ScriptBridge.Proofs.Lineage.OtherPlans
import ScriptBridge.Proofs.Lineage.Problems
import ScriptBridge.Proofs.Lineage.Resolution
import ScriptBridge.Proofs.Lineage.Visits
import ScriptBridge.Proofs.Lineage.Walks
import ScriptBridge.Proofs.Manifest.Decoding
import ScriptBridge.Proofs.Proxy.MemberNames
import ScriptBridge.Proofs.Proxy.ParameterNames
import ScriptBridge.Proofs.Proxy.Suppression
import ScriptBridge.Proofs.Script.Brackets
import ScriptBridge.Proofs.Script.ByteCuts
import ScriptBridge.Proofs.Script.CarriageReturns
import ScriptBridge.Proofs.Script.CutCases
import ScriptBridge.Proofs.Script.Cutting
import ScriptBridge.Proofs.Script.DeclarationEnds
import ScriptBridge.Proofs.Script.DeclaredNames
import ScriptBridge.Proofs.Script.IndentedLines
import ScriptBridge.Proofs.Script.InitialValues
import ScriptBridge.Proofs.Script.Joining
import ScriptBridge.Proofs.Script.LaterLines
import ScriptBridge.Proofs.Script.LineBreaks
import ScriptBridge.Proofs.Script.LineByLine
import ScriptBridge.Proofs.Script.LineEndings
import ScriptBridge.Proofs.Script.LineReading
import ScriptBridge.Proofs.Script.NameTokens
import ScriptBridge.Proofs.Script.PieceSources
import ScriptBridge.Proofs.Script.Places
import ScriptBridge.Proofs.Script.Respelling
import ScriptBridge.Proofs.Script.Scanner
import ScriptBridge.Proofs.Script.ScannerCuts
import ScriptBridge.Proofs.Script.ScannerTurns
import ScriptBridge.Proofs.Script.StatementEnds
import ScriptBridge.Proofs.Script.Stretches
import ScriptBridge.Proofs.Script.TokenOrder
import ScriptBridge.Proofs.Script.TokenSpans
import ScriptBridge.Proofs.Script.TrailingBlanks
import ScriptBridge.Proofs.Script.TypeReading
import ScriptBridge.Proofs.Script.Walk
import ScriptBridge.Proofs.Script.WalkDeclarations
import ScriptBridge.Proofs.Script.WalkReading
import ScriptBridge.Proofs.Script.WalkSteps
import ScriptBridge.Proofs.Script.WalkToEnd
import ScriptBridge.Proofs.Script.WalkTypes
import ScriptBridge.Proofs.Script.Written
import ScriptBridge.Proofs.Script.WrittenClass
import ScriptBridge.Proofs.Script.WrittenReading
import ScriptBridge.Proofs.Script.WrittenTokens
import ScriptBridge.Proofs.Sorted
import ScriptBridge.Proofs.Text.ByteChars
import ScriptBridge.Proofs.Text.ByteOffsets
import ScriptBridge.Proofs.Text.DigestChanges
import ScriptBridge.Proofs.Text.DigestDigits
import ScriptBridge.Proofs.Text.Json
import ScriptBridge.Proofs.Text.LineEnds
import ScriptBridge.Proofs.Text.Lines
import ScriptBridge.Proofs.Text.LiteralBytes
import ScriptBridge.Proofs.Text.LiteralValues
import ScriptBridge.Proofs.Text.Nesting
