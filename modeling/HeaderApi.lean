import HeaderApi.Main
import HeaderApi.Proofs.Tiling
import HeaderApi.Proofs.ParseErrors
import HeaderApi.Proofs.TransformTwice
import HeaderApi.Proofs.EmissionOrder
import HeaderApi.Proofs.PatchNames
import HeaderApi.Proofs.RunAgain
import HeaderApi.Proofs.Prototypes
import HeaderApi.Proofs.PrintedParts
import HeaderApi.Proofs.EntryLines
import HeaderApi.Proofs.TypeTargets
import HeaderApi.Proofs.SelectedFiles
import HeaderApi.Proofs.ResolvedIncludes
import HeaderApi.Proofs.ParsedIncludes
import HeaderApi.Proofs.BalancedText
import HeaderApi.Proofs.AmalgamAgain
import HeaderApi.Proofs.StoredRules
import HeaderApi.Proofs.ReadingOptions
import HeaderApi.Proofs.FunctionEntries
import HeaderApi.Proofs.DocFates
import HeaderApi.Proofs.LayeredOrder
import HeaderApi.Proofs.BreadthFirst
import HeaderApi.Proofs.GroupedEntries
import HeaderApi.Proofs.TargetTables
import HeaderApi.Proofs.OpenScopes
import HeaderApi.Proofs.PrintedEnums
import HeaderApi.Proofs.ParameterLists
import HeaderApi.Proofs.LookAhead
import HeaderApi.Proofs.FunctionBodies
import HeaderApi.Proofs.RecordBodies
import HeaderApi.Proofs.AdjacentDocs
import HeaderApi.Proofs.PrintedDefinitions
import HeaderApi.Proofs.Initializers
import HeaderApi.Proofs.ParameterComments
import HeaderApi.Proofs.MarkSpacing
import HeaderApi.Proofs.ParameterSeparators
import HeaderApi.Proofs.EnumeratorValues
import HeaderApi.Proofs.StableSpelling
import HeaderApi.Proofs.BlockEnds
import HeaderApi.Proofs.PatternReading
