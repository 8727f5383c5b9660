import ListPress.Main
import ListPress.Proofs.Representation
import ListPress.Proofs.Reread
import ListPress.Proofs.Chains
import ListPress.Proofs.Decimals
import ListPress.Proofs.JsonInterchange
import ListPress.Proofs.SameContent
import ListPress.Proofs.LiteralStructure
import ListPress.Proofs.SheetBlocks
import ListPress.Proofs.SiteRuns
import ListPress.Proofs.StructureBounds
import ListPress.Proofs.TailReplacement
import ListPress.Proofs.ManifestLoading
import ListPress.Proofs.FailedLoads
import ListPress.Proofs.Substitution
import ListPress.Proofs.Volumes
import ListPress.Proofs.Building
import ListPress.Proofs.Composition
import ListPress.Proofs.Scriptlets
import ListPress.Proofs.ResolvedTexts
import ListPress.Proofs.Indentation
import ListPress.Proofs.Lookahead
import ListPress.Proofs.ViablePrefix
import ListPress.Proofs.Series
import ListPress.Proofs.ReadResults
import ListPress.Proofs.DottedLists
import ListPress.Proofs.NodeEquality
import ListPress.Proofs.PrintedNumbers
import ListPress.Proofs.RegistryRuns
import ListPress.Proofs.PrintedChains
import ListPress.Proofs.Entities
import ListPress.Proofs.Progress
