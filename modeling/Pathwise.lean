import Pathwise.CommandLine.Disk
import Pathwise.Logging
import Pathwise.Main
import Pathwise.Oracle.Document
import Pathwise.Proofs.Agreement
import Pathwise.Proofs.CacheTransparency
import Pathwise.Proofs.CachedAnswers
import Pathwise.Proofs.ConstraintSlices
import Pathwise.Proofs.FormulaText
import Pathwise.Proofs.HashConsing
import Pathwise.Proofs.KnownCounterexamples
import Pathwise.Proofs.OrderIndependence
import Pathwise.Proofs.PathAgreement
import Pathwise.Proofs.StaleBranches
import Pathwise.Proofs.Stopping
import Pathwise.Script.Document
import Pathwise.Tools
import Pathwise.Web
import Pathwise.Proofs.InverseLaws
import Pathwise.Proofs.FixedTerms
import Pathwise.Proofs.GroundTerms
import Pathwise.Proofs.WordCells
import Pathwise.Proofs.LinkedTree
import Pathwise.Proofs.Endings
import Pathwise.Proofs.Verdicts
import Pathwise.Proofs.CheckedModels
import Pathwise.Proofs.EquivalentVariants
import Pathwise.Proofs.EuclidGcd
import Pathwise.Proofs.PathLifecycle
import Pathwise.Proofs.GuardedConstructors
import Pathwise.Proofs.WidthDiscipline
import Pathwise.Proofs.SymbolLists
import Pathwise.Proofs.StoredInputs
