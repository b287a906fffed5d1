import Xcelerator.Foundations.Machine
import Xcelerator.Foundations.Inertia
import Xcelerator.Foundations.Sturm
import Xcelerator.Foundations.Winding
import Xcelerator.Foundations.BinaryRounding
import Xcelerator.Numerics.ModularProduct
import Xcelerator.Numerics.ResidueTreeSoundness
import Xcelerator.Numerics.ModularProductSoundness
import Xcelerator.Numerics.WideProduct
import Xcelerator.Numerics.WideProductSoundness
import Xcelerator.Numerics.DigitProduct
import Xcelerator.Numerics.DigitProductSoundness
import Xcelerator.Numerics.ExactProduct
import Xcelerator.Numerics.ExactProductSoundness
import Xcelerator.Numerics.CudaScheduler
import Xcelerator.Numerics.CudaSchedulerSoundness
import Xcelerator.Numerics.Interval
import Xcelerator.Numerics.MpfrInterval
import Xcelerator.Numerics.SymmetricInertia
import Xcelerator.Numerics.SymmetricInertiaSoundness
import Xcelerator.Numerics.SturmRoots
import Xcelerator.Numerics.SturmRootsSoundness
import Xcelerator.Numerics.RootIsolationSoundness
import Xcelerator.Numerics.Contour
import Xcelerator.Numerics.ContourSoundness
import Xcelerator.Foundations.RemoteRefs
import Xcelerator.Cache.Basic
import Xcelerator.Cache.PrivateCoordination
import Xcelerator.Cache.LeaseFencing
import Xcelerator.Cache.PublicationJournal
import Xcelerator.Cache.JournalOperations
import Xcelerator.Cache.JournalOperationsSoundness
import Xcelerator.Cache.ArtifactState
import Xcelerator.Core.RunResources
import Xcelerator.Foundations.TopologicalOrder
import Xcelerator.Cache.Planner
import Xcelerator.Cache.PlannerSoundness
import Xcelerator.Foundations.DottedPath
import Xcelerator.Core.ConfigResolution
import Xcelerator.Core.ConfigResolutionSoundness
import Xcelerator.Foundations.Rouche
import Xcelerator.Foundations.SimplexIntegral
import Xcelerator.Foundations.Enumeration
import Xcelerator.Variational.Maynard
import Xcelerator.Variational.MaynardForms
import Xcelerator.Variational.MaynardSymmetric
import Xcelerator.Variational.MaynardEnumeration
import Xcelerator.Variational.MaynardBudget
import Xcelerator.Variational.MaynardOrbits
import Xcelerator.Foundations.SchurTest
import Xcelerator.Variational.MaynardBand
import Xcelerator.Foundations.Workspace
import Xcelerator.Certify.Records
import Xcelerator.Certify.RationalInertia
import Xcelerator.Certify.RationalInertiaSoundness
import Xcelerator.Foundations.TriangularFactors
import Xcelerator.Certify.ExactLdlt
import Xcelerator.Certify.MpfrInertia
import Xcelerator.Certify.PortableInertia
import Xcelerator.Certify.SelectedEigenvalue
import Xcelerator.Certify.SelectedEigenvalueSoundness
import Xcelerator.Certify.SpectralGap
import Xcelerator.Cache.Digest
import Xcelerator.Cache.Transport
import Xcelerator.Cache.TransportSoundness
import Xcelerator.Foundations.Agreement
import Xcelerator.Numerics.ReflectedInertia
import Xcelerator.Numerics.ReflectedInertiaSoundness
import Xcelerator.Foundations.DirectedRounding
import Xcelerator.Numerics.MpfrFloat
import Xcelerator.Numerics.MpfrBall
import Xcelerator.Numerics.MpfrBallSoundness
import Xcelerator.Numerics.MpfrComplexSoundness
import Xcelerator.Numerics.MpfrIdeal
import Xcelerator.Numerics.SelectedProduct
import Xcelerator.Numerics.MpfrExpression
import Xcelerator.Numerics.PolynomialCertificates
import Xcelerator.Cache.PublicationBatches
import Xcelerator.Cache.CanonicalJson
import Xcelerator.Cache.CapacityLedger
import Xcelerator.Cache.Topology
import Xcelerator.Cache.TopologyRollover
import Xcelerator.Foundations.SelfDelimiting
import Xcelerator.Cache.CanonicalJsonInjective
import Xcelerator.Foundations.Binary64
import Xcelerator.Foundations.Tridiagonal
import Xcelerator.Solver.ExactSturm
import Xcelerator.Foundations.Calendar
import Xcelerator.Foundations.AsciiDecimal
import Xcelerator.Core.Timestamp
import Xcelerator.Cache.VersionPrecedence
import Xcelerator.Core.DecimalLiteral
import Xcelerator.Core.DecimalLiteralSoundness
import Xcelerator.Core.DecimalComparison
import Xcelerator.Core.DecimalCanonical
import Xcelerator.Core.Hypothesis
import Xcelerator.Foundations.Binary64Rounding
import Xcelerator.Numerics.Binary64TripleSum
import Xcelerator.Numerics.Binary64TripleSumSoundness
import Xcelerator.Numerics.RationalIntervalProduct
import Xcelerator.Numerics.RationalIntervalProductSoundness
import Xcelerator.Foundations.PairwiseTree
import Xcelerator.Numerics.PairwiseReduction
import Xcelerator.Numerics.PairwiseReductionSoundness
import Xcelerator.Numerics.PrefixFactor
import Xcelerator.Numerics.PrefixFactorSoundness
import Xcelerator.Foundations.RadixGrid
import Xcelerator.Numerics.DecimalPersistence
import Xcelerator.Foundations.LeastRecent
import Xcelerator.Cache.ValidatedMemo
import Xcelerator.Cache.ValidatedMemoSoundness
import Xcelerator.Solver.BoundaryCount
import Xcelerator.Spectral.ExactCutoff
import Xcelerator.Foundations.WorklistClosure
import Xcelerator.Cache.BundleClosure
import Xcelerator.Cache.BundleClosureSoundness
import Xcelerator.Numerics.PortableFloat
import Xcelerator.Numerics.PortableFloatSoundness
import Xcelerator.Variational.MaynardAdaptive
import Xcelerator.Variational.MaynardAdaptiveSoundness
import Xcelerator.Spectral.MatrixDecode
import Xcelerator.Spectral.MatrixDocument
import Xcelerator.Spectral.MatrixStream
import Xcelerator.Spectral.MatrixDecodeSoundness
import Xcelerator.Foundations.RowReduction
import Xcelerator.Spectral.ResearchExact
import Xcelerator.Spectral.ResearchExactSoundness
import Xcelerator.Foundations.NewtonOperator
import Xcelerator.Numerics.MpfrRounded
import Xcelerator.Root.IntervalNewton
import Xcelerator.Root.IntervalNewtonSoundness
import Xcelerator.Core.StreamedJson
import Xcelerator.Core.StreamedJsonSoundness
import Xcelerator.Cache.ArtifactManifest
import Xcelerator.Cache.EphemeralStore
import Xcelerator.Foundations.SignBracket
import Xcelerator.Root.PointRefinement
import Xcelerator.Root.PointRefinementSoundness
import Xcelerator.Cache.Durability
import Xcelerator.Cache.DurabilitySoundness
import Xcelerator.Foundations.GramSchmidt
import Xcelerator.Foundations.ShiftedJacobi
import Xcelerator.Foundations.SimplexJacobi
import Xcelerator.Variational.MaynardBasis
import Xcelerator.Variational.MaynardBasisSoundness
import Xcelerator.Variational.MaynardPkd
import Xcelerator.Variational.MaynardPolynomials
import Xcelerator.Variational.MaynardPkdSoundness
import Xcelerator.Certify.EigenvalueCount
import Xcelerator.Certify.ErrorBudget
import Xcelerator.Numerics.MeromorphicContour
