import Bofuzz.AccountingStage
import Bofuzz.Attribution
import Bofuzz.AutoCredit
import Bofuzz.CoordinateSpace
import Bofuzz.CreditConservation
import Bofuzz.Extractor.Accepted
import Bofuzz.Extractor.AcfgStatistics
import Bofuzz.Extractor.BlockLookup
import Bofuzz.Extractor.Centrality
import Bofuzz.Extractor.EntryDepth
import Bofuzz.Extractor.Partition
import Bofuzz.Extractor.StaticReachability
import Bofuzz.FeatureKeys
import Bofuzz.FrontierWeight
import Bofuzz.GoodBadSplit
import Bofuzz.Libafl.CmpEncoding
import Bofuzz.Libafl.ConcolicTrace
import Bofuzz.Libafl.ConstructAutomata
import Bofuzz.Libafl.CoreAffinity
import Bofuzz.Libafl.CorpusMinimizer
import Bofuzz.Libafl.Culling
import Bofuzz.Libafl.DictionaryFile
import Bofuzz.Libafl.FeedbackTree
import Bofuzz.Libafl.HitcountsMap
import Bofuzz.Libafl.IntegerSqrt
import Bofuzz.Libafl.Nautilus.Generation
import Bofuzz.Libafl.Nautilus.Mutator
import Bofuzz.Libafl.PowerScore
import Bofuzz.Libafl.RetryCount
import Bofuzz.Libafl.SimdMapFeedback
import Bofuzz.Libafl.StageResume
import Bofuzz.Libafl.StateRestorer
import Bofuzz.Libafl.StringReplacement
import Bofuzz.Libafl.Tmin
import Bofuzz.LockedBest
import Bofuzz.MaskText
import Bofuzz.Monitor
import Bofuzz.Progress
import Bofuzz.Publication
import Bofuzz.RestoredHistory
import Bofuzz.Resume
import Bofuzz.RunningStats
import Bofuzz.SiteWeights
import Bofuzz.Windows
