import Astreum.BlockReads
import Astreum.LoanRuns
import Astreum.Parser
import Astreum.Rounding
import Astreum.RadixAll
import Astreum.ForkMerge
import Astreum.HeadPointer
import Astreum.StoragePayments
import Astreum.RoundTrip
import Astreum.Collateral
import Astreum.RecordWalk
import Astreum.BlockCodec
import Astreum.RadixCells
import Astreum.ColdMap
import Astreum.CheckedOperators
import Astreum.AssembledEnv
import Astreum.QuotedAtoms
import Astreum.ForkChoice
import Astreum.Requests
import Astreum.DecoderTotal
import Astreum.IncomingQueue
import Astreum.ColdCrash
import Astreum.ValidationWorker
import Astreum.ReceiptMoney
import Astreum.HashTree
import Astreum.ClaimSchedule
import Astreum.ClaimWorker
import Astreum.PlannedClaims
import Astreum.Shapes
import Astreum.RadixWalk
import Astreum.ServedNodes
import Astreum.WalkedNodes
import Astreum.WalkedKeys
import Astreum.RadixReplay
import Astreum.Statistics
import Astreum.HashTreeBinding
import Astreum.MerkleProofs
import Astreum.ShapeWalk
import Astreum.TokenStream
import Astreum.ReaderErrors
import Astreum.SourceText
import Astreum.QuoteShorthand
import Astreum.SequenceLaws
import Astreum.ContractStorage
import Astreum.HashEquality
import Astreum.BreadthFirst
import Astreum.StoragePart
import Astreum.RadixPaging
import Astreum.RadixRounds
import Astreum.LoanPricing
import Astreum.WireForms
import Astreum.FoundPages
import Astreum.Varints
import Astreum.StorageRequests
import Astreum.StorageCodec
import Astreum.HotStorage
import Astreum.ClassGroup
import Astreum.ColdScan
import Astreum.Climb
import Astreum.ReceiptWalk
import Astreum.ReceiptFees
import Astreum.Providers
import Astreum.Route
import Astreum.Decimals
import Astreum.Currency
import Astreum.AmountText
import Astreum.ClaimLoop
import Astreum.ClaimRecords
import Astreum.Culling
import Astreum.SharedCells
import Astreum.RequestBuffer
import Astreum.BlockHeads
import Astreum.BloomCells
import Astreum.BuiltHeads
import Astreum.PendingAds
import Astreum.TransactionSearch
import Astreum.BlockMessage
