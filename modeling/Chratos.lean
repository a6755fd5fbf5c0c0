import Chratos.Properties.SpendAuth
import Chratos.Properties.ProofOfWork
import Chratos.Properties.Reconstruction
import Chratos.Properties.TemplateCommitment
import Chratos.Properties.FailureMarks
import Chratos.Properties.Overwrite
import Chratos.Properties.IndexRestore
import Chratos.Properties.ReorgSafety
import Chratos.Properties.NodeRuns
import Chratos.Properties.CacheLayers
import Chratos.Properties.TxRoundTrip
import Chratos.Properties.NullEntries
import Chratos.Properties.Signalling
import Chratos.Properties.PartialTrees
import Chratos.Properties.StakeModifier
import Chratos.Properties.ScriptFlags
import Chratos.Script.SignatureEncoding
import Chratos.Relay.BloomFilter
import Chratos.Properties.Multisig
import Chratos.Properties.ScriptBounds
import Chratos.Properties.CheckedMark
import Chratos.Properties.DividendThreshold
import Chratos.Properties.Retargeting
import Chratos.Properties.AddressQueries
import Chratos.Properties.WalletMarks
import Chratos.Properties.CreateTransaction
import Chratos.Properties.BalanceHistory
import Chratos.Properties.KernelAgreement
import Chratos.Mempool.RollingFee
import Chratos.Chain.LockPoints
import Chratos.Chain.Locator
import Chratos.Relay.BlockTransactionsRequest
import Chratos.MoneyText
import Chratos.Hash
