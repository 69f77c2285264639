import Electra.Net.Alert
import Electra.Ledger.Undo
import Electra.Ledger.StakeModifier
import Electra.Ledger.MerkleRoot
import Electra.Node.BlockDownload
import Electra.Node.SpendRules
import Electra.Node.OrphanStakes
import Electra.Wallet.KeyPoolRun
import Electra.Net.ByteQueue
import Electra.Net.InventoryRelay
import Electra.Net.AddrManCheck
import Electra.Net.TimeData
import Electra.Net.HostPort
import Electra.Qt.ElectraUnits
import Electra.Net.SendReceive
import Electra.Node.ForkChoice
import Electra.Node.TemplateOrphans
import Electra.Disk.ImportComplete
import Electra.Net.SelectTried
import Electra.Node.OwnStakes
import Electra.Wallet.Reaccept
import Electra.Wallet.Supporting
import Electra.Wallet.PassphraseFailures
import Electra.Wallet.RefusedPayment
import Electra.Node.HandedWork
import Electra.Script.FindAndDelete
import Electra.Wallet.BadRecords
import Electra.Wallet.ImportRescan
import Electra.Wallet.MergeVariants
import Electra.Qt.TransactionRecord
import Electra.Chain.BaseUint
import Electra.Script.BuiltScripts
import Electra.Wallet.WalletCalls
import Electra.Wallet.KeyForm
import Electra.Wallet.ReorderTransactions
import Electra.Text.WildcardMatch
import Electra.Script.CanonicalSignature
import Electra.Node.Restart
