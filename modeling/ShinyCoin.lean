import ShinyCoin.TxInfo.Readers
import ShinyCoin.TxInfo.Reverse
import ShinyCoin.Chain.Failure
import ShinyCoin.Stake.Agreement
import ShinyCoin.Ramhog.SignedHash
import ShinyCoin.Ramhog.Release
import ShinyCoin.Reload.Restart
import ShinyCoin.Wallet.Fees
import ShinyCoin.Script.Limits
import ShinyCoin.Script.SigOpCount
import ShinyCoin.Wallet.Spendable
import ShinyCoin.Net.AddrRead
import ShinyCoin.Chain.Merkle
import ShinyCoin.Chain.Maturity
import ShinyCoin.Chain.Compact
import ShinyCoin.Script.Commitment
import ShinyCoin.Chain.Schedule
import ShinyCoin.Net.AddrEvict
import ShinyCoin.Miner.Times
import ShinyCoin.Stake.Selection
import ShinyCoin.Wallet.Passphrase
import ShinyCoin.Wire.PushMessage
import ShinyCoin.Wallet.Books
import ShinyCoin.Wallet.Offered
import ShinyCoin.Wallet.PendingChain
import ShinyCoin.Text.Money
import ShinyCoin.Text.Units
import ShinyCoin.Text.Base64
import ShinyCoin.Text.Base58
import ShinyCoin.Script.Instructions
import ShinyCoin.Wire.StreamQueue
import ShinyCoin.Wire.WalletTx
import ShinyCoin.Wallet.StakeWrap
import ShinyCoin.Sync.AnyOrder
import ShinyCoin.Text.Hex
import ShinyCoin.Chain.Authorized
import ShinyCoin.Sync.Rules
import ShinyCoin.Net.TimeOffset
import ShinyCoin.Net.TxSpread
