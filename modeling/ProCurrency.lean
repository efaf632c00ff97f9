import ProCurrency.Merkle.Theorems
import ProCurrency.Thin.Lookup
import ProCurrency.Connect.PreImage
import ProCurrency.Ring.Completeness
import ProCurrency.Kernel.ModifierTheorems
import ProCurrency.Hd.LooseKey
import ProCurrency.Hd.Restart
import ProCurrency.Staking.Replay
import ProCurrency.Smsg.Locks
import ProCurrency.Smsg.Buckets
import ProCurrency.Smsg.Rebuild
import ProCurrency.Connect.AnonChecks
import ProCurrency.Net.Theorems
import ProCurrency.Crypter.KeyStore
import ProCurrency.Thin.CoinAge
import ProCurrency.Wallet.OutputsUnique
import ProCurrency.Wallet.Maturity
import ProCurrency.Connect.RunningSums
import ProCurrency.Wallet.AnonConservation
import ProCurrency.Chain.Locator
import ProCurrency.Wallet.AddressGroupings
import ProCurrency.Wallet.CommitTheorems
import ProCurrency.Hd.MnemonicTheorems
import ProCurrency.Target.Monotone
import ProCurrency.Wallet.CreateTheorems
import ProCurrency.Smsg.Hostile
import ProCurrency.Thin.MerkleMatches
import ProCurrency.Smsg.SendQueue
import ProCurrency.Orphans.Resolve
import ProCurrency.Smsg.Bunches
import ProCurrency.Addr.Restart
import ProCurrency.Script.Signable
import ProCurrency.Net.MruSet
import ProCurrency.Net.AskFor
import ProCurrency.Encoding.Money
import ProCurrency.Encoding.Base64
import ProCurrency.Smsg.Database
import ProCurrency.Kernel.Selection
import ProCurrency.Hd.AccountPath
import ProCurrency.Encoding.ExtKeyText
import ProCurrency.Bloom.Theorems
import ProCurrency.Codec.VarInt
import ProCurrency.Script.PushCodec
import ProCurrency.Script.Limits
import ProCurrency.Store.TxPositions
