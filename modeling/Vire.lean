import Vire.Conf.Proofs.Cache
import Vire.Auth
import Vire.Dict.Proofs.Incremental
import Vire.Proto.Inline
import Vire.Keyspace.Proofs.Evict
import Vire.Keyspace.Proofs.ExpireCycle
import Vire.Keyspace.Proofs.ListRemove
import Vire.Keyspace.Proofs.ByteRange
import Vire.Keyspace.Proofs.BitCommands
import Vire.Keyspace.Proofs.HllMalformed
import Vire.Keyspace.Proofs.HllSums
import Vire.Keyspace.Proofs.Increment
import Vire.Keyspace.Proofs.SetFraming
import Vire.Keyspace.Proofs.SetResults
import Vire.Keyspace.Proofs.SetPop
import Vire.Keyspace.Proofs.ScanCommands
import Vire.Keyspace.Proofs.Keys
import Vire.Connection
import Vire.Jump.Proofs.Ids
import Vire.Jump.Proofs.Coverage
import Vire.Jump.Proofs.ExactlyOnce
import Vire.Conf.Proofs.Numbers
import Vire.Digits
import Vire.Glob
import Vire.Conf.Proofs.Rewrite
