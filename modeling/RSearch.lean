import RSearch.Control.MergeSelect
import RSearch.Control.Webhook
import RSearch.Wal.ReplayRace
import RSearch.Wal.Durability
import RSearch.Wal.GroupCommit
import RSearch.Wal.RoundTrip
import RSearch.Pipeline.Redelivery
import RSearch.Pipeline.FlushStream
import RSearch.Visibility.Purge
import RSearch.Visibility.Stale
import RSearch.Visibility.Replace
import RSearch.Visibility.Converge
import RSearch.Index.DynamicPaths
import RSearch.Index.Tokenizer
import RSearch.Index.Check
import RSearch.Auth.Globs
import RSearch.Auth.Base64
import RSearch.Auth.Revocation
import RSearch.Cluster.Clocks
import RSearch.Replication.Rollback
import RSearch.Replication.Verify
import RSearch.Replication.Drain
import RSearch.Replication.Lifecycle
import RSearch.Auth.Expansion
import RSearch.Search.Wildcard
import RSearch.Search.Total
import RSearch.Search.Scroll
import RSearch.Search.FieldPage
import RSearch.Storage.Keys
import RSearch.Index.StorageDirectory
import RSearch.Mapping.Stored
import RSearch.Loki.Tail
import RSearch.Loki.Time
