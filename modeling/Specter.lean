import Specter.Proofs.Aof
import Specter.Proofs.Listing
import Specter.Proofs.Retry
import Specter.Proofs.Fingers
import Specter.Proofs.RingStore
import Specter.Proofs.Leak
import Specter.Proofs.Joins
import Specter.Proofs.HandingOn
import Specter.Proofs.Tokens
import Specter.Proofs.Remote
import Specter.Proofs.RetryKv
import Specter.Proofs.Routes
import Specter.Proofs.Saves
import Specter.Proofs.Authority
import Specter.Proofs.Registry
import Specter.Proofs.Notify
import Specter.Proofs.Peers
import Specter.Proofs.Storage
import Specter.Proofs.Renewal
import Specter.Proofs.GrantIndex
import Specter.Proofs.RouteCache
import Specter.Proofs.WafCache
import Specter.Proofs.Publication
import Specter.Proofs.TokenClient
import Specter.Proofs.Identity
import Specter.Proofs.Syncer
import Specter.Proofs.WafPolicy
import Specter.Proofs.GatewayCase
import Specter.Proofs.DnsView
import Specter.Proofs.RulesCache
import Specter.Proofs.Manager
import Specter.Proofs.Identifiers
import Specter.Proofs.NodeState
