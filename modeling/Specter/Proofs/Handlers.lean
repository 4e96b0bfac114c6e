import Specter.Handlers
import Specter.Lib.Rely

/-!
# What the handlers are made of

Each handler writes a few keys at most; the rest of its steps read, hold a lease, or are about a
session.  The handlers are put together from their parts here, once for all properties.
-/

namespace Specter.Tunnel

open Lib (Prog Rules)

/-- Steps that read the store, the clock or DNS, and those of a scheduler. -/
def Act.isReading : Act → Bool
  | .kv (.get _) | .kv (.prefixList _) | .kv (.prefixContains ..) | .now | .ctxErr | .lookupCNAME _
  | .next | .select => true
  | _ => false

def Act.isLease : Act → Bool
  | .kv (.acquire _) | .kv (.release ..) => true
  | _ => false

def Act.isOpening : Act → Bool
  | .session (.new _) | .session (.on _ (.activate _)) | .session (.on _ (.setAuthority ..)) => true
  | _ => false

def Act.isRenewing : Act → Bool
  | .session (.on _ (.extend ..)) => true
  | _ => false

/-- The other steps that are about sessions, apart from removing one. -/
def Act.isSession : Act → Bool
  | .session (.new _) | .session (.on _ (.activate _)) | .session (.on _ (.setAuthority ..))
  | .session (.on _ (.extend ..)) | .session (.on _ .remove) => false
  | .session _ => true
  | _ => false

def Task.isSession : Task → Bool
  | .watch _ | .closeConn _ | .maintain _ | .maintaining _ | .closeOnCancel _ | .expiryTimer _ =>
    true
  | _ => false

section Only

variable {φ : Act → Prop} {ψ : Task → Prop} {α : Type} {w : WafCodec}

theorem only_gather (h : ∀ a : Act, a.isReading = true → φ a) : ∀ (n : ℕ) {jobs : List (ℕ × Rpc α)},
    (∀ j ∈ jobs, j.2.Only φ ψ) → (gather n jobs).Only φ ψ
  | 0, _, _ => trivial
  | n + 1, jobs, hjobs => by
    refine .act (h _ rfl) fun i => ?_
    split
    · trivial
    · rename_i j job hj
      refine .bind (hjobs _ (List.mem_of_getElem? hj)) fun _ => ?_
      refine .bind (only_gather h n fun k hk => ?_) fun _ => trivial
      exact hjobs k (List.mem_of_mem_eraseIdx hk)

theorem only_promiseAll (h : ∀ a : Act, a.isReading = true → φ a) {jobs : List (Rpc α)}
    (hjobs : ∀ j ∈ jobs, j.Only φ ψ) : (promiseAll jobs).Only φ ψ :=
  .bind (only_gather h _ fun _ hj => hjobs _ (List.of_mem_zip hj).2) fun _ => trivial

theorem only_withLease (h : ∀ a : Act, a.isLease = true → φ a) {key : Key}
    {failed : ChordError → RpcError} {p : Rpc (Except RpcError α)} (hp : p.Only φ ψ) :
    (withLease key failed p).Only φ ψ := by
  refine .act (h _ rfl) fun r => ?_
  cases r with
  | error e => trivial
  | ok lease =>
    exact .bind hp fun _ =>
      .act (h _ rfl) fun _ => trivial

section Reading

variable (h : ∀ a : Act, a.isReading = true → φ a) {id : String} (owner : Token)
  {normalize : String → Except String Hostname}

include h

theorem only_readDelegation (id : String) : (readDelegation id).Only φ ψ := by
  unfold readDelegation
  split_ifs
  · trivial
  · refine .act (h _ rfl) fun r => ?_
    split <;> (try split_ifs) <;> trivial

theorem only_findCustomHostname (hostname : Hostname) :
    (findCustomHostname hostname).Only φ ψ := by
  refine .act (h _ rfl) fun r => ?_
  split <;> trivial

theorem only_ownsHostname (hostname : Hostname) : (ownsHostname owner hostname).Only φ ψ := by
  refine .act (h _ rfl) fun r => ?_
  split
  · trivial
  · trivial
  · split_ifs
    · refine .bind (only_findCustomHostname h hostname) fun r => ?_
      split <;> trivial
    · trivial

theorem only_verifyDelegatedAuthority (rec : DelegationRecord) :
    (verifyDelegatedAuthority rec).Only φ ψ := by
  refine .bind (only_ownsHostname h _ _) fun r => ?_
  split <;> trivial

theorem only_listedGrant (id : String) : (listedGrant owner id).Only φ ψ := by
  refine .bind (only_readDelegation h id) fun r => ?_
  split <;> (try split_ifs) <;> trivial

theorem only_listBatches (owner : Token) : ∀ batches : List (List String),
    (listBatches owner batches).Only φ ψ
  | [] => trivial
  | batch :: rest => by
    refine .bind (only_promiseAll h fun j hj => ?_) fun r => ?_
    · obtain ⟨id, _, rfl⟩ := List.mem_map.1 hj
      exact only_listedGrant h owner id
    · split
      · trivial
      · refine .bind (only_listBatches owner rest) fun r => ?_
        split <;> trivial

theorem only_listDelegations : (listDelegations owner).Only φ ψ := by
  refine .act (h _ rfl) fun r => ?_
  split
  · trivial
  · refine .bind (only_listBatches h owner _) fun r => ?_
    split <;> trivial

theorem only_checkAcme (g : Acme) (hostname : Hostname) (proof : Bool) (token : Token)
    (client : Peer) : (checkAcme g hostname proof token client).Only φ ψ := by
  unfold checkAcme
  split_ifs
  · trivial
  · trivial
  · trivial
  · refine .bind (only_findCustomHostname h hostname) fun r => ?_
    split <;> (try split_ifs) <;> trivial

theorem only_readHostWAF (w : WafCodec) (hostname : Hostname) :
    (readHostWAF w hostname).Only φ ψ := by
  refine .act (h _ rfl) fun r => ?_
  split <;> trivial

theorem only_requireWAFHostname (hostname : Hostname) :
    (requireWAFHostname owner hostname).Only φ ψ := by
  refine .bind (only_ownsHostname h owner hostname) fun r => ?_
  split <;> trivial

theorem only_getHostWAF (normalize : String → Except String Hostname) (w : WafCodec) (owner : Token)
    (hostname : Hostname) : (getHostWAF normalize w owner hostname).Only φ ψ := by
  unfold getHostWAF
  split
  · trivial
  · refine .bind (only_requireWAFHostname h _ _) fun r => ?_
    split
    · trivial
    · refine .bind (only_readHostWAF h w _) fun r => ?_
      split <;> trivial

theorem only_lookupDestination (address : String) : (lookupDestination address).Only φ ψ := by
  refine .act (h _ rfl) fun r => ?_
  split <;> trivial

theorem only_mintDelegation {sha256 : Bytes → Config.Digest} {owner : Token} {secret : Bytes}
    (happend : φ (.kv (.prefixAppend (.clientDelegations owner) (delegationID sha256 secret))))
    (hput : ∀ v, φ (.kv (.put (.delegation (delegationID sha256 secret)) v))) (hostname : Hostname)
    (expiresAt : ℤ) :
    (mintDelegation normalize sha256 owner hostname expiresAt secret).Only φ ψ := by
  unfold mintDelegation
  split
  · trivial
  · refine .act (h _ rfl) fun time => ?_
    split_ifs
    · trivial
    · refine .bind (only_verifyDelegatedAuthority h _) fun r => ?_
      split
      · trivial
      · refine .act (h _ rfl) fun r => ?_
        split
        · trivial
        · split_ifs
          · trivial
          · refine .act happend fun r => ?_
            split
            · trivial
            · refine .act (hput _) fun r => ?_
              split <;> trivial

omit h in
theorem only_deleteDelegation {owner : Token} (hdel : φ (.kv (.delete (.delegation id))))
    (hrem : φ (.kv (.prefixRemove (.clientDelegations owner) id))) :
    (deleteDelegation owner id).Only φ ψ := by
  refine .act hdel fun r => ?_
  split
  · trivial
  · refine .act hrem fun r => ?_
    split <;> trivial

theorem only_deleteIndexed {owner : Token} (hdel : φ (.kv (.delete (.delegation id))))
    (hrem : φ (.kv (.prefixRemove (.clientDelegations owner) id))) :
    (deleteIndexed owner id).Only φ ψ := by
  refine .act (h _ rfl) fun r => ?_
  split
  · trivial
  · trivial
  · exact only_deleteDelegation hdel hrem

theorem only_revokeDelegation {owner : Token} (hdel : φ (.kv (.delete (.delegation id))))
    (hrem : φ (.kv (.prefixRemove (.clientDelegations owner) id))) :
    (revokeDelegation owner id).Only φ ψ := by
  unfold revokeDelegation
  split_ifs
  · trivial
  · refine .bind (only_readDelegation h id) fun r => ?_
    split
    · exact only_deleteIndexed h hdel hrem
    · exact only_deleteIndexed h hdel hrem
    · trivial
    · split_ifs
      · exact only_deleteIndexed h hdel hrem
      · exact only_deleteDelegation hdel hrem

theorem only_acmeValidate {g : Acme} {token : Token} (hput : ∀ hostname v,
    φ (.kv (.put (.customHostname hostname) v)))
    (happend : ∀ hostname, φ (.kv (.prefixAppend (.clientHostnames token) hostname)))
    (client : Peer) (hostname : Hostname) (proof : Bool) :
    (acmeValidate g token client hostname proof).Only φ ψ := by
  have hsave : ∀ hostname, (saveCustomHostname hostname token client).Only φ ψ := by
    intro hostname
    refine .act (hput _ _) fun r => ?_
    split
    · trivial
    · refine .act (happend _) fun r => ?_
      split <;> trivial
  unfold acmeValidate
  split
  · trivial
  · refine .bind (only_checkAcme h g _ _ _ _) fun r => ?_
    split
    · trivial
    · exact hsave _
    · refine .act (h _ rfl) fun r => ?_
      split
      · trivial
      · split_ifs
        · trivial
        · exact hsave _

theorem only_replaceHostWAF {hostname : Hostname} (hput : ∀ v, φ (.kv (.put (.hostWAF hostname) v)))
    (owner : Token) (record : HostWAFRecord) (data : Bytes) (expectedVersion : String) :
    (replaceHostWAF w owner hostname record data expectedVersion).Only φ ψ := by
  refine .bind (only_requireWAFHostname h _ _) fun r => ?_
  split
  · trivial
  · refine .bind (only_readHostWAF h w _) fun r => ?_
    split
    · trivial
    · split_ifs
      · trivial
      · refine .act (hput _) fun r => ?_
        split <;> trivial

theorem only_setHostWAF (hl : ∀ a : Act, a.isLease = true → φ a)
    (hput : ∀ hostname v, φ (.kv (.put (.hostWAF hostname) v))) (owner : Token)
    (hostname : Hostname) (policy : Option WAFPolicy) (expectedVersion : String) :
    (setHostWAF normalize w owner hostname policy expectedVersion).Only φ ψ := by
  unfold setHostWAF
  split
  · trivial
  · trivial
  · split
    · trivial
    · dsimp only
      split_ifs
      · trivial
      · exact only_withLease hl (only_replaceHostWAF h (hput _) _ _ _ _)

theorem only_clearHostWAF {hostname : Hostname} (hdel : φ (.kv (.delete (.hostWAF hostname))))
    (owner : Token) : (clearHostWAF w owner hostname).Only φ ψ := by
  refine .bind (only_readHostWAF h w hostname) fun r => ?_
  split
  · trivial
  · trivial
  · split_ifs
    · trivial
    · refine .act hdel fun r => ?_
      split <;> trivial

omit h in
theorem only_publishRoute {hostname : Hostname}
    (hput : ∀ num v, φ (.kv (.put (.routing hostname num) v))) (client : Peer)
    (dst : TunnelDestination) (num : ℕ) :
    (publishRoute client hostname dst num).Only φ ψ := by
  refine .act (hput _ _) fun r => ?_
  split <;> trivial

theorem only_publishRoutes {hostname : Hostname}
    (hput : ∀ num v, φ (.kv (.put (.routing hostname num) v))) (token : Token) (client : Peer)
    (requested : List Peer) : (publishRoutes token client hostname requested).Only φ ψ := by
  refine .act (h _ rfl) fun r => ?_
  split
  · trivial
  · trivial
  · refine .bind (only_promiseAll h fun j hj => ?_) fun r => ?_
    · obtain ⟨p, _, rfl⟩ := List.mem_map.1 hj
      exact only_lookupDestination h _
    · split
      · trivial
      · refine .bind (only_promiseAll h fun j hj => ?_) fun r => ?_
        · obtain ⟨i, _, rfl⟩ := List.mem_mapIdx.1 hj
          exact only_publishRoute hput _ _ _
        · dsimp only
          split_ifs <;> trivial

theorem only_unadvertiseTunnel {hostname : Hostname}
    (hdel : ∀ num, φ (.kv (.delete (.routing hostname num)))) (token : Token) :
    (unadvertiseTunnel token hostname).Only φ ψ := by
  refine .act (h _ rfl) fun r => ?_
  split
  · trivial
  · trivial
  · refine .bind (only_promiseAll h fun j hj => ?_) fun r => ?_
    · obtain ⟨i, _, rfl⟩ := List.mem_map.1 hj
      exact .perform (hdel _)
    · split <;> trivial

theorem only_releaseHostname {token : Token} {hostname : Hostname}
    (hroute : ∀ num, φ (.kv (.delete (.routing hostname num))))
    (hwaf : φ (.kv (.delete (.hostWAF hostname))))
    (hrem : φ (.kv (.prefixRemove (.clientHostnames token) hostname)))
    (hdel : φ (.kv (.delete (.customHostname hostname)))) :
    (releaseHostname w token hostname).Only φ ψ := by
  refine .bind (only_unadvertiseTunnel h hroute token) fun r => ?_
  split
  · trivial
  · refine .bind (only_clearHostWAF h hwaf token) fun r => ?_
    split
    · trivial
    · refine .act hrem fun r => ?_
      split
      · trivial
      · exact .act hdel fun _ => trivial

end Reading

section Lease

variable (h : ∀ a : Act, a.isReading = true → φ a) (hl : ∀ a : Act, a.isLease = true → φ a)

include h hl

theorem only_publishTunnel {hostname : Hostname}
    (hput : ∀ num v, φ (.kv (.put (.routing hostname num) v))) (token : Token) (client : Peer)
    (servers : List Peer) : (publishTunnel token client hostname servers).Only φ ψ := by
  unfold publishTunnel
  dsimp only
  split_ifs
  · trivial
  · trivial
  · exact only_withLease hl (only_publishRoutes h hput _ _ _)

theorem only_unpublishTunnel {hostname : Hostname}
    (hdel : ∀ num, φ (.kv (.delete (.routing hostname num)))) (token : Token) :
    (unpublishTunnel token hostname).Only φ ψ := by
  refine only_withLease hl (.bind (only_unadvertiseTunnel h hdel token) fun r => ?_)
  split <;> trivial

theorem only_releaseTunnel {token : Token} {hostname : Hostname}
    (hroute : ∀ num, φ (.kv (.delete (.routing hostname num))))
    (hwaf : φ (.kv (.delete (.hostWAF hostname))))
    (hrem : φ (.kv (.prefixRemove (.clientHostnames token) hostname)))
    (hdel : φ (.kv (.delete (.customHostname hostname)))) :
    (releaseTunnel w token hostname).Only φ ψ :=
  only_withLease hl (only_releaseHostname h hroute hwaf hrem hdel)

end Lease

section Sessions

variable (h : ∀ a : Act, a.isReading = true → φ a) (hs : ∀ a : Act, a.isSession = true → φ a)
  (hψ : ∀ τ : Task, τ.isSession = true → ψ τ) (s : ℕ) (g : Given)

theorem only_onSession {s : ℕ} {a : Section} (h : φ (.session (.on s a))) :
    (onSession s a).Only φ ψ :=
  .perform h

theorem only_closeSession (hs : ∀ a : Act, a.isSession = true → φ a) (s : ℕ) :
    (closeSession s).Only φ ψ :=
  .bind (only_onSession (hs _ rfl)) fun _ => only_onSession (hs _ rfl)

include hψ in
theorem only_failSession (hs : ∀ a : Act, a.isSession = true → φ a) (s : ℕ) :
    (failSession s).Only φ ψ :=
  .bind (only_onSession (hs _ rfl)) fun _ => .start (hψ _ rfl)

theorem only_watch (hs : ∀ a : Act, a.isSession = true → φ a) {s : ℕ}
    (hremove : φ (.session (.on s .remove))) : (watch s).Only φ ψ := by
  refine .bind (only_onSession (hs _ rfl)) fun _ => ?_
  refine .bind (only_onSession (hs _ rfl)) fun (b : Bool) => ?_
  split_ifs
  · exact .bind (only_onSession (hs _ rfl)) fun _ =>
      .bind (only_onSession (hs _ rfl)) fun _ => only_onSession hremove
  · exact only_onSession hremove

include hs hψ in
theorem only_reserveSession : (reserveSession s).Only φ ψ := by
  have hw : (spawn (.watch s)).Only φ ψ := .start (hψ _ rfl)
  refine .bind (only_onSession (hs _ rfl)) fun r => ?_
  split
  · exact .bind hw fun _ => trivial
  · trivial
  · exact .bind (only_failSession hψ hs s) fun _ => trivial
  · exact .bind hw fun _ => .bind (only_failSession hψ hs s) fun _ => trivial
  · exact .bind hw fun _ => .bind (only_failSession hψ hs s) fun _ => trivial

include h hs in
theorem only_revalidateSession (hrenew : ∀ a : Act, a.isRenewing = true → φ a) (s : ℕ) :
    (revalidateSession s).Only φ ψ := by
  refine .act (h _ rfl) fun (b : Bool) => ?_
  split_ifs
  · trivial
  refine .act (h _ rfl) fun start => ?_
  refine .bind (only_onSession (hs _ rfl)) fun r => ?_
  split
  · trivial
  · exact only_closeSession hs s
  refine .bind (only_readDelegation h _) fun r => ?_
  split
  · exact only_closeSession hs s
  · exact only_closeSession hs s
  · trivial
  refine .act (h _ rfl) fun (b : Bool) => ?_
  split_ifs
  · trivial
  refine .act (h _ rfl) fun time => ?_
  split_ifs
  · exact only_closeSession hs s
  refine .bind (only_verifyDelegatedAuthority h _) fun r => ?_
  split
  · exact only_closeSession hs s
  · trivial
  refine .act (h _ rfl) fun (b : Bool) => ?_
  split_ifs
  · trivial
  · exact only_onSession (hrenew _ rfl)

theorem only_endWorker (hs : ∀ a : Act, a.isSession = true → φ a) (s : ℕ) :
    (endWorker s).Only φ ψ :=
  .bind (only_onSession (hs _ rfl)) fun _ => only_onSession (hs _ rfl)

include h hs hψ

theorem only_maintaining (hrenew : ∀ a : Act, a.isRenewing = true → φ a) (s : ℕ) :
    (maintaining s).Only φ ψ := by
  refine .act (h _ rfl) fun (b : Bool) => ?_
  split_ifs
  · exact only_endWorker hs s
  refine .bind (only_revalidateSession h hs hrenew s) fun _ => ?_
  refine .bind (only_onSession (hs _ rfl)) fun (b : Bool) => ?_
  split_ifs
  · exact .bind (.start (hψ _ rfl)) fun _ => .start (hψ _ rfl)
  · exact only_endWorker hs s

omit h in
theorem only_maintain : (maintainSession s).Only φ ψ := by
  refine .bind (only_onSession (hs _ rfl)) fun (b : Bool) => ?_
  split_ifs
  · exact .bind (.start (hψ _ rfl)) fun _ =>
      .bind (.start (hψ _ rfl)) fun _ => .start (hψ _ rfl)
  · trivial

omit h hψ in
theorem only_closeOnCancel : (closeOnCancel s).Only φ ψ :=
  .bind (only_onSession (hs _ rfl)) fun _ => only_closeSession hs s

omit h hψ in
theorem only_expiryTimer : (expiryTimer s).Only φ ψ := by
  refine .bind (only_onSession (hs _ rfl)) fun (b : Bool) => ?_
  split_ifs
  · exact only_closeSession hs s
  · trivial

theorem only_sessionTask {τ : Task} (hτ : τ.isSession = true)
    (hrenew : ∀ s, τ = .maintaining s → ∀ a : Act, a.isRenewing = true → φ a)
    (hremove : ∀ s, τ = .watch s → φ (.session (.on s .remove))) : (body g τ).Only φ ψ := by
  cases τ with
  | watch s => exact only_watch hs (hremove s rfl)
  | closeConn s => exact only_onSession (hs _ rfl)
  | maintain s => exact only_maintain hs hψ s
  | maintaining s => exact only_maintaining h hs hψ (hrenew s rfl) s
  | closeOnCancel s => exact only_closeOnCancel hs s
  | expiryTimer s => exact only_expiryTimer hs s
  | call | dial | disconnect | shutdown | arrive => cases hτ

omit h hψ in
theorem only_dialTask (sessionAlias : String) (hostname : Hostname) :
    (body g (.dial sessionAlias hostname)).Only φ ψ := by
  refine .bind (.act (hs _ rfl) fun r => ?_)
    fun _ => trivial
  split
  · trivial
  · exact only_onSession (hs _ rfl)

omit h in
theorem only_openEphemeralSession (ho : ∀ a : Act, a.isOpening = true → φ a)
    (sha256 : Bytes → Config.Digest) (site : Site) (conn : ℕ) (spki : Bytes) (certNotAfter : ℤ) :
    (openEphemeralSession sha256 site conn spki certNotAfter).Only φ ψ := by
  unfold openEphemeralSession
  split
  · trivial
  refine .act (ho _ rfl) fun s => ?_
  refine .bind (only_reserveSession hs hψ s) fun r => ?_
  split
  · trivial
  refine .bind (only_onSession (ho _ rfl)) fun (b : Bool) => ?_
  split_ifs
  · trivial
  · exact .bind (only_failSession hψ hs s) fun _ => trivial

omit hs in
theorem only_publishSession (ho : ∀ a : Act, a.isOpening = true → φ a)
    (hput : ∀ hostname num v, φ (.kv (.put (.routing hostname num) v))) (site : Site) (s : ℕ)
    (sessionAlias : String) (certNotAfter : ℤ) (slot : ℕ) (start : ℤ) (rec : DelegationRecord) :
    (publishSession site s sessionAlias certNotAfter slot start rec).Only φ ψ := by
  refine .bind (only_verifyDelegatedAuthority h rec) fun r => ?_
  split
  · trivial
  refine .act (hput _ _ _) fun r => ?_
  split
  · trivial
  refine .bind (only_onSession (ho _ rfl)) fun (b : Bool) => ?_
  split_ifs
  · exact .bind (.start (hψ _ rfl)) fun _ => trivial
  · trivial

theorem only_openDelegatedSession (hl : ∀ a : Act, a.isLease = true → φ a)
    (ho : ∀ a : Act, a.isOpening = true → φ a)
    (hput : ∀ hostname num v, φ (.kv (.put (.routing hostname num) v)))
    (sha256 : Bytes → Config.Digest) (site : Site) (conn : ℕ) (certNotAfter : ℤ) (token : String)
    (slot : ℕ) (inv : Bytes) :
    (openDelegatedSession sha256 site conn certNotAfter token slot inv).Only φ ψ := by
  have hauthorize : ∀ s,
      (authorizeSession sha256 site s (aliasOf inv) certNotAfter token slot).Only φ ψ := by
    intro s
    unfold authorizeSession
    split
    · trivial
    refine .act (h _ rfl) fun start => ?_
    refine .bind (only_readDelegation h _) fun r => ?_
    split
    · trivial
    · trivial
    · trivial
    split_ifs
    · trivial
    · exact .bind (only_onSession (ho _ rfl)) fun _ => only_withLease hl
        (only_publishSession h hψ ho hput _ _ _ _ _ _ _)
  unfold openDelegatedSession
  split_ifs
  · trivial
  refine .act (ho _ rfl) fun s => ?_
  refine .bind (only_reserveSession hs hψ s) fun r => ?_
  split
  · trivial
  refine .bind (hauthorize s) fun r => ?_
  split
  · exact .bind (only_failSession hψ hs s) fun _ => trivial
  · trivial

end Sessions

inductive Call.MayWrite (g : Given) : Call → KvOp → Prop where
  | index {owner hostname expiresAt secret} :
    MayWrite g (.mintDelegation owner hostname expiresAt secret)
      (.prefixAppend (.clientDelegations owner) (delegationID g.sha256 secret))
  | mint {owner hostname expiresAt secret v} :
    MayWrite g (.mintDelegation owner hostname expiresAt secret)
      (.put (.delegation (delegationID g.sha256 secret)) v)
  | revoke {owner id} : MayWrite g (.revokeDelegation owner id) (.delete (.delegation id))
  | unindex {owner id} :
    MayWrite g (.revokeDelegation owner id) (.prefixRemove (.clientDelegations owner) id)
  | attach {conn certNotAfter token slot inv hostname num v} :
    MayWrite g (.openDelegatedSession conn certNotAfter token slot inv)
      (.put (.routing hostname num) v)
  | save {token client hostname proof hostname' v} :
    MayWrite g (.acmeValidate token client hostname proof) (.put (.customHostname hostname') v)
  | register {token client hostname proof hostname'} :
    MayWrite g (.acmeValidate token client hostname proof)
      (.prefixAppend (.clientHostnames token) hostname')
  | publish {token client hostname servers num v} :
    MayWrite g (.publishTunnel token client hostname servers) (.put (.routing hostname num) v)
  | unpublish {token hostname num} :
    MayWrite g (.unpublishTunnel token hostname) (.delete (.routing hostname num))
  | withdraw {token hostname num} :
    MayWrite g (.releaseTunnel token hostname) (.delete (.routing hostname num))
  | clear {token hostname} :
    MayWrite g (.releaseTunnel token hostname) (.delete (.hostWAF hostname))
  | release {token hostname} :
    MayWrite g (.releaseTunnel token hostname) (.prefixRemove (.clientHostnames token) hostname)
  | forget {token hostname} :
    MayWrite g (.releaseTunnel token hostname) (.delete (.customHostname hostname))
  | protect {owner hostname policy expectedVersion hostname' v} :
    MayWrite g (.setHostWAF owner hostname policy expectedVersion) (.put (.hostWAF hostname') v)

def Call.isOpen : Call → Bool
  | .openEphemeralSession .. | .openDelegatedSession .. => true
  | _ => false

theorem only_prog (h : ∀ a : Act, a.isReading = true → φ a)
    (hl : ∀ a : Act, a.isLease = true → φ a) (hs : ∀ a : Act, a.isSession = true → φ a)
    (hψ : ∀ τ : Task, τ.isSession = true → ψ τ) {g : Given} {c : Call}
    (ho : c.isOpen = true → ∀ a : Act, a.isOpening = true → φ a)
    (hw : ∀ op, c.MayWrite g op → φ (.kv op)) (site : Site) : (c.prog g site).Only φ ψ := by
  cases c with
  | mintDelegation => exact only_mintDelegation h (hw _ .index) (fun _ => hw _ .mint) _ _
  | listDelegations => exact only_listDelegations h _
  | revokeDelegation => exact only_revokeDelegation h (hw _ .revoke) (hw _ .unindex)
  | openEphemeralSession => exact only_openEphemeralSession hs hψ (ho rfl) _ _ _ _ _
  | openDelegatedSession =>
    exact only_openDelegatedSession h hs hψ hl (ho rfl) (fun _ _ _ => hw _ .attach) _ _ _ _ _ _ _
  | acmeValidate =>
    exact only_acmeValidate h (fun _ _ => hw _ .save) (fun _ => hw _ .register) _ _ _
  | publishTunnel => exact only_publishTunnel h hl (fun _ _ => hw _ .publish) _ _ _
  | unpublishTunnel => exact only_unpublishTunnel h hl (fun _ => hw _ .unpublish) _
  | releaseTunnel =>
    exact only_releaseTunnel h hl (fun _ => hw _ .withdraw) (hw _ .clear) (hw _ .release)
      (hw _ .forget)
  | getHostWAF => exact only_getHostWAF h _ _ _ _
  | setHostWAF => exact only_setHostWAF h hl (fun _ _ => hw _ .protect) _ _ _ _

end Only

section Lease

variable {σ Λ : Type} {M : Lib.Machine tunnelSig σ Λ} {R : Rules M} {N : ℕ → σ → σ → Prop} {t : ℕ}
  {φ : Act → Prop} {α : Type} {P : σ → Prop}

theorem triple_withLease (hN : R.Neutral N t φ) (hl : ∀ a : Act, a.isLease = true → φ a)
    {Q : Except RpcError α → σ → Prop} (hP : R.Firm N t P) (hQ : ∀ r, R.Firm N t (Q r))
    (hfail : ∀ e s, P s → Q (.error e) s) {key : Key} {failed : ChordError → RpcError}
    {p : Rpc (Except RpcError α)} (hp : R.Triple t P p Q) :
    R.Triple t P (withLease key failed p) Q := by
  refine .bind (hN.triple hP (ψ := fun _ => False) (fun _ => False.elim)
    (.perform (hl _ rfl))) fun r => ?_
  cases r with
  | error e => exact .ret (hQ _).stable fun s _ hs => hfail _ s hs
  | ok lease =>
    refine .bind hp fun res => .bind (hN.triple (hQ res) (ψ := fun _ => False)
      (fun _ => False.elim) (.perform (hl _ rfl))) fun _ => ?_
    exact .ret (hQ res).stable fun _ _ hs => hs

end Lease

section Store

variable {g : Given} {R : Rules (tunnelStore g)} {N : ℕ → StoreState → StoreState → Prop} {t : ℕ}
  {φ : Act → Prop} {P : StoreState → Prop}

theorem triple_kv (op : KvOp) {Q : op.Res → StoreState → Prop} (hP : R.Stable t P)
    (hQ : ∀ r, R.Stable t (Q r))
    (h : ∀ s l r s', R.inv s → P s → R.ok l → StoreState.exec l t s (.kv op) = some (r, s') →
      R.known t s s' → R.inv s' ∧ R.guar t s s' ∧ Q r s') : R.Triple t P (kv op) Q :=
  .perform hP hQ h

theorem triple_read (hN : R.Neutral N t φ) (op : KvOp) (hop : φ (.kv op)) (hP : R.Firm N t P)
    {Q : op.Res → StoreState → Prop} (hQ : ∀ r, R.Firm N t (Q r))
    (h : ∀ s o, R.inv s → P s → Q (s.world.exec t o op).1 s) : R.Triple t P (kv op) Q :=
  hN.perform (a := .kv op) hop hP hQ fun s l r s' hi hs _ he => by
    cases he
    exact h s l.outcome hi hs

end Store

end Specter.Tunnel
