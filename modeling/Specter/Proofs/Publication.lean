import Specter.Lib.Decimal
import Specter.Proofs.Names

/-!
# A tunnel that is reported as published is

What the client keeps of a publication is dropped by whatever may change the routes of the hostname,
except a removal that fails but took effect.  Without such removals, what is kept belongs to the
latest call for the hostname, acknowledged by all its gateways, which a text tells apart as long as
there is no semicolon in an address.
-/

namespace Specter.TunClient

open Lib

variable {hostname : Hostname} {x : Hostname}

def Gateway.Plain (g : Gateway) : Prop := ';' ∉ g.address.toList

theorem toList_endpointSignature_cons (g : Gateway) (nodes : List Gateway) :
    (endpointSignature (g :: nodes)).toList =
      ((toString g.id).toList ++ ':' :: g.address.toList) ++
        ';' :: (endpointSignature nodes).toList := by
  simp [endpointSignature, String.join_cons]

theorem endpointSignature_inj : ∀ {nodes nodes' : List Gateway},
    (∀ g ∈ nodes, g.Plain) → (∀ g ∈ nodes', g.Plain) →
    endpointSignature nodes = endpointSignature nodes' → nodes = nodes'
  | [], [], _, _, _ => rfl
  | [], g :: nodes, _, _, h => by
    have h : [] = _ := (congrArg String.toList h).trans (toList_endpointSignature_cons g nodes)
    simp at h
  | g :: nodes, [], _, _, h => by
    have h : _ = [] := (toList_endpointSignature_cons g nodes).symm.trans (congrArg String.toList h)
    simp at h
  | g :: nodes, g' :: nodes', hp, hp', h => by
    obtain ⟨hg, hp⟩ := List.forall_mem_cons.1 hp
    obtain ⟨hg', hp'⟩ := List.forall_mem_cons.1 hp'
    have h := congrArg String.toList h
    rw [toList_endpointSignature_cons, toList_endpointSignature_cons] at h
    -- the first semicolon ends the first gateway, and the first colon its number
    have hsemi : ∀ x : Gateway, x.Plain →
        ';' ∉ (toString x.id).toList ++ ':' :: x.address.toList := by
      intro x hx
      simp only [List.mem_append, List.mem_cons, not_or]
      exact ⟨notMem_toString rfl _, by decide, hx⟩
    obtain ⟨hhead, htail⟩ := append_cons_inj (hsemi g hg) (hsemi g' hg') h
    obtain ⟨hid, haddr⟩ := append_cons_inj (notMem_toString rfl g.id) (notMem_toString rfl _) hhead
    have heq : g = g' := by
      cases g
      cases g'
      exact congrArg₂ Gateway.mk (eq_of_toString hid) (String.toList_inj.1 haddr)
    rw [heq, endpointSignature_inj hp hp' (String.toList_inj.1 htail)]

example : endpointSignature [⟨1, "a;2:b"⟩] = endpointSignature [⟨1, "a"⟩, ⟨2, "b"⟩] := by
  decide +kernel

def latest (ops : List RouteOp) (hostname : Hostname) : Option RouteChange :=
  (ops.find? (·.hostname = hostname)).map RouteOp.change

/-- The latest call for the hostname is a publication at exactly the gateways that are connected, in
their order, and all of them acknowledged it. -/
def Skip.Published (s : Skip) : Prop :=
  latest s.ops s.hostname = some (.publish s.connected s.connected)

theorem latest_cons_self (hostname : Hostname) (change : RouteChange) (ops : List RouteOp) :
    latest (⟨hostname, change⟩ :: ops) hostname = some change := by
  simp [latest]

theorem latest_cons_of_ne {h : Hostname} (hne : hostname ≠ h) (change : RouteChange)
    (ops : List RouteOp) : latest (⟨hostname, change⟩ :: ops) h = latest ops h := by
  simp [latest, hne]

/-- What is kept of a publication is true of the latest call. -/
def Acknowledged (ops : List RouteOp) (hostname : Hostname) (st : PublicationState) : Prop :=
  ∃ servers, (∀ g ∈ servers, g.Plain) ∧ st.endpoints = endpointSignature servers ∧
    latest ops hostname = some (.publish servers servers)

namespace Publishing

structure Sound (p : Publishing) : Prop where
  acknowledged : ∀ h st, p.publication h = some st → Acknowledged p.ops h st
  skips : ∀ s ∈ p.skips, s.Published

theorem Sound.called {p p' : Publishing} (h : p.Sound)
    (hops : p'.ops = p.ops ∨ ∃ change, p'.ops = ⟨hostname, change⟩ :: p.ops)
    (hpub : ∀ x, x ≠ hostname → p'.publication x = p.publication x)
    (hack : ∀ st, p'.publication hostname = some st → Acknowledged p'.ops hostname st)
    (hskips : p'.skips = p.skips) : p'.Sound := by
  refine ⟨fun x st hx => ?_, hskips ▸ h.skips⟩
  by_cases hne : x = hostname
  · subst hne
    exact hack st hx
  · rw [hpub x hne] at hx
    obtain ⟨servers, hplain, hend, hlatest⟩ := h.acknowledged x st hx
    refine ⟨servers, hplain, hend, ?_⟩
    rcases hops with hops | ⟨change, hops⟩ <;> rw [hops]
    · exact hlatest
    · rw [latest_cons_of_ne (Ne.symm hne), hlatest]

section Publish

variable {force : Bool} {connected : List Gateway} {hostname : Hostname} {o : PublishOutcome}
  {p : Publishing}

theorem attempt_spec (endpoints : String) {p' : Publishing}
    (h : (publish.attempt connected hostname o endpoints p).2 = p') :
    (p'.ops = p.ops ∨ ∃ change, p'.ops = ⟨hostname, change⟩ :: p.ops) ∧
    (∀ x, x ≠ hostname → p'.publication x = p.publication x) ∧ p'.skips = p.skips ∧
    ∀ st, p'.publication hostname = some st → st.endpoints = endpoints ∧
      p'.ops = ⟨hostname, .publish connected connected⟩ :: p.ops := by
  subst h
  unfold publish.attempt publishTunnel
  cases o with
  | failed err =>
    exact ⟨.inl rfl, fun x hx => Function.update_of_ne hx _ _, rfl, by simp⟩
  | lost err =>
    exact ⟨.inr ⟨_, rfl⟩, fun x hx => Function.update_of_ne hx _ _, rfl, by simp⟩
  | ok ack =>
    dsimp only
    by_cases hall : (connected.filter ack).length < connected.length
    · rw [if_pos hall]
      exact ⟨.inr ⟨_, rfl⟩, fun x hx => Function.update_of_ne hx _ _, rfl, by simp⟩
    rw [if_neg hall]
    by_cases hnone : (connected.filter ack).length = 0
    · rw [if_pos hnone]
      exact ⟨.inr ⟨_, rfl⟩, fun x hx => Function.update_of_ne hx _ _, rfl, by simp⟩
    rw [if_neg hnone]
    refine ⟨.inr ⟨_, rfl⟩, fun x hx => ?_, rfl, fun st hst => ?_⟩
    · exact (Function.update_of_ne hx _ _).trans (Function.update_of_ne hx _ _)
    · have hfilter : connected.filter ack = connected :=
        List.filter_sublist.eq_of_length_le (Nat.not_lt.1 hall)
      dsimp only at hst
      rw [Function.update_self] at hst
      cases hst
      exact ⟨rfl, by rw [hfilter]⟩

theorem Sound.publish (h : p.Sound) (hplain : ∀ g ∈ connected, g.Plain) :
    (p.publish force connected hostname o).2.Sound := by
  have hattempt :
      (publish.attempt connected hostname o (endpointSignature connected) p).2.Sound := by
    obtain ⟨hops, hpub, hskips, hst⟩ := attempt_spec (o := o) (endpointSignature connected) rfl
    refine h.called hops hpub (fun st hx => ?_) hskips
    obtain ⟨hend, hops⟩ := hst st hx
    exact ⟨connected, hplain, hend, by rw [hops, latest_cons_self]⟩
  unfold Publishing.publish
  dsimp only
  split
  · rename_i previous hprev
    split_ifs with hskip
    · refine ⟨h.acknowledged, List.forall_mem_cons.2 ⟨?_, h.skips⟩⟩
      obtain ⟨servers, hservers, hend, hlatest⟩ := h.acknowledged hostname previous hprev
      have heq : servers = connected :=
        endpointSignature_inj hservers hplain (hend.symm.trans hskip.2)
      rw [Skip.Published, hlatest, heq]
    · exact hattempt
  · exact hattempt

theorem publish_publication {st : PublicationState}
    (h : (p.publish force connected hostname o).2.publication x = some st) :
    x = hostname ∨ p.publication x = some st := by
  by_cases hne : x = hostname
  · exact .inl hne
  have hattempt : (publish.attempt connected hostname o (endpointSignature connected)
      p).2.publication x = p.publication x := (attempt_spec _ rfl).2.1 x hne
  unfold Publishing.publish at h
  dsimp only at h
  split at h
  · split_ifs at h
    · exact .inr h
    · exact .inr (hattempt ▸ h)
  · exact .inr (hattempt ▸ h)

end Publish

end Publishing

section Loop

variable {force : Bool} {input : SyncInput} {lookupErr : Option String} {used : List Hostname}
  {i : ℕ} {t : Tunnel} {a a' : SyncAcc} {x : Tunnel × TunnelSyncResult}

def Publishing.Covered (p : Publishing) (names : List Hostname) : Prop :=
  ∀ h st, p.publication h = some st → h ≠ "" ∧ h ∈ names

/-- The empty name is not given away while a tunnel is without a hostname. -/
def Spare (rest : List Tunnel) (n : Naming) : Prop :=
  "" ∈ rest.map Tunnel.hostname → "" ∉ n.available

theorem Naming.Assigns.available {n n' : Naming} {r : Except String Hostname}
    (h : Naming.Assigns used n r n') : ∀ x ∈ n'.available, x ∈ n.available := by
  cases h with
  | reused h =>
    rw [h]
    exact fun x hx => List.mem_cons_of_mem _ hx
  | generated | failed | uncalled | deferred => exact fun x hx => hx

theorem Naming.Assigns.ne_empty {n n' : Naming} {name : Hostname}
    (h : Naming.Assigns used n (.ok name) n') (hs : "" ∉ n.available) : name ≠ "" := by
  cases h with
  | reused h =>
    rintro rfl
    exact hs (by simp [h])
  | generated h hg hne => exact hne

theorem TunnelStep.keeps {t' : Tunnel} {done rest : List Tunnel}
    (h : TunnelStep force input lookupErr used i t a t' a')
    (hplain : ∀ g ∈ input.connected, g.Plain) (hp : a.publishing.Sound)
    (hc : a.publishing.Covered (namesOf done (t :: rest))) (hs : Spare (t :: rest) a.naming) :
    a'.publishing.Sound ∧ a'.publishing.Covered (namesOf (done ++ [t']) rest) ∧
      Spare rest a'.naming := by
  have hrest : "" ∈ rest.map Tunnel.hostname → "" ∉ a.naming.available := fun hm =>
    hs (List.mem_cons_of_mem _ hm)
  have hsame : namesOf (done ++ [t]) rest = namesOf done (t :: rest) := by simp [namesOf]
  cases h with
  | published hne hn hpub ha =>
    rw [hpub, Spare, hn, hsame]
    refine ⟨hp.publish hplain, fun x st hx => ?_, hrest⟩
    rcases Publishing.publish_publication hx with rfl | hx
    · exact ⟨hne, mem_namesOf_cons.2 (.inl rfl)⟩
    · exact hc x st hx
  | unknown he hl =>
    rw [hsame]
    exact ⟨hp, hc, hrest⟩
  | unnamed he hl hn hpub ha =>
    rw [hpub, hsame]
    exact ⟨hp, hc, fun hm hx => hrest hm (hn.available _ hx)⟩
  | named he hl hn hpub ha =>
    rw [hpub]
    have hspare : "" ∉ a.naming.available := hs (by simp [he])
    refine ⟨hp.publish hplain, fun x st hx => ?_, fun _ hx => hspare (hn.available _ hx)⟩
    rcases Publishing.publish_publication hx with rfl | hx
    · exact ⟨hn.ne_empty hspare, mem_namesOf_snoc.2 (.inl rfl)⟩
    · obtain ⟨hne, hm⟩ := hc x st hx
      rcases mem_namesOf_cons.1 hm with hm | hm
      · exact absurd (hm.trans he) hne
      · exact ⟨hne, mem_namesOf_snoc.2 (.inr hm)⟩

theorem syncTunnels_keeps (hplain : ∀ g ∈ input.connected, g.Plain) :
    ∀ {rest done : List Tunnel} {a a' : SyncAcc} {xs : List (Tunnel × TunnelSyncResult)},
    syncTunnels force input lookupErr done rest a = (xs, a') → a.publishing.Sound →
    a.publishing.Covered (namesOf done rest) → Spare rest a.naming →
    a'.publishing.Sound ∧ a'.publishing.Covered (namesOf done (xs.map Prod.fst))
  | [], _, _, _, _, h, hp, hc, _ => by
    cases h
    exact ⟨hp, hc⟩
  | t :: rest, done, a, a', xs, h, hp, hc, hs => by
    obtain ⟨x, a₁, ys, hx, hys, rfl⟩ := syncTunnels_cons h
    obtain ⟨hp₁, hc₁, hs₁⟩ := (syncTunnel_step hx).keeps hplain hp hc hs
    obtain ⟨hp', hc'⟩ := syncTunnels_keeps hplain hys hp₁ hc₁ hs₁
    refine ⟨hp', ?_⟩
    simpa [namesOf, Publishing.Covered] using hc'

theorem syncTunnels_unassigned : ∀ {rest done : List Tunnel} {a a' : SyncAcc}
    {xs : List (Tunnel × TunnelSyncResult)},
    syncTunnels force input lookupErr done rest a = (xs, a') → a'.hostnameAssigned = false →
    xs.map Prod.fst = rest ∧ a.hostnameAssigned = false
  | [], _, _, _, _, h, ha => by
    cases h
    exact ⟨rfl, ha⟩
  | t :: rest, done, a, a', xs, h, ha => by
    obtain ⟨x, a₁, ys, hx, hys, rfl⟩ := syncTunnels_cons h
    obtain ⟨h1, h2⟩ := syncTunnels_unassigned hys ha
    have hx' := syncTunnel_step hx
    rw [List.map_cons, h1]
    generalize x.1 = t' at hx'
    cases hx' with
    | published hne hn hp ha' => exact ⟨rfl, ha'.symm.trans h2⟩
    | unknown he hl => exact ⟨rfl, h2⟩
    | unnamed he hl hn hp ha' => exact ⟨rfl, ha'.symm.trans h2⟩
    | named he hl hn hp ha' => cases ha'.symm.trans h2

end Loop

section Operations

variable {parseTarget : String → Except String String} {force : Bool} {input : SyncInput}
  {c : Client} {tunnels : List Tunnel}

theorem validate_ok :
    validate parseTarget tunnels = .ok () ↔ ∀ t ∈ tunnels, t.check parseTarget = .ok () := by
  induction tunnels with
  | nil => simp [validate]
  | cons t rest ih =>
    rw [validate, List.forall_mem_cons, ← ih]
    rcases t.check parseTarget with e | _ <;> simp

theorem validate_after : ∀ {rest done : List Tunnel} {lookupErr : Option String} {a a' : SyncAcc}
    {xs : List (Tunnel × TunnelSyncResult)},
    syncTunnels force input lookupErr done rest a = (xs, a') →
    validate parseTarget (xs.map Prod.fst) = validate parseTarget rest
  | [], _, _, _, _, _, h => by
    cases h
    rfl
  | t :: rest, done, lookupErr, a, a', xs, h => by
    obtain ⟨x, a₁, ys, hx, hys, rfl⟩ := syncTunnels_cons h
    have hx' := syncTunnel_step hx
    rw [List.map_cons, validate, validate, validate_after hys]
    generalize x.1 = t' at hx'
    cases hx' with
    | published | unknown | unnamed => rfl
    | named => rfl

variable (parseTarget) in
structure Client.Sound (c : Client) : Prop where
  valid : validate parseTarget c.tunnels = .ok ()
  acknowledged : ∀ h st, c.publication h = some st → Acknowledged c.ops h st
  covered : ∀ h st, c.publication h = some st → h ≠ "" ∧ h ∈ c.tunnels.map Tunnel.hostname
  skips : ∀ s ∈ c.skips, s.Published

theorem Client.Sound.start {registered : List Hostname}
    (h : validate parseTarget tunnels = .ok ()) :
    (Client.start tunnels registered).Sound parseTarget := by
  refine ⟨h, ?_, ?_, ?_⟩ <;> simp [Client.start]

theorem Client.Sound.cleared (h : c.Sound parseTarget) :
    ({ c with publication := fun _ => none } : Client).Sound parseTarget :=
  ⟨h.valid, nofun, nofun, h.skips⟩

theorem recordSyncResult_sound {now : ℤ} {result : SyncResult} :
    (recordSyncResult now result c).Sound parseTarget ↔ c.Sound parseTarget := by
  unfold recordSyncResult
  split_ifs <;> exact ⟨fun h => ⟨h.valid, h.acknowledged, h.covered, h.skips⟩,
    fun h => ⟨h.valid, h.acknowledged, h.covered, h.skips⟩⟩

theorem spare_lookupNames : Spare c.tunnels
    ⟨(lookupNames force input c.tunnels).2, none, c.hostnameNextCandidate, c.registered, []⟩ := by
  intro hm hx
  unfold lookupNames at hx
  split_ifs at hx
  · rcases hl : input.lookup with e | names <;> rw [hl] at hx
    · cases hx
    · exact (Naming.mem_free.1 hx).2.2 hm
  · cases hx

section

variable (h : c.Sound parseTarget) (hplain : ∀ g ∈ input.connected, g.Plain)

include h hplain

theorem Client.Sound.sync : (syncConfigTunnels parseTarget force input c).1.Sound parseTarget := by
  rcases hloop : syncLoop force input c with ⟨xs, a⟩
  have hloop' := hloop
  unfold syncLoop at hloop'
  have hpub : ∀ x st, (if force then fun _ => none else c.publication) x = some st →
      c.publication x = some st := by
    intro x st hx
    split_ifs at hx
    exact hx
  obtain ⟨hp, hc⟩ := syncTunnels_keeps hplain hloop'
    ⟨fun x st hx => h.acknowledged x st (hpub x st hx), h.skips⟩
    (fun x st hx => h.covered x st (hpub x st hx)) spare_lookupNames
  have hvalid : validate parseTarget (xs.map Prod.fst) = .ok () :=
    (validate_after hloop').trans h.valid
  simp only [syncConfigTunnels, recordSyncResult_sound, hloop]
  split_ifs with hre hsaved
  · simp only [rebuildTunnels, hvalid]
    refine ⟨hvalid, ?_, ?_, ?_⟩ <;> simp only [looped, hloop]
    · exact hp.acknowledged
    · exact hc
    · exact hp.skips
  all_goals
    push Not at hre
    have hsame := (syncTunnels_unassigned hloop' (by simpa using hre.2)).1
    refine ⟨h.valid, ?_, ?_, ?_⟩ <;> simp only [looped, hloop]
    · exact hp.acknowledged
    · rw [← hsame]
      exact hc
    · exact hp.skips

theorem Client.Sound.reconcile (r : ReconcileInput) :
    (reconcileConnections parseTarget r input c).Sound parseTarget := by
  simp only [reconcileConnections]
  split_ifs
  all_goals first
    | exact h
    | exact h.cleared
    | exact h.sync hplain
    | exact h.cleared.sync hplain

theorem Client.Sound.reload (file : Except String (List Tunnel)) :
    (doReload parseTarget file input c).1.Sound parseTarget := by
  unfold doReload
  rcases file with e | tunnels
  · exact h
  rcases hv : validate parseTarget tunnels with e | _
  · simpa only [hv] using h
  · -- a forced sync begins with nothing kept
    have hforce : ∀ c' : Client, (syncConfigTunnels parseTarget true input c').1 =
        (syncConfigTunnels parseTarget true input { c' with publication := fun _ => none }).1 :=
      fun _ => rfl
    simp only [hv]
    rw [hforce]
    exact Client.Sound.sync ⟨hv, nofun, nofun, h.skips⟩ hplain

end

theorem mem_eraseIdx_hostname {index : ℕ}
    (hi : tunnels.findIdx? (·.hostname = hostname) = some index) (hne : x ≠ hostname)
    (hx : x ∈ tunnels.map Tunnel.hostname) : x ∈ (tunnels.eraseIdx index).map Tunnel.hostname := by
  obtain ⟨t, ht, rfl⟩ := List.mem_map.1 hx
  refine List.mem_map_of_mem (List.mem_eraseIdx_iff_getElem?.2 ?_)
  obtain ⟨j, hj⟩ := List.mem_iff_getElem?.1 ht
  refine ⟨j, ?_, hj⟩
  rintro rfl
  obtain ⟨hlt, hidx, -⟩ := List.findIdx?_eq_some_iff_getElem.1 hi
  rw [List.getElem?_eq_getElem hlt, Option.some.injEq] at hj
  exact hne (by simpa [hj] using hidx)

theorem Client.Sound.removed (h : c.Sound parseTarget) (removal : Removal)
    (hnone : c.publication hostname = none) : (c.removed removal hostname).Sound parseTarget := by
  refine ⟨h.valid, fun x st hx => ?_, h.covered, h.skips⟩
  have hne : hostname ≠ x := by
    rintro rfl
    cases hnone.symm.trans hx
  obtain ⟨servers, hplain, hend, hlatest⟩ := h.acknowledged x st hx
  exact ⟨servers, hplain, hend, by rw [Client.removed, latest_cons_of_ne hne, hlatest]⟩

theorem Client.Sound.remove (h : c.Sound parseTarget) (removal : Removal) (hostname : Hostname)
    {o : RemovalOutcome} (ho : ∀ err, o ≠ .lost err) (write : Option String) (now : ℤ) :
    (tunnelRemovalWrapper removal hostname o write now c).1.Sound parseTarget := by
  cases o with
  | failed err => exact h
  | lost err => exact absurd rfl (ho err)
  | ok =>
    simp only [tunnelRemovalWrapper, removeTunnel]
    rcases hi : c.tunnels.findIdx? (·.hostname = hostname) with _ | index
    · -- nothing is kept of a hostname that is not in the configuration
      have hnone : c.publication hostname = none := by
        rcases hp : c.publication hostname with _ | st
        · rfl
        obtain ⟨t, ht, heq⟩ := List.mem_map.1 (h.covered hostname st hp).2
        simpa [heq] using List.findIdx?_eq_none_iff.1 hi t ht
      have hi' : (c.removed removal hostname).tunnels.findIdx? (·.hostname = hostname) = none := hi
      simp only [hi']
      exact h.removed removal hnone
    · have hi' : (c.removed removal hostname).tunnels.findIdx? (·.hostname = hostname) =
        some index := hi
      simp only [hi', recordSyncResult_sound]
      have herased : ({ c with
          tunnels := c.tunnels.eraseIdx index
          publication := Function.update c.publication hostname none } : Client).Sound
          parseTarget := by
        have hkept : ∀ x st, Function.update c.publication hostname none x = some st →
            x ≠ hostname ∧ c.publication x = some st := by
          intro x st hx
          by_cases hne : x = hostname
          · subst hne
            simp at hx
          · exact ⟨hne, by rwa [Function.update_of_ne hne] at hx⟩
        refine ⟨validate_ok.2 fun t ht => validate_ok.1 h.valid t (List.mem_of_mem_eraseIdx ht),
          fun x st hx => h.acknowledged x st (hkept x st hx).2, fun x st hx => ?_, h.skips⟩
        obtain ⟨hne, hx⟩ := hkept x st hx
        exact ⟨(h.covered x st hx).1, mem_eraseIdx_hostname hi hne (h.covered x st hx).2⟩
      exact herased.removed removal (by simp)

/-- A removal that fails has had no effect, and there is no semicolon in the address of a gateway
that is connected. -/
def Op.Settled : Op → Prop
  | .sync _ input | .reconcile _ input | .reload _ input => ∀ g ∈ input.connected, g.Plain
  | .remove _ _ o _ _ => ∀ err, o ≠ .lost err

theorem Client.Sound.apply (h : c.Sound parseTarget) {op : Op} (hop : op.Settled) :
    (op.apply parseTarget c).Sound parseTarget := by
  cases op with
  | sync force input => exact h.sync hop
  | reconcile r input => exact h.reconcile hop r
  | reload file input => exact h.reload hop file
  | remove removal hostname o write now => exact h.remove removal hostname hop write now

end Operations

/-- If a removal that fails has had no effect: whenever a sync reports a tunnel as published without
a call, the latest call that may have changed its routes is a publication that every gateway of the
current list, in its current order, has acknowledged. -/
theorem skipped_tunnels_are_published (parseTarget : String → Except String String)
    (tunnels : List Tunnel) (hvalid : validate parseTarget tunnels = .ok ())
    (registered : List Hostname) (ops : List Op) (h : ∀ op ∈ ops, op.Settled) :
    ∀ s ∈ (run parseTarget ops (.start tunnels registered)).skips, s.Published := by
  have hrun : ∀ (ops : List Op) (c : Client), c.Sound parseTarget → (∀ op ∈ ops, op.Settled) →
      (run parseTarget ops c).Sound parseTarget := by
    intro ops
    induction ops with
    | nil => exact fun c hc _ => hc
    | cons op ops ih =>
      intro c hc hops
      obtain ⟨hop, hops⟩ := List.forall_mem_cons.1 hops
      exact ih _ (hc.apply hop) hops
  exact (hrun ops _ (.start hvalid) h).skips

/-- Two tunnels, of which one cannot be published at first.  The other one is removed in between,
and then the first one is tried again. -/
def retriedAround (o : RemovalOutcome) : List Op :=
  let input (publish : ℕ → PublishOutcome) (now : ℤ) : SyncInput :=
    ⟨.ok ["a", "b"], [⟨1, "a:443"⟩], fun _ => .noCandidates, publish, none, now⟩
  let published : PublishOutcome := .ok fun _ => true
  [.sync true (input (fun i => if i = 0 then published else .failed "unavailable") 0),
    .remove .unpublish "a" o none 1,
    .reconcile ⟨[⟨1, "a:443"⟩], 0, [⟨1, "a:443"⟩], false, 60 * second⟩
      (input (fun _ => published) (60 * second))]

def twoTunnels : List Tunnel := [⟨"tcp://a", "a", "", ""⟩, ⟨"tcp://b", "b", "", ""⟩]

theorem skipped_tunnel_published_before :
    (run .ok (retriedAround (.failed "refused")) (.start twoTunnels ["a", "b"])).skips ≠ [] ∧
    ∀ s ∈ (run .ok (retriedAround (.failed "refused")) (.start twoTunnels ["a", "b"])).skips,
      s.Published := by
  refine ⟨by decide +kernel, skipped_tunnels_are_published .ok twoTunnels rfl _ _ ?_⟩
  intro op hop
  simp only [retriedAround, List.mem_cons, List.not_mem_nil, or_false] at hop
  rcases hop with rfl | rfl | rfl
  · simp [Op.Settled, Gateway.Plain]
  · simp [Op.Settled]
  · simp [Op.Settled, Gateway.Plain]

/-- The removal has taken effect and fails; the tunnel is then reported as published. -/
theorem skipped_tunnel_removed :
    let c := run .ok (retriedAround (.lost "timeout")) (.start twoTunnels ["a", "b"])
    (c.lastSync.tunnels.map fun r => (r.hostname, r.published, r.error)) =
      [("a", true, ""), ("b", true, "")] ∧
    ∃ s ∈ c.skips, s.hostname = "a" ∧ latest s.ops s.hostname = some .remove ∧ ¬ s.Published := by
  have h : (run .ok (retriedAround (.lost "timeout")) (.start twoTunnels ["a", "b"])).skips.map
      (fun s => (s.hostname, latest s.ops s.hostname)) = [("a", some .remove)] := by decide +kernel
  refine ⟨by decide +kernel, ?_⟩
  obtain ⟨s, l, hs, heq, -⟩ := List.map_eq_cons_iff.1 h
  obtain ⟨hname, hl⟩ := Prod.mk.inj heq
  refine ⟨s, by simp [hs], hname, hl, ?_⟩
  rw [Skip.Published, hl]
  nofun

end Specter.TunClient
