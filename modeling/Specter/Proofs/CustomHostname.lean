import Specter.Proofs.Handlers
import Specter.Proofs.TunnelStore

/-!
# Custom hostnames and their owners

The owner of a custom hostname is recorded twice.  As long as no `AcmeValidate` of a hostname
overlaps another one or a `ReleaseTunnel` of it, a hostname in the index of a client has a record
that names the client.
-/

namespace Specter.Tunnel

open Lib (Prog Rules)

variable {hostname : Hostname} {g : Given} {c : Call} {tasks : List Task} {c' : Call} {e : Step}

/-- What is stored is the record of a hostname of the client. -/
def NamesClient (token : Token) : Option Value → Prop
  | some (.custom c) => c.clientToken = token
  | _ => False

def World.Names (w : World) (hostname : Hostname) (token : Token) : Prop :=
  NamesClient token (w.simple (.customHostname hostname))

def Call.registers (g : Given) : Call → Option Hostname
  | .acmeValidate _ _ hostname _ => (g.acme.normalize hostname).toOption
  | _ => none

/-- The hostname that a call registers or releases. -/
def Call.settles (g : Given) : Call → Option Hostname
  | .releaseTunnel _ hostname => some hostname
  | c => c.registers g

/-- Neither call registers a hostname that the other registers or releases. -/
def Call.Apart (g : Given) (c c' : Call) : Prop :=
  (c.registers g = none ∨ c.registers g ≠ c'.settles g) ∧
    (c'.registers g = none ∨ c'.registers g ≠ c.settles g)

/-- If the step begins a call, no call that is running is in its way. -/
def Step.Apart (g : Given) (e : Step) : Prop :=
  match e.act with
  | .begin c => ∀ x ∈ e.before.running, c.Apart g x.2
  | _ => True

/-- The client that a thread publishes routes for. -/
def publisher (tasks : List Task) (t : ℕ) : Option Token :=
  match tasks[t]? with
  | some (.call _ (.publishTunnel token _ _ _)) => some token
  | _ => none

def Act.routes : Act → Option Hostname
  | .kv (.put (.routing hostname _) _) => some hostname
  | _ => none

def Act.LooksUp (token : Token) (hostname : Hostname) : Act → Prop
  | .kv (.prefixContains (.clientHostnames token') hostname') =>
    token' = token ∧ hostname' = hostname
  | _ => False

/-- If `PublishTunnel` writes a route of a custom hostname in this step, the record of the hostname
names the client, or did so when the call looked the hostname up. -/
def Step.Rightful (tasks : List Task) (steps : List Step) (e : Step) : Prop :=
  match publisher tasks e.thread, e.act.routes with
  | some token, some hostname => hostname.dotted = true →
    e.before.Names hostname token ∨ ∃ e' ∈ steps, e'.thread = e.thread ∧
      e'.act.LooksUp token hostname ∧ e'.before.Names hostname token
  | _, _ => True

instance (token : Token) : DecidablePred (NamesClient token) := fun v => by
  unfold NamesClient
  split <;> infer_instance

instance (w : World) (hostname : Hostname) (token : Token) :
    Decidable (w.Names hostname token) := by
  unfold World.Names
  infer_instance

instance (g : Given) (c c' : Call) : Decidable (c.Apart g c') := by
  unfold Call.Apart
  infer_instance

instance (g : Given) (e : Step) : Decidable (e.Apart g) := by
  unfold Step.Apart
  split <;> infer_instance

instance (token : Token) (hostname : Hostname) : DecidablePred (Act.LooksUp token hostname) :=
  fun a => by
    unfold Act.LooksUp
    split <;> infer_instance

instance (tasks : List Task) (steps : List Step) (e : Step) :
    Decidable (e.Rightful tasks steps) := by
  unfold Step.Rightful
  split <;> infer_instance

theorem World.names_congr {w w' : World} {token : Token}
    (h : w'.simple (.customHostname hostname) = w.simple (.customHostname hostname)) :
    w'.Names hostname token ↔ w.Names hostname token := by
  unfold World.Names
  rw [h]

theorem World.Names.unique {w : World} {token token' : Token} (h : w.Names hostname token)
    (h' : w.Names hostname token') : token = token' := by
  unfold World.Names at h h'
  match w.simple (.customHostname hostname), h, h' with
  | some (.custom c), h, h' => exact h.symm.trans h'

theorem Call.Apart.symm (h : c.Apart g c') : c'.Apart g c :=
  ⟨h.2, h.1⟩

theorem Call.Apart.disjoint (h : c.Apart g c') (hc : c.registers g = some hostname) :
    c'.settles g ≠ some hostname := by
  intro hc'
  rcases h.1 with h | h
  · cases h.symm.trans hc
  · exact h (hc.trans hc'.symm)

theorem Call.settles_of_registers (h : c.registers g = some hostname) :
    c.settles g = some hostname := by
  unfold Call.settles
  split
  · cases h
  · exact h

theorem Step.Rightful.mono {steps steps' : List Step} (h : e.Rightful tasks steps)
    (hsub : ∀ e ∈ steps, e ∈ steps') : e.Rightful tasks steps' := by
  unfold Rightful at h ⊢
  split
  · rename_i token hostname hp hr
    simp only [hp, hr] at h
    refine fun hd => (h hd).imp_right ?_
    rintro ⟨e', he', h⟩
    exact ⟨e', hsub e' he', h⟩
  · trivial

theorem Step.rightful_of_not_routes {steps : List Step}
    (h : e.act.routes = none ∨ publisher tasks e.thread = none) : e.Rightful tasks steps := by
  unfold Rightful
  split
  · rename_i hp hr
    rcases h with h | h
    · cases h.symm.trans hr
    · cases h.symm.trans hp
  · trivial

def KvOp.records : KvOp → Option Hostname
  | .put (.customHostname hostname) _ | .delete (.customHostname hostname) => some hostname
  | _ => none

def KvOp.enters : KvOp → Option (Token × Hostname)
  | .prefixAppend (.clientHostnames token) hostname => some (token, hostname)
  | _ => none

/-- The step writes neither of the two records, and no route for `PublishTunnel`. -/
def Act.SparesHostnames (tasks : List Task) (t : ℕ) : Act → Prop
  | .kv op => op.records = none ∧ op.enters = none ∧
    ((Act.kv op).routes = none ∨ publisher tasks t = none)
  | .arrive | .begin _ | .finish .. => False
  | _ => True

namespace Custom

section

variable (g : Given) (tasks : List Task)

structure OwnerInv (s : StoreState) : Prop where
  pending : s.world.pending = []
  named : ∀ token (hostname : Hostname), hostname.dotted = true →
    hostname ∈ s.world.children (.clientHostnames token) → s.world.Names hostname token
  apart : ∀ x ∈ s.world.running, ∀ y ∈ s.world.running, x.1 ≠ y.1 → x.2.Apart g y.2
  rightful : ∀ e ∈ s.steps, e.Rightful tasks s.steps

structure OwnerGuar (t : ℕ) (s s' : StoreState) : Prop where
  record : ∀ hostname,
    s'.world.simple (.customHostname hostname) = s.world.simple (.customHostname hostname) ∨
      ∃ c, (t, c) ∈ s.world.running ∧ c.settles g = some hostname
  children : ∀ token, ∀ hostname ∈ s'.world.children (.clientHostnames token),
    hostname ∈ s.world.children (.clientHostnames token) ∨
      ∃ c, (t, c) ∈ s.world.running ∧ c.registers g = some hostname
  running : ∀ x ∈ s.world.running, x.1 ≠ t → x ∈ s'.world.running
  steps : ∀ e ∈ s.steps, e ∈ s'.steps

def ownerRules : Rules (tunnelStore g) where
  ok l := ∀ e, l.outcome ≠ .late e
  known _ _ s' := ∀ e ∈ s'.steps, e.Apart g
  inv := OwnerInv g tasks
  guar := OwnerGuar g
  fresh t _ := tasks.length ≤ t
  pre τ _ := τ.isSession = true
  post _ _ := True

end

/-- A step of a call that writes the record of hostname `C` and enters `A` at most. -/
structure Moves (tasks : List Task) (C : Option Hostname) (A : Option (Token × Hostname))
    (s s' : StoreState) : Prop where
  record : ∀ hostname, C ≠ some hostname →
    s'.world.simple (.customHostname hostname) = s.world.simple (.customHostname hostname)
  children : ∀ token, ∀ hostname ∈ s'.world.children (.clientHostnames token),
    hostname ∈ s.world.children (.clientHostnames token) ∨ A = some (token, hostname)
  pending : s'.world.pending = s.world.pending
  running : s'.world.running = s.world.running
  steps : ∀ e ∈ s.steps, e ∈ s'.steps
  new : ∀ e ∈ s'.steps, e ∈ s.steps ∨ e.Rightful tasks s'.steps

section

variable {g : Given} {tasks : List Task} {t : ℕ} {s s' : StoreState} {C : Option Hostname}
  {A : Option (Token × Hostname)}

theorem moves_kv {l : Label} {op : KvOp} {r : op.Res} (hl : ∀ e, l.outcome ≠ .late e)
    (hr : (⟨t, .kv op, s.world, s'.world⟩ : Step).Rightful tasks s.steps)
    (h : StoreState.exec l t s (.kv op) = some (r, s')) :
    Moves tasks op.records op.enters s s' := by
  cases h
  constructor
  · intro hostname hop
    refine World.simple_exec ?_ ?_
    · rintro v rfl
      exact hop rfl
    · rintro rfl
      exact hop rfl
  · intro token hostname hmem
    refine (World.mem_children_exec hmem).imp_right ?_
    rintro rfl
    rfl
  · exact World.pending_exec hl
  · exact World.running_exec
  · exact fun e => List.mem_cons_of_mem _
  · intro e he
    refine (StoreState.mem_steps_record.1 he).symm.imp_right ?_
    rintro rfl
    exact hr.mono fun e => List.mem_cons_of_mem _

namespace Moves

variable (h : Moves tasks C A s s')

include h

theorem inv (hi : OwnerInv g tasks s)
    (hnamed : ∀ token (hostname : Hostname), hostname.dotted = true →
      hostname ∈ s'.world.children (.clientHostnames token) →
      C = some hostname ∨ A = some (token, hostname) → s'.world.Names hostname token) :
    OwnerInv g tasks s' where
  pending := h.pending.trans hi.pending
  named token hostname hd hmem := by
    by_cases hCA : C = some hostname ∨ A = some (token, hostname)
    · exact hnamed token hostname hd hmem hCA
    · have hold := (h.children token hostname hmem).resolve_right fun hA => hCA (.inr hA)
      exact (World.names_congr (h.record hostname fun hC => hCA (.inl hC))).2
        (hi.named token hostname hd hold)
  apart := by
    rw [h.running]
    exact hi.apart
  rightful e he := (h.new e he).elim (fun he => (hi.rightful e he).mono h.steps) id

theorem guar
    (hC : ∀ hostname, C = some hostname →
      ∃ c, (t, c) ∈ s.world.running ∧ c.settles g = some hostname)
    (hA : ∀ token hostname, A = some (token, hostname) →
      ∃ c, (t, c) ∈ s.world.running ∧ c.registers g = some hostname) : OwnerGuar g t s s' where
  record hostname := by
    by_cases hop : C = some hostname
    · exact .inr (hC hostname hop)
    · exact .inl (h.record hostname hop)
  children token hostname hmem := (h.children token hostname hmem).imp_right (hA token hostname)
  running x hx _ := h.running ▸ hx
  steps := h.steps

end Moves

abbrev Spares (tasks : List Task) (_ : ℕ) : StoreState → StoreState → Prop := Moves tasks none none

theorem neutral_spares :
    (ownerRules g tasks).Neutral (Spares tasks) t (Act.SparesHostnames tasks t) where
  step {l s a r s'} ha hl he := by
    cases a with
    | kv op =>
      obtain ⟨hC, hA, hr⟩ := ha
      have := moves_kv hl (Step.rightful_of_not_routes hr) he
      rwa [hC, hA] at this
    | arrive | begin | finish => exact ha.elim
    | session | now | ctxErr | lookupCNAME | next | select =>
      cases he
      exact ⟨fun _ _ => rfl, fun _ _ => .inl, rfl, rfl, fun _ => id, fun _ => .inl⟩
  keeps h hi := by
    refine ⟨h.inv hi fun _ _ _ _ hCA => ?_, h.guar (fun _ hC => ?_) fun _ _ hA => ?_⟩
    · rcases hCA with h | h <;> cases h
    · cases hC
    · cases hA

theorem firm_running (c : Call) :
    (ownerRules g tasks).Firm (Spares tasks) t fun s => (t, c) ∈ s.world.running where
  stable _ _ _ hne _ _ hg _ h := hg.running _ h hne.symm
  kept h hs := h.running ▸ hs

theorem firm_record (hc : c.registers g = some hostname) (φ : Option Value → Prop) :
    (ownerRules g tasks).Firm (Spares tasks) t fun s =>
      (t, c) ∈ s.world.running ∧ φ (s.world.simple (.customHostname hostname)) where
  stable s s' t' hne hi hi' hg hk h := by
    refine ⟨(firm_running c).stable s s' t' hne hi hi' hg hk h.1, ?_⟩
    rcases hg.record hostname with hrec | ⟨c', hrun, hc'⟩
    · exact hrec ▸ h.2
    · exact absurd hc' ((hi.apart _ h.1 _ hrun hne.symm).disjoint hc)
  kept h hs := ⟨h.running ▸ hs.1, by rw [h.record hostname (by simp)]; exact hs.2⟩

theorem firm_absent (hc : c.settles g = some hostname) (φ : Token → Prop) :
    (ownerRules g tasks).Firm (Spares tasks) t fun s => (t, c) ∈ s.world.running ∧
      ∀ token, φ token → hostname ∉ s.world.children (.clientHostnames token) where
  stable s s' t' hne hi hi' hg hk h := by
    refine ⟨(firm_running c).stable s s' t' hne hi hi' hg hk h.1, fun token hφ hmem => ?_⟩
    rcases hg.children token hostname hmem with hmem | ⟨c', hrun, hc'⟩
    · exact h.2 token hφ hmem
    · exact (hi.apart _ hrun _ h.1 hne).disjoint hc' hc
  kept h hs := ⟨h.running ▸ hs.1, fun token hφ hmem =>
    (h.children token hostname hmem).elim (hs.2 token hφ) fun hA => by cases hA⟩

/-- The call is under way, and the hostname is not recorded for another client. -/
abbrev Unclaimed (t : ℕ) (c : Call) (hostname : Hostname) (token : Token) (s : StoreState) : Prop :=
  (t, c) ∈ s.world.running ∧
    (s.world.simple (.customHostname hostname) = none ∨ s.world.Names hostname token)

section Steps

variable {l : Label} {c : Call} {token : Token} {hostname : Hostname}

section

variable (hc : c.registers g = some hostname) (hi : OwnerInv g tasks s)
  (hl : ∀ e, l.outcome ≠ .late e)

include hc hi hl

theorem save_step {client : Peer}
    {r : (KvOp.put (.customHostname hostname) (.custom ⟨client, token⟩)).Res}
    (hs : Unclaimed t c hostname token s)
    (h : StoreState.exec l t s (.kv (.put (.customHostname hostname) (.custom ⟨client, token⟩))) =
      some (r, s')) :
    OwnerInv g tasks s' ∧ OwnerGuar g t s s' ∧
      (r = .ok () → (t, c) ∈ s'.world.running ∧ s'.world.Names hostname token) := by
  have hm : Moves tasks _ _ s s' := moves_kv hl (Step.rightful_of_not_routes (.inl rfl)) h
  refine ⟨hm.inv hi fun token' hostname' hd hmem hCA => ?_, hm.guar (fun _ hC => ?_)
    fun _ _ hA => ?_, fun hr => ⟨hm.running ▸ hs.1, ?_⟩⟩
  · obtain rfl : hostname = hostname' := by
      rcases hCA with hC | hA
      · exact Option.some.inj hC
      · cases hA
    have hold := hi.named token' hostname hd
      ((hm.children token' hostname hmem).resolve_right fun hA => by cases hA)
    obtain rfl : token' = token := by
      rcases hs.2 with hnone | hs
      · rw [World.Names, hnone] at hold
        exact hold.elim
      · exact hold.unique hs
    cases h
    rcases World.exec_put (w := s.world) (t := t) (o := l.outcome)
      (k := .customHostname hostname) (v := .custom ⟨client, token'⟩) with hput | hput
    · simp only [World.Names, StoreState.record, hput]
      rfl
    · exact (World.names_congr hput).2 hold
  · cases hC
    exact ⟨c, hs.1, Call.settles_of_registers hc⟩
  · cases hA
  · cases h
    simp only [World.Names, StoreState.record, World.exec_put_ok hr]
    rfl

theorem enter_step {r : (KvOp.prefixAppend (.clientHostnames token) hostname).Res}
    (hs : (t, c) ∈ s.world.running ∧ s.world.Names hostname token)
    (h : StoreState.exec l t s (.kv (.prefixAppend (.clientHostnames token) hostname)) =
      some (r, s')) : OwnerInv g tasks s' ∧ OwnerGuar g t s s' := by
  have hm : Moves tasks _ _ s s' := moves_kv hl (Step.rightful_of_not_routes (.inl rfl)) h
  refine ⟨hm.inv hi fun token' hostname' hd hmem hCA => ?_, hm.guar (fun _ hC => ?_)
    fun _ _ hA => ?_⟩
  · rcases hCA with hC | hA
    · cases hC
    · cases hA
      exact (World.names_congr (hm.record hostname (by simp [KvOp.records]))).2 hs.2
  · cases hC
  · cases hA
    exact ⟨c, hs.1, hc⟩

end

theorem remove_step {r : (KvOp.prefixRemove (.clientHostnames token) hostname).Res}
    (hi : OwnerInv g tasks s) (hl : ∀ e, l.outcome ≠ .late e)
    (hs : (t, c) ∈ s.world.running ∧ ∀ token', hostname.dotted = true ∧ token' ≠ token →
      hostname ∉ s.world.children (.clientHostnames token'))
    (h : StoreState.exec l t s (.kv (.prefixRemove (.clientHostnames token) hostname)) =
      some (r, s')) :
    OwnerInv g tasks s' ∧ OwnerGuar g t s s' ∧ (r = .ok () → (t, c) ∈ s'.world.running ∧
      ∀ token', hostname.dotted = true →
        hostname ∉ s'.world.children (.clientHostnames token')) := by
  have hm : Spares tasks t s s' := moves_kv hl (Step.rightful_of_not_routes (.inl rfl)) h
  obtain ⟨hi', hg⟩ := neutral_spares.keeps hm hi
  refine ⟨hi', hg, fun hr => ⟨hm.running ▸ hs.1, fun token' hd hmem => ?_⟩⟩
  by_cases ht : token' = token
  · subst ht
    cases h
    exact World.exec_remove_ok hr hmem
  · exact hs.2 token' ⟨hd, ht⟩
      ((hm.children token' hostname hmem).resolve_right fun hA => by cases hA)

theorem forget_step (hc : c.settles g = some hostname)
    {r : (KvOp.delete (.customHostname hostname)).Res} (hi : OwnerInv g tasks s)
    (hl : ∀ e, l.outcome ≠ .late e)
    (hs : (t, c) ∈ s.world.running ∧ ∀ token, hostname.dotted = true →
      hostname ∉ s.world.children (.clientHostnames token))
    (h : StoreState.exec l t s (.kv (.delete (.customHostname hostname))) = some (r, s')) :
    OwnerInv g tasks s' ∧ OwnerGuar g t s s' := by
  have hm : Moves tasks _ _ s s' := moves_kv hl (Step.rightful_of_not_routes (.inl rfl)) h
  refine ⟨hm.inv hi fun token' hostname' hd hmem hCA => ?_, hm.guar (fun _ hC => ?_)
    fun _ _ hA => ?_⟩
  · rcases hCA with hC | hA
    · cases hC
      exact absurd ((hm.children token' hostname hmem).resolve_right fun hA => by cases hA)
        (hs.2 token' hd)
    · cases hA
  · cases hC
    exact ⟨c, hs.1, hc⟩
  · cases hA

end Steps

end

end Custom

end Specter.Tunnel
