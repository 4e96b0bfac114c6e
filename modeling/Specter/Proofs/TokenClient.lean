import Specter.Lib.Rely
import Specter.TokenClient

/-!
# The slots of the token client

Only the token client changes its slots, and it asks whether a slot holds a connection, or a server,
right before it does anything to it.  While it waits for an answer slots may only be emptied.
-/

namespace Specter.TokenClient

open Lib
open Tunnel (numRedundantLinks)

variable {slots : Slots} {c : TokenConnection} {conn pc : ℕ} {address : String}
  {slot : Fin numRedundantLinks} {a : TokenAct} {P : TokenState → Prop} {except : List ℕ} {α : Type}
  {p : TokenProg α} {bootstrap : Option ℕ}

def TokenEvent.Fine : TokenEvent → Prop
  | .opened conn held => conn ∉ held
  | .closed conn held => conn ∉ held
  | .returned due held shut ended => ∀ conn ∈ due, conn ∈ held ∨ conn ∈ shut ∨ conn ∈ ended

structure TokenInv (s : TokenState) : Prop where
  distinct : ∀ i j a b, i ≠ j → s.slots i = some a → s.slots j = some b →
    a.conn ≠ b.conn ∧ a.address ≠ b.address
  named : ∀ i a, s.slots i = some a → a.address ≠ ""
  fine : ∀ e ∈ s.log, e.Fine

def Loose (pc : ℕ) (s : TokenState) : Prop := ∀ i c, s.slots i = some c → c.conn ≠ pc

def Unattached (address : String) (s : TokenState) : Prop :=
  ∀ i c, s.slots i = some c → c.address ≠ address

def Free (slot : Fin numRedundantLinks) (s : TokenState) : Prop := ∀ c, s.slots slot ≠ some c

def Settled (conn : ℕ) (s : TokenState) : Prop :=
  conn ∈ held s.slots ∨ conn ∈ s.closed ∨ conn ∈ s.ended

/-- The round has settled its connections, except these. -/
def Due (except : List ℕ) (s : TokenState) : Prop :=
  ∀ conn ∈ s.due, conn ∈ except ∨ Settled conn s

theorem mem_connections : c ∈ connections slots ↔ ∃ i, slots i = some c := by
  simp [connections]

theorem mem_held : conn ∈ held slots ↔ ∃ i c, slots i = some c ∧ c.conn = conn := by
  simp only [held, List.mem_map, mem_connections]
  exact ⟨fun ⟨c, ⟨i, h⟩, hc⟩ => ⟨i, c, h, hc⟩, fun ⟨i, c, h, hc⟩ => ⟨c, ⟨i, h⟩, hc⟩⟩

theorem hasConnection_iff {pc : Option ℕ} :
    hasConnection slots pc address = true ↔
      ∃ i c, slots i = some c ∧ (some c.conn = pc ∨ c.address = address) := by
  simp only [hasConnection, List.any_eq_true, decide_eq_true_eq, mem_connections]
  exact ⟨fun ⟨c, ⟨i, h⟩, hc⟩ => ⟨i, c, h, hc⟩, fun ⟨i, c, h, hc⟩ => ⟨c, ⟨i, h⟩, hc⟩⟩

theorem vacancy_free (h : vacancy slots = some slot) : slots slot = none := by
  simpa using List.find?_some h

section States

variable {s s' : TokenState} {pc : ℕ} {slot : Fin numRedundantLinks} {address : String}

theorem Loose.notMem (h : Loose pc s) : pc ∉ held s.slots := by
  intro hm
  obtain ⟨i, c, hc, he⟩ := mem_held.1 hm
  exact h i c hc he

theorem loose_of_hasConnection (h : hasConnection s.slots (some pc) address = false) :
    Loose pc s := by
  intro i c hc he
  have htrue : hasConnection s.slots (some pc) address = true :=
    hasConnection_iff.2 ⟨i, c, hc, .inl (congrArg some he)⟩
  exact Bool.false_ne_true (h.symm.trans htrue)

theorem unattached_of_hasConnection (h : hasConnection s.slots none address = false) :
    Unattached address s := by
  intro i c hc he
  have htrue : hasConnection s.slots none address = true :=
    hasConnection_iff.2 ⟨i, c, hc, .inr he⟩
  exact Bool.false_ne_true (h.symm.trans htrue)

theorem mem_held_of_hasConnection (hi : TokenInv s)
    (h : hasConnection s.slots (some pc) "" = true) : pc ∈ held s.slots := by
  obtain ⟨i, c, hc, he | he⟩ := hasConnection_iff.1 h
  · exact mem_held.2 ⟨i, c, hc, Option.some.inj he⟩
  · exact absurd he (hi.named i c hc)

/-- A step that fills no slot, and empties one only if its connection has ended. -/
structure Drift (s s' : TokenState) : Prop where
  slots : ∀ i c, s'.slots i = some c → s.slots i = some c
  emptied : ∀ i c, s.slots i = some c → s'.slots i = some c ∨ c.conn ∈ s'.ended
  ended : s.ended ⊆ s'.ended
  closed : s'.closed = s.closed
  due : s'.due = s.due
  log : s'.log = s.log

theorem drift_ended (s : TokenState) (ends : List ℕ) :
    Drift s { s with ended := ends ++ s.ended } :=
  ⟨fun _ _ h => h, fun _ _ h => .inl h, List.subset_append_right ends s.ended, rfl, rfl, rfl⟩

theorem Drift.inv (h : Drift s s') (hi : TokenInv s) : TokenInv s' where
  distinct i j a b hne ha hb := hi.distinct i j a b hne (h.slots i a ha) (h.slots j b hb)
  named i a ha := hi.named i a (h.slots i a ha)
  fine := h.log ▸ hi.fine

theorem Drift.loose (h : Drift s s') (hl : Loose pc s) : Loose pc s' :=
  fun i c hc => hl i c (h.slots i c hc)

theorem Drift.unattached (h : Drift s s') (hu : Unattached address s) : Unattached address s' :=
  fun i c hc => hu i c (h.slots i c hc)

theorem Drift.free (h : Drift s s') (hf : Free slot s) : Free slot s' :=
  fun c hc => hf c (h.slots slot c hc)

theorem Drift.settled (h : Drift s s') (hs : Settled conn s) : Settled conn s' := by
  rcases hs with hh | hc | he
  · obtain ⟨i, c, hc, rfl⟩ := mem_held.1 hh
    rcases h.emptied i c hc with hc' | he
    · exact .inl (mem_held.2 ⟨i, c, hc', rfl⟩)
    · exact .inr (.inr he)
  · exact .inr (.inl (h.closed ▸ hc))
  · exact .inr (.inr (h.ended he))

theorem Drift.dueSettled (h : Drift s s') (hd : Due except s) : Due except s' := by
  intro conn hm
  rw [h.due] at hm
  exact (hd conn hm).imp_right h.settled

theorem drift_prune (s : TokenState) (slot : Fin numRedundantLinks) : Drift s (s.prune slot) := by
  have hrefl : Drift s s := ⟨fun _ _ h => h, fun _ _ h => .inl h, fun _ h => h, rfl, rfl, rfl⟩
  unfold TokenState.prune
  rcases hc : s.slots slot with _ | connection
  · exact hrefl
  dsimp only
  split_ifs with he
  · refine ⟨fun i c h => ?_, fun i c h => ?_, fun _ h => h, rfl, rfl, rfl⟩
    · by_cases hi : i = slot
      · subst hi
        simp at h
      · exact (Function.update_of_ne hi _ _).symm.trans h
    · by_cases hi : i = slot
      · subst hi
        obtain rfl : connection = c := Option.some.inj (hc.symm.trans h)
        exact .inr he
      · exact .inl ((Function.update_of_ne hi _ _).trans h)
  · exact hrefl

theorem drift_acceptSession (s : TokenState) (print : Option String) (resp : Session) :
    Drift s (s.acceptSession print resp).2 := by
  have hrefl : Drift s s := ⟨fun _ _ h => h, fun _ _ h => .inl h, fun _ h => h, rfl, rfl, rfl⟩
  unfold TokenState.acceptSession
  split_ifs with h
  · exact hrefl
  rcases s.initialSession with _ | session
  · exact ⟨fun _ _ h => h, fun _ _ h => .inl h, fun _ h => h, rfl, rfl, rfl⟩
  · dsimp only
    split_ifs <;> exact hrefl

theorem acceptSession_named {print : Option String} {resp : Session}
    (h : (s.acceptSession print resp).1 = none) : resp.address ≠ "" := by
  intro he
  rw [TokenState.acceptSession, if_pos (.inr (.inl he))] at h
  cases h

end States

/-- The actions that neither fill a slot nor count towards what a round has to settle. -/
def TokenAct.IsQuiet : TokenAct → Prop
  | .openDelegatedSession .. | .setSlot .. | .close _ | .bootstraps _ | .returns => False
  | _ => True

theorem Drift.trans {s s' s'' : TokenState} (h : Drift s s') (h' : Drift s' s'') :
    Drift s s'' where
  slots i c hc := h.slots i c (h'.slots i c hc)
  emptied i c hc := by
    rcases h.emptied i c hc with hc' | he
    · exact h'.emptied i c hc'
    · exact .inr (h'.ended he)
  ended := List.Subset.trans h.ended h'.ended
  closed := h'.closed.trans h.closed
  due := h'.due.trans h.due
  log := h'.log.trans h.log

theorem drift_perform {l : TokenLabel} {s : TokenState} (ha : a.IsQuiet) :
    Drift s (s.perform l a).2 := by
  cases a with
  | prune slot => exact drift_prune s slot
  | acceptSession resp => exact drift_acceptSession s l.print resp
  | openDelegatedSession _ _ | setSlot _ _ | close _ | bootstraps _ | returns => exact ha.elim
  | _ => exact ⟨fun _ _ h => h, fun _ _ h => .inl h, fun _ h => h, rfl, rfl, rfl⟩

def Quiet {α : Type} (p : TokenProg α) : Prop := p.Only TokenAct.IsQuiet fun _ => False

def tokenRules (apex : String) : Rules (tokenClient apex) where
  ok _ := True
  known _ _ _ := True
  inv := TokenInv
  guar t _ _ := t = 0
  fresh t _ := t ≠ 0
  pre _ _ := False
  post _ _ := True

variable {apex : String}

theorem token_stable (P : TokenState → Prop) : (tokenRules apex).Stable 0 P :=
  fun _ _ _ hne _ _ hg _ _ => absurd hg hne

theorem token_neutral :
    (tokenRules apex).Neutral (fun _ => Drift) 0 TokenAct.IsQuiet where
  step := by
    intro l s a r s' ha _ he
    have hs' := congrArg Prod.snd (Option.some.inj he)
    subst hs'
    exact (drift_ended s l.ends).trans (drift_perform ha)
  keeps h hi := ⟨h.inv hi, rfl⟩

abbrev Lasting (apex : String) (P : TokenState → Prop) : Prop :=
  (tokenRules apex).Firm (fun _ => Drift) 0 P

theorem lasting_of (h : ∀ {s s'}, Drift s s' → P s → P s') : Lasting apex P :=
  ⟨token_stable P, h⟩

theorem lasting_loose (pc : ℕ) : Lasting apex (Loose pc) := lasting_of Drift.loose

theorem lasting_unattached (address : String) : Lasting apex (Unattached address) :=
  lasting_of Drift.unattached

theorem lasting_free (slot : Fin numRedundantLinks) : Lasting apex (Free slot) :=
  lasting_of Drift.free

theorem lasting_due (except : List ℕ) : Lasting apex (Due except) := lasting_of Drift.dueSettled

theorem triple_ret {Q : α → TokenState → Prop} {a : α} (h : ∀ s, P s → Q a s) :
    (tokenRules apex).Triple 0 P (.ret a) Q :=
  .ret (token_stable _) fun s _ => h s

theorem triple_quiet (hP : Lasting apex P) (hp : Quiet p) :
    (tokenRules apex).Triple 0 P p fun _ => P :=
  token_neutral.triple hP (fun _ h => h.elim) hp

theorem triple_slots {Q : Slots → TokenState → Prop} (hQ : ∀ slots, Lasting apex (Q slots))
    (h : ∀ s, TokenInv s → P s → Q s.slots s) : (tokenRules apex).Triple 0 P (act .slots) Q := by
  refine .perform (token_stable P) (fun _ => token_stable _) fun s l r s' hi hs _ he _ => ?_
  cases he
  have hd := drift_ended s l.ends
  exact ⟨hd.inv hi, rfl, (hQ s.slots).kept hd (h s hi hs)⟩

theorem triple_change (hP : Lasting apex P) {Q : tokenSig.Res a → TokenState → Prop}
    (h : ∀ s l, TokenInv s → P s → TokenInv (s.perform l a).2 ∧
      Q (s.perform l a).1 (s.perform l a).2) : (tokenRules apex).Triple 0 P (act a) Q := by
  refine .perform (token_stable P) (fun _ => token_stable _) fun s l r s' hi hs _ he _ => ?_
  have hd := drift_ended s l.ends
  obtain ⟨hi', hQ⟩ := h _ l (hd.inv hi) (hP.kept hd hs)
  obtain ⟨rfl, rfl⟩ : _ = r ∧ _ = s' := Prod.mk.inj (Option.some.inj he)
  exact ⟨hi', rfl, hQ⟩

theorem quiet_ret (a : α) : Quiet (.ret a) := trivial

theorem quiet_bind {β : Type} {f : α → TokenProg β} (hp : Quiet p) (hf : ∀ a, Quiet (f a)) :
    Quiet (p >>= f) :=
  .bind hp hf

theorem quiet_act (ha : a.IsQuiet) : Quiet (act a) := .perform ha

theorem quiet_pruneSlots : ∀ slots, Quiet (pruneSlots slots)
  | [] => quiet_ret _
  | _ :: rest => quiet_bind (quiet_act trivial) fun _ => quiet_pruneSlots rest

theorem quiet_prune : Quiet prune := quiet_pruneSlots _

theorem quiet_discover (pc : ℕ) : Quiet (discover pc) := by
  refine quiet_bind (quiet_act trivial) fun res => ?_
  rcases res with e | nodes
  · exact quiet_ret _
  · exact quiet_bind (quiet_act trivial) fun _ => quiet_ret _

theorem quiet_discoverFrom : ∀ connections, Quiet (discoverFrom connections)
  | [] => quiet_ret _
  | connection :: rest => by
    refine quiet_bind (quiet_act trivial) fun err => ?_
    rcases err with _ | e
    · refine quiet_bind (quiet_discover connection.conn) fun err => ?_
      rcases err with _ | e
      · exact quiet_ret _
      · exact quiet_discoverFrom rest
    · exact quiet_discoverFrom rest

theorem quiet_dialAttachment (address : String) : Quiet (dialAttachment address) :=
  quiet_act trivial

theorem quiet_dialCandidate (bootstrap : Option ℕ) (address : String) :
    Quiet (dialCandidate apex bootstrap address) := by
  rcases bootstrap with _ | pc
  · exact quiet_dialAttachment address
  rw [dialCandidate]
  split_ifs
  · refine quiet_bind (quiet_act trivial) fun err => ?_
    rcases err with _ | e <;> exact quiet_ret _
  · exact quiet_dialAttachment address

theorem quiet_conclude (round : Round) : Quiet (conclude round) := by
  refine quiet_bind quiet_prune fun _ => quiet_bind (quiet_act trivial) fun slots => ?_
  split_ifs
  · exact quiet_bind (quiet_act trivial) fun _ => quiet_ret _
  · exact quiet_ret _
  · refine quiet_bind (quiet_act trivial) fun _ => quiet_bind (quiet_act trivial) fun _ => ?_
    exact quiet_bind (quiet_act trivial) fun _ => quiet_ret _

/-- The connection has been sent an `OpenDelegatedSession` for the slot. -/
def Pending (slot : Fin numRedundantLinks) (pc : ℕ) (except : List ℕ) (s : TokenState) : Prop :=
  Free slot s ∧ Loose pc s ∧ Due (pc :: except) s

theorem lasting_pending (slot : Fin numRedundantLinks) (pc : ℕ) (except : List ℕ) :
    Lasting apex (Pending slot pc except) :=
  (lasting_free slot).and ((lasting_loose pc).and (lasting_due _))

theorem triple_openDelegatedSession {n : ℕ} :
    (tokenRules apex).Triple 0 (fun s => Free slot s ∧ Loose pc s ∧ Due except s)
      (act (.openDelegatedSession pc n)) fun _ => Pending slot pc except := by
  refine triple_change ((lasting_free slot).and ((lasting_loose pc).and (lasting_due except)))
    fun s l hi ⟨hf, hl, hd⟩ => ?_
  refine ⟨⟨hi.distinct, hi.named, List.forall_mem_cons.2 ⟨hl.notMem, hi.fine⟩⟩, hf, hl, ?_⟩
  intro conn hm
  rcases List.mem_cons.1 hm with rfl | hm
  · exact .inl List.mem_cons_self
  · exact (hd conn hm).imp_left (List.mem_cons_of_mem pc)

theorem triple_close :
    (tokenRules apex).Triple 0 (fun s => Loose pc s ∧ Due (pc :: except) s) (act (.close pc))
      fun _ => Due except := by
  refine triple_change ((lasting_loose pc).and (lasting_due _)) fun s l hi hs => ?_
  refine ⟨⟨hi.distinct, hi.named, List.forall_mem_cons.2 ⟨hs.1.notMem, hi.fine⟩⟩, ?_⟩
  intro conn hm
  rcases hs.2 conn hm with hx | hh | hc | he
  · rcases List.mem_cons.1 hx with rfl | hx
    · exact .inr (.inr (.inl List.mem_cons_self))
    · exact .inl hx
  · exact .inr (.inl hh)
  · exact .inr (.inr (.inl (List.mem_cons_of_mem pc hc)))
  · exact .inr (.inr (.inr he))

theorem tokenInv_setSlot {s : TokenState} (hi : TokenInv s) (hl : Loose c.conn s)
    (hu : Unattached c.address s) (hn : c.address ≠ "") :
    TokenInv { s with slots := Function.update s.slots slot (some c) } := by
  have hcases : ∀ i a, Function.update s.slots slot (some c) i = some a →
      (i = slot ∧ a = c) ∨ (i ≠ slot ∧ s.slots i = some a) := by
    intro i a ha
    by_cases h : i = slot
    · subst h
      rw [Function.update_self] at ha
      exact .inl ⟨rfl, (Option.some.inj ha).symm⟩
    · rw [Function.update_of_ne h] at ha
      exact .inr ⟨h, ha⟩
  refine ⟨fun i j a b hne ha hb => ?_, fun i a ha => ?_, hi.fine⟩
  · obtain ⟨hi₁, ha⟩ | ⟨-, ha⟩ := hcases i a ha <;> obtain ⟨hj, hb⟩ | ⟨-, hb⟩ := hcases j b hb
    · exact absurd (hi₁.trans hj.symm) hne
    · exact ha ▸ ⟨(hl j b hb).symm, (hu j b hb).symm⟩
    · exact hb ▸ ⟨hl i a ha, hu i a ha⟩
    · exact hi.distinct i j a b hne ha hb
  · rcases hcases i a ha with ⟨-, rfl⟩ | ⟨-, ha⟩
    · exact hn
    · exact hi.named i a ha

theorem triple_setSlot (hn : address ≠ "") :
    (tokenRules apex).Triple 0
      (fun s => Pending slot pc except s ∧ Unattached address s)
      (act (.setSlot slot ⟨pc, address⟩)) fun _ => Due except := by
  refine triple_change ((lasting_pending slot pc except).and (lasting_unattached address))
    fun s l hi ⟨⟨hf, hl, hd⟩, hu⟩ => ?_
  refine ⟨tokenInv_setSlot hi hl hu hn, fun conn hm => ?_⟩
  have hheld : ∀ i c, s.slots i = some c →
      c.conn ∈ held (Function.update s.slots slot (some ⟨pc, address⟩)) := by
    intro i c hc
    have hne : i ≠ slot := by
      rintro rfl
      exact hf c hc
    exact mem_held.2 ⟨i, c, (Function.update_of_ne hne _ _).trans hc, rfl⟩
  rcases hd conn hm with hx | hh | hc | he
  · rcases List.mem_cons.1 hx with rfl | hx
    · exact .inr (.inl (mem_held.2 ⟨slot, _, Function.update_self .., rfl⟩))
    · exact .inl hx
  · obtain ⟨i, c, hc, rfl⟩ := mem_held.1 hh
    exact .inr (.inl (hheld i c hc))
  · exact .inr (.inr (.inl hc))
  · exact .inr (.inr (.inr he))

theorem triple_acceptSession (hP : Lasting apex P) (resp : Session) :
    (tokenRules apex).Triple 0 P (act (.acceptSession resp)) fun (err : Option ClientError) s =>
      (err = none → resp.address ≠ "") ∧ P s := by
  refine token_neutral.perform (a := .acceptSession resp) trivial hP
    (fun err => (Rules.Firm.const _).and hP) ?_
  intro s l r s' _ hs _ he
  refine ⟨fun hr => ?_, hs⟩
  subst hr
  exact acceptSession_named (congrArg Prod.fst (Option.some.inj he))

theorem triple_openSlot :
    (tokenRules apex).Triple 0 (fun s => Free slot s ∧ Loose pc s ∧ Due except s)
      (openSlot pc slot) fun err s =>
        match err with
        | none => Due except s
        | some _ => Loose pc s ∧ Due (pc :: except) s := by
  refine .bind triple_openDelegatedSession fun res => ?_
  rcases res with e | resp
  · exact triple_ret fun s h => h.2
  have hP : Lasting apex (Pending slot pc except) := lasting_pending slot pc except
  have hPu := hP.and (lasting_unattached resp.address)
  refine .bind (triple_quiet hP quiet_prune) fun _ => ?_
  refine .bind (triple_slots (Q := fun slots s => Pending slot pc except s ∧
    (hasConnection slots none resp.address = false → Unattached resp.address s))
    (fun slots => hP.and ((lasting_unattached resp.address).imp _))
    fun s _ h => ⟨h, unattached_of_hasConnection⟩) fun slots => ?_
  rcases hc : hasConnection slots none resp.address with _ | _
  · refine .pre (P := fun s => Pending slot pc except s ∧ Unattached resp.address s) ?_
      fun s _ h => ⟨h.1, h.2 rfl⟩
    refine .bind (triple_quiet hPu (quiet_act trivial)) fun cancelled => ?_
    rcases cancelled with _ | _
    · refine .bind (triple_quiet hPu (quiet_act trivial)) fun ended => ?_
      rcases ended with _ | _
      · refine .bind (triple_acceptSession hPu resp) fun err => ?_
        rcases err with _ | e
        · refine .bind (.assume fun hn => triple_setSlot (hn rfl)) fun _ => ?_
          exact triple_ret fun s h => h
        · exact triple_ret fun s h => h.2.1.2
      · exact triple_ret fun s h => h.1.2
    · exact triple_ret fun s h => h.1.2
  · exact triple_ret fun s h => h.1.2

theorem triple_attempt :
    (tokenRules apex).Triple 0 (fun s => Free slot s ∧ Due except s)
      (attempt apex bootstrap slot address) fun _ => Due except := by
  have hP : Lasting apex fun s => Free slot s ∧ Due except s :=
    (lasting_free slot).and (lasting_due except)
  refine .bind (triple_quiet hP (quiet_dialCandidate bootstrap address)) fun res => ?_
  rcases res with e | pc
  · dsimp only
    split_ifs <;> exact triple_ret fun s h => h.2
  refine .bind (triple_slots (Q := fun slots s => (Free slot s ∧ Due except s) ∧
    (hasConnection slots (some pc) "" = false → Loose pc s))
    (fun slots => hP.and ((lasting_loose pc).imp _))
    fun s _ h => ⟨h, loose_of_hasConnection⟩) fun slots => ?_
  rcases hc : hasConnection slots (some pc) "" with _ | _
  · refine .bind (triple_openSlot.pre fun s _ h => ⟨h.1.1, h.2 rfl, h.1.2⟩) fun err => ?_
    rcases err with _ | e
    · exact triple_ret fun s h => h
    · refine .bind triple_close fun _ => ?_
      split_ifs <;> exact triple_ret fun s h => h
  · exact triple_ret fun s h => h.1.2

theorem triple_attemptAll {bootstrap : Option ℕ} {except : List ℕ} : ∀ candidates round,
    (tokenRules apex).Triple 0 (Due except) (attemptAll apex bootstrap candidates round)
      fun _ => Due except
  | [], _ => triple_ret fun _ h => h
  | address :: rest, round => by
    have hP : Lasting apex (Due except) := lasting_due except
    refine .bind (triple_quiet hP (quiet_act trivial)) fun cancelled => ?_
    rcases cancelled with _ | _
    · refine .bind (triple_quiet hP quiet_prune) fun _ => ?_
      refine .bind (triple_slots (Q := fun slots s => Due except s ∧
        ∀ slot, vacancy slots = some slot → Free slot s) ?_ ?_) fun slots => ?_
      · exact fun slots => lasting_of fun hd h =>
          ⟨hd.dueSettled h.1, fun slot hv => hd.free (h.2 slot hv)⟩
      · intro s _ h
        refine ⟨h, fun slot hv c hc => ?_⟩
        exact nomatch (vacancy_free hv).symm.trans hc
      rcases hv : vacancy slots with _ | slot
      · exact triple_ret fun s h => h.1
      dsimp only
      split_ifs
      · exact (triple_attemptAll rest round).pre fun s _ h => h.1
      · refine .bind (triple_attempt.pre fun s _ h => ⟨h.2 slot rfl, h.1⟩) fun res => ?_
        rcases res with e | refused
        · exact triple_ret fun s h => h
        · exact triple_attemptAll rest _
    · exact triple_ret fun s h => h

theorem triple_connect {round : Round} :
    (tokenRules apex).Triple 0 (Due except) (connect apex bootstrap round) fun _ => Due except := by
  have hP : Lasting apex (Due except) := lasting_due except
  refine .bind (triple_quiet hP (quiet_act trivial)) fun candidates => ?_
  refine .bind (triple_attemptAll _ round) fun res => ?_
  rcases res with e | round
  · exact triple_ret fun s h => h
  · exact triple_quiet hP (quiet_conclude round)

theorem triple_closeUnused :
    (tokenRules apex).Triple 0 (Due [pc]) (closeUnused pc) fun _ => Due [] := by
  refine .bind (triple_slots (Q := fun slots s => Due [pc] s ∧
    (hasConnection slots (some pc) "" = false → Loose pc s) ∧
    (hasConnection slots (some pc) "" = true → Settled pc s)) ?_ ?_) fun slots => ?_
  · exact fun slots => (lasting_due _).and (((lasting_loose pc).imp _).and
      ((lasting_of Drift.settled).imp _))
  · exact fun s hi h =>
      ⟨h, loose_of_hasConnection, fun hc => .inl (mem_held_of_hasConnection hi hc)⟩
  rcases hc : hasConnection slots (some pc) "" with _ | _
  · refine .bind (triple_close.pre fun s _ h => ⟨h.2.1 rfl, h.1⟩) fun _ => ?_
    exact triple_ret fun s h => h
  · refine triple_ret fun s h conn hm => .inr ?_
    rcases h.1 conn hm with hx | hs
    · exact List.mem_singleton.1 hx ▸ h.2.2 rfl
    · exact hs

theorem triple_bootstraps :
    (tokenRules apex).Triple 0 (Due []) (act (.bootstraps pc)) fun _ => Due [pc] := by
  refine triple_change (lasting_due []) fun s l hi hd => ?_
  refine ⟨⟨hi.distinct, hi.named, hi.fine⟩, fun conn hm => ?_⟩
  rcases List.mem_cons.1 hm with rfl | hm
  · exact .inl List.mem_cons_self
  · exact .inr ((hd conn hm).resolve_left List.not_mem_nil)

theorem triple_fillSlots :
    (tokenRules apex).Triple 0 (Due []) (fillSlots apex) fun _ => Due [] := by
  have hP : Lasting apex (Due []) := lasting_due []
  refine .bind (triple_quiet hP quiet_prune) fun _ => ?_
  refine .bind (triple_quiet hP (quiet_act trivial)) fun slots => ?_
  rcases vacancy slots with _ | slot
  · exact triple_ret fun s h => h
  dsimp only
  split_ifs
  · refine .bind (triple_quiet hP (quiet_dialAttachment apex)) fun res => ?_
    rcases res with e | pc
    · dsimp only
      split_ifs
      · exact triple_ret fun s h => h
      · exact triple_connect
    · refine .bind triple_bootstraps fun _ => ?_
      refine .bind (triple_quiet (lasting_due [pc]) (quiet_discover pc)) fun _ => ?_
      refine .bind triple_connect fun res => .bind triple_closeUnused fun _ => ?_
      exact triple_ret fun s h => h
  · exact .bind (triple_quiet hP (quiet_discoverFrom _)) fun _ => triple_connect

theorem triple_returns :
    (tokenRules apex).Triple 0 (Due []) (act .returns) fun _ => Due [] := by
  refine triple_change (lasting_due []) fun s l hi hd => ?_
  refine ⟨⟨hi.distinct, hi.named, List.forall_mem_cons.2 ⟨fun conn hm => ?_, hi.fine⟩⟩, nofun⟩
  exact (hd conn hm).resolve_left List.not_mem_nil

theorem triple_reconciles : ∀ n,
    (tokenRules apex).Triple 0 (Due []) (reconciles apex n) fun _ => Due []
  | 0 => triple_ret fun _ h => h
  | n + 1 => by
    have hround : (tokenRules apex).Triple 0 (Due []) (reconcile apex) fun _ => Due [] :=
      .bind triple_fillSlots fun _ => .bind triple_returns fun _ => triple_ret fun _ h => h
    exact .bind hround fun _ => triple_reconciles n

theorem token_closed : (tokenRules apex).Closed where
  stable _ _ _ _ _ _ _ _ _ h := h
  safe _ _ := fun _ _ h => h.1.elim

theorem tokenInv_start : TokenInv .start := ⟨nofun, nofun, nofun⟩

/-- In every state of every run, whatever is answered and whichever connections end: no two slots
hold one connection or one server; no `OpenDelegatedSession` was sent on a connection that a slot
held, and none was closed; and whenever `reconcile` returned, each connection that it bootstrapped
from or opened a session on was in a slot, closed, or had ended. -/
theorem token_slots_stay_distinct (apex : String) (n : ℕ) (sched : List (ℕ × TokenLabel))
    (c : Config tokenSig TokenState)
    (h : (tokenClient apex).run sched ((tokenClient apex).launch [.reconciles n] .start) = some c) :
    (∀ i j a b, i ≠ j → c.shared.slots i = some a → c.shared.slots j = some b →
      a.conn ≠ b.conn ∧ a.address ≠ b.address) ∧
    (∀ conn held, .opened conn held ∈ c.shared.log → conn ∉ held) ∧
    (∀ conn held, .closed conn held ∈ c.shared.log → conn ∉ held) ∧
    ∀ due held closed ended, .returned due held closed ended ∈ c.shared.log →
      ∀ conn ∈ due, conn ∈ held ∨ conn ∈ closed ∨ conn ∈ ended := by
  have hgood : (tokenRules apex).Good ((tokenClient apex).launch [.reconciles n] .start) := by
    refine Rules.good_launch tokenInv_start (fun t ht => Nat.ne_of_gt ht) fun t τ hτ => ?_
    rcases t with _ | t
    · cases hτ
      exact (triple_reconciles n .start tokenInv_start nofun).mono fun _ _ _ => trivial
    · cases hτ
  obtain ⟨-, hf⟩ := Rules.follows_of_run (R := tokenRules apex) (φ := fun _ => True)
    (fun _ _ => ⟨trivial, trivial⟩) (fun _ _ => trivial) h trivial
  have hi := (Rules.good_run token_closed hgood hf h).1
  exact ⟨hi.distinct, fun _ _ => hi.fine _, fun _ _ => hi.fine _, fun _ _ _ _ => hi.fine _⟩

/-- In a first round the apex is attached, and a dial of another address answers with its
connection.  That ends, and in a second round the apex refuses the token. -/
def attachedThenRefused : List (ℕ × TokenLabel) :=
  let attached : TokenLabel := ⟨[], false, .ok 1, none, .ok ["s1", "", "s1", "s2"],
    .ok ⟨"h", "s1", "a"⟩, none, 0⟩
  let refused : TokenLabel := ⟨[], false, .ok 2, none, .error .ctxDone,
    .error (.twirp .notFound), none, 0⟩
  List.replicate 49 (0, attached) ++ (0, { refused with ends := [1] }) ::
    List.replicate 19 (0, refused)

theorem token_slots_distinct_in_two_rounds : ∃ c,
    (tokenClient "a").run attachedThenRefused
      ((tokenClient "a").launch [.reconciles 2] .start) = some c ∧
    c.shared.log = [.returned [2, 2] [] [2, 2] [1], .closed 2 [], .closed 2 [], .opened 2 [],
      .returned [1, 1] [1] [] [], .opened 1 []] ∧
    ∀ conn held, .closed conn held ∈ c.shared.log → conn ∉ held := by
  have h : ((tokenClient "a").run attachedThenRefused
      ((tokenClient "a").launch [.reconciles 2] .start)).map (fun c => c.shared.log) =
      some [.returned [2, 2] [] [2, 2] [1], .closed 2 [], .closed 2 [], .opened 2 [],
        .returned [1, 1] [1] [] [], .opened 1 []] := by decide +kernel
  obtain ⟨c, hc, hlog⟩ := Option.map_eq_some_iff.1 h
  exact ⟨c, hc, hlog, (token_slots_stay_distinct "a" 2 attachedThenRefused c hc).2.2.1⟩

end Specter.TokenClient
