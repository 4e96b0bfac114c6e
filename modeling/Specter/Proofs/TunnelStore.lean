import Specter.Handlers
import Specter.Lib.Rely

/-!
# What an operation leaves of the store

An operation changes nothing but the key it is about, whatever becomes of it.
-/

namespace Specter.Tunnel

variable {t : ℕ} {a : Act} {l : Label} {r : a.Res} {s : StoreState} {e : Step}

namespace World

variable {w : World} {t i : ℕ} {o : Outcome} {op : KvOp} {k : Key} {c id : String} {w' : World}
  {v : Value} {w₀ : World}

theorem simple_effect (hput : ∀ v, op ≠ .put k v) (hdel : op ≠ .delete k) :
    (w.effect t op).simple k = w.simple k := by
  cases op with
  | put key v =>
    have hk : k ≠ key := fun h => hput v (h ▸ rfl)
    simp [effect, hk]
  | delete key =>
    have hk : k ≠ key := fun h => hdel (h ▸ rfl)
    simp [effect, hk]
  | _ => simp only [effect] <;> split_ifs <;> rfl

theorem children_effect (happ : ∀ c, op ≠ .prefixAppend k c) (hrem : ∀ c, op ≠ .prefixRemove k c) :
    (w.effect t op).children k = w.children k := by
  cases op with
  | prefixAppend key c =>
    have hk : k ≠ key := fun h => happ c (h ▸ rfl)
    simp only [effect]
    split_ifs
    · rfl
    · simp [hk]
  | prefixRemove key c =>
    have hk : k ≠ key := fun h => hrem c (h ▸ rfl)
    simp [effect, hk]
  | _ => simp only [effect] <;> split_ifs <;> rfl

theorem lease_effect (hacq : op ≠ .acquire k) (hrel : ∀ n, op ≠ .release k n) :
    (w.effect t op).lease k = w.lease k := by
  cases op with
  | acquire key =>
    have hk : k ≠ key := fun h => hacq (h ▸ rfl)
    simp only [effect]
    split_ifs
    · simp [hk]
    · rfl
  | release key n =>
    have hk : k ≠ key := fun h => hrel n (h ▸ rfl)
    simp only [effect]
    split_ifs
    · simp [hk]
    · rfl
  | _ => simp only [effect] <;> split_ifs <;> rfl

theorem mem_children_effect (h : c ∈ (w.effect t op).children k) :
    c ∈ w.children k ∨ op = .prefixAppend k c := by
  by_cases happ : ∃ c', op = .prefixAppend k c'
  · obtain ⟨c', rfl⟩ := happ
    simp only [effect] at h
    split_ifs at h
    · exact .inl h
    · simp only [Function.update_self, List.mem_orderedInsert] at h
      rcases h with rfl | h
      · exact .inr rfl
      · exact .inl h
  · by_cases hrem : ∃ c', op = .prefixRemove k c'
    · obtain ⟨c', rfl⟩ := hrem
      simp only [effect, Function.update_self, List.mem_filter] at h
      exact .inl h.1
    · rw [children_effect (fun c' hc => happ ⟨c', hc⟩) fun c' hc => hrem ⟨c', hc⟩] at h
      exact .inl h

theorem simple_none_effect (hput : ∀ v, op ≠ .put k v) (h : w.simple k = none) :
    (w.effect t op).simple k = none := by
  by_cases hdel : op = .delete k
  · subst hdel
    simp [effect]
  · rw [simple_effect hput hdel, h]

theorem effect_eq (w : World) (t : ℕ) (op : KvOp) :
    ∃ simple children lease, w.effect t op = { w with simple, children, lease } := by
  unfold effect
  split <;> (try split_ifs) <;> exact ⟨_, _, _, rfl⟩

@[simp] theorem pending_effect : (w.effect t op).pending = w.pending := by
  obtain ⟨_, _, _, h⟩ := effect_eq w t op
  rw [h]

@[simp] theorem running_effect : (w.effect t op).running = w.running := by
  obtain ⟨_, _, _, h⟩ := effect_eq w t op
  rw [h]

@[simp] theorem returned_effect : (w.effect t op).returned = w.returned := by
  obtain ⟨_, _, _, h⟩ := effect_eq w t op
  rw [h]

@[simp] theorem indexed_effect : (w.effect t op).indexed = w.indexed := by
  obtain ⟨_, _, _, h⟩ := effect_eq w t op
  rw [h]

@[simp] theorem unwritten_effect : (w.effect t op).unwritten = w.unwritten := by
  obtain ⟨_, _, _, h⟩ := effect_eq w t op
  rw [h]

theorem exec_cases (w : World) (t : ℕ) (o : Outcome) (op : KvOp) :
    (∃ w', (w.exec t o op).2 = w.note o op w' ∧ (w' = w.effect t op ∨ w' = w)) ∨
    (op.isWrite = true ∧ (∃ e, o = .late e) ∧
      (w.exec t o op).2 = w.note o op { w with pending := w.pending ++ [op] }) := by
  have hun : ∀ w' : World, w'.unlease t op = w'.effect t op ∨ w'.unlease t op = w' := by
    intro w'
    unfold unlease
    split
    · exact .inl rfl
    · exact .inr rfl
  cases o with
  | ok => exact .inl ⟨_, rfl, .inl rfl⟩
  | fail e => exact .inl ⟨_, rfl, hun w⟩
  | lost e =>
    simp only [exec, fault]
    split_ifs
    · exact .inl ⟨_, rfl, .inl rfl⟩
    · exact .inl ⟨_, rfl, hun w⟩
  | late e =>
    simp only [exec, fault]
    split_ifs with hw
    · exact .inr ⟨hw, ⟨e, rfl⟩, rfl⟩
    · exact .inl ⟨_, rfl, hun w⟩

theorem note_eq (w : World) (o : Outcome) (op : KvOp) (w' : World) :
    ∃ indexed unwritten, w.note o op w' = { w' with indexed, unwritten } := by
  unfold note
  split <;> exact ⟨_, _, rfl⟩

@[simp] theorem simple_note : (w.note o op w').simple = w'.simple := by
  obtain ⟨_, _, h⟩ := note_eq w o op w'
  rw [h]

@[simp] theorem children_note : (w.note o op w').children = w'.children := by
  obtain ⟨_, _, h⟩ := note_eq w o op w'
  rw [h]

@[simp] theorem lease_note : (w.note o op w').lease = w'.lease := by
  obtain ⟨_, _, h⟩ := note_eq w o op w'
  rw [h]

@[simp] theorem pending_note : (w.note o op w').pending = w'.pending := by
  obtain ⟨_, _, h⟩ := note_eq w o op w'
  rw [h]

@[simp] theorem running_note : (w.note o op w').running = w'.running := by
  obtain ⟨_, _, h⟩ := note_eq w o op w'
  rw [h]

@[simp] theorem returned_note : (w.note o op w').returned = w'.returned := by
  obtain ⟨_, _, h⟩ := note_eq w o op w'
  rw [h]

theorem exec_note {P : World → Prop} (hnote : ∀ w', P w' → P (w.note o op w'))
    (heff : P (w.effect t op)) (hw : P w) (hlate : P { w with pending := w.pending ++ [op] }) :
    P (w.exec t o op).2 := by
  obtain ⟨w', h, rfl | rfl⟩ | ⟨_, _, h⟩ := exec_cases w t o op <;> rw [h]
  · exact hnote _ heff
  · exact hnote _ hw
  · exact hnote _ hlate

theorem simple_exec (hput : ∀ v, op ≠ .put k v) (hdel : op ≠ .delete k) :
    (w.exec t o op).2.simple k = w.simple k :=
  exec_note (P := fun w' => w'.simple k = w.simple k) (by simp) (simple_effect hput hdel) rfl rfl

theorem simple_none_exec (hput : ∀ v, op ≠ .put k v) (hk : w.simple k = none) :
    (w.exec t o op).2.simple k = none :=
  exec_note (P := fun w' => w'.simple k = none) (by simp) (simple_none_effect hput hk) hk hk

theorem children_exec (happ : ∀ c, op ≠ .prefixAppend k c) (hrem : ∀ c, op ≠ .prefixRemove k c) :
    (w.exec t o op).2.children k = w.children k :=
  exec_note (P := fun w' => w'.children k = w.children k) (by simp) (children_effect happ hrem)
    rfl rfl

theorem mem_children_exec :
    c ∈ (w.exec t o op).2.children k → c ∈ w.children k ∨ op = .prefixAppend k c :=
  exec_note (P := fun w' => c ∈ w'.children k → c ∈ w.children k ∨ op = .prefixAppend k c)
    (by simp) mem_children_effect .inl .inl

theorem lease_kept {t' : ℕ} (hrel : op ≠ .release k t') (hk : w.lease k = some t') :
    (w.exec t o op).2.lease k = some t' := by
  have heff : (w.effect t op).lease k = some t' := by
    cases op with
    | acquire key =>
      simp only [effect]
      split_ifs with hnone
      · have hne : k ≠ key := fun h => by cases hk.symm.trans (h ▸ hnone)
        simp [hne, hk]
      · exact hk
    | release key n =>
      simp only [effect]
      split_ifs with hheld
      · have hne : k ≠ key := by
          rintro rfl
          exact hrel (by rw [Option.some.inj (hk.symm.trans hheld)])
        simp [hne, hk]
      · exact hk
    | _ => rwa [lease_effect (by simp) (by simp)]
  exact exec_note (P := fun w' => w'.lease k = some t') (by simp) heff hk hk

theorem mem_pending_exec {op' : KvOp} (hop : op' ∈ (w.exec t o op).2.pending) :
    op' ∈ w.pending ∨ (op' = op ∧ op.isWrite = true ∧ ∃ e, o = .late e) := by
  obtain ⟨w', h, rfl | rfl⟩ | ⟨hw, hl, h⟩ := exec_cases w t o op
  · rw [h, pending_note, pending_effect] at hop
    exact .inl hop
  · rw [h, pending_note] at hop
    exact .inl hop
  · rw [h, pending_note, List.mem_append, List.mem_singleton] at hop
    exact hop.imp_right fun h => ⟨h, hw, hl⟩

theorem pending_exec (ho : ∀ e, o ≠ .late e) : (w.exec t o op).2.pending = w.pending := by
  obtain ⟨w', h, rfl | rfl⟩ | ⟨_, ⟨e, he⟩, _⟩ := exec_cases w t o op
  · rw [h, pending_note, pending_effect]
  · rw [h, pending_note]
  · exact absurd he (ho e)

@[simp] theorem running_exec : (w.exec t o op).2.running = w.running :=
  exec_note (P := (·.running = w.running)) (by simp) running_effect rfl rfl

@[simp] theorem returned_exec : (w.exec t o op).2.returned = w.returned :=
  exec_note (P := (·.returned = w.returned)) (by simp) returned_effect rfl rfl

theorem exec_ok (h : ∀ e, (w.exec t o op).1 ≠ op.failed e) : o = .ok := by
  cases o with
  | ok => rfl
  | fail e | lost e | late e => exact absurd rfl (h e)

theorem exec_get {v : Option Value} (h : (w.exec t o (.get k)).1 = .ok v) : w.simple k = v := by
  have ho : o = .ok := exec_ok fun e he => by cases he.symm.trans h
  subst ho
  exact Except.ok.inj h

theorem exec_contains {b : Bool} (h : (w.exec t o (.prefixContains k c)).1 = .ok b) :
    c ∈ w.children k ↔ b = true := by
  have ho : o = .ok := exec_ok fun e he => by cases he.symm.trans h
  subst ho
  rw [← Except.ok.inj h]
  exact decide_eq_true_iff.symm

theorem exec_acquire {n : ℕ} (h : (w.exec t o (.acquire k)).1 = .ok n) :
    n = t ∧ (w.exec t o (.acquire k)).2.lease k = some t := by
  have ho : o = .ok := exec_ok fun e he => by cases he.symm.trans h
  subst ho
  simp only [exec, answer] at h ⊢
  split_ifs at h with hnone
  exact ⟨(Except.ok.inj h).symm, by simp [effect, hnone]⟩

theorem exec_put :
    (w.exec t o (.put k v)).2.simple k = some v ∨
      (w.exec t o (.put k v)).2.simple k = w.simple k := by
  obtain ⟨w', h, rfl | rfl⟩ | ⟨_, _, h⟩ := exec_cases w t o (.put k v)
  · left
    rw [h, simple_note]
    simp [effect]
  · exact .inr (by rw [h, simple_note])
  · exact .inr (by rw [h, simple_note])

theorem exec_put_ok (h : (w.exec t o (.put k v)).1 = .ok ()) :
    (w.exec t o (.put k v)).2.simple k = some v := by
  have ho : o = .ok := exec_ok fun e he => by cases he.symm.trans h
  subst ho
  simp [exec, effect]

theorem exec_append_ok (h : (w.exec t o (.prefixAppend k c)).1 = .ok ()) :
    c ∈ (w.exec t o (.prefixAppend k c)).2.children k := by
  have ho : o = .ok := exec_ok fun e he => by cases he.symm.trans h
  subst ho
  simp only [exec, children_note, effect]
  split_ifs with hc
  · exact hc
  · simp

theorem exec_remove_ok (h : (w.exec t o (.prefixRemove k c)).1 = .ok ()) :
    c ∉ (w.exec t o (.prefixRemove k c)).2.children k := by
  have ho : o = .ok := exec_ok fun e he => by cases he.symm.trans h
  subst ho
  simp [exec, effect]

theorem mem_indexed_exec : id ∈ (w.exec t o op).2.indexed ↔
    id ∈ w.indexed ∨ ∃ owner, op = .prefixAppend (.clientDelegations owner) id := by
  have hnote : ∀ w' : World, w'.indexed = w.indexed → (id ∈ (w.note o op w').indexed ↔
      id ∈ w.indexed ∨ ∃ owner, op = .prefixAppend (.clientDelegations owner) id) := by
    intro w' hw'
    unfold note
    split
    · simp [eq_comm, or_comm]
    · simp [hw']
    · rename_i h _
      simp only [hw']
      refine (or_iff_left ?_).symm
      rintro ⟨owner, rfl⟩
      exact h _ _ rfl
  obtain ⟨w', h, rfl | rfl⟩ | ⟨_, _, h⟩ := exec_cases w t o op <;> rw [h]
  · exact hnote _ indexed_effect
  · exact hnote _ rfl
  · exact hnote _ rfl

theorem mem_unwritten_exec (happ : ∀ owner, op ≠ .prefixAppend (.clientDelegations owner) id)
    (hput : ∀ v, op ≠ .put (.delegation id) v) :
    id ∈ (w.exec t o op).2.unwritten ↔ id ∈ w.unwritten := by
  have hnote : ∀ w' : World, w'.unwritten = w.unwritten →
      (id ∈ (w.note o op w').unwritten ↔ id ∈ w.unwritten) := by
    intro w' hw'
    unfold note
    split
    · rename_i owner id'
      have hne : id ≠ id' := fun h => happ owner (h ▸ rfl)
      simp only
      split_ifs
      · simp [hne]
      · rfl
    · rename_i id' v
      have hne : id ≠ id' := fun h => hput v (h ▸ rfl)
      simp [hne]
    · rw [hw']
  obtain ⟨w', h, rfl | rfl⟩ | ⟨_, _, h⟩ := exec_cases w t o op <;> rw [h]
  · exact hnote _ unwritten_effect
  · exact hnote _ rfl
  · exact hnote _ rfl

/-- The store after a step that at most carries out this operation, or leaves it pending. -/
structure Carried (w w' : World) (op : KvOp) : Prop where
  simple : ∀ k v, w'.simple k = some v → w.simple k = some v ∨ op = .put k v
  children : ∀ k, ∀ c ∈ w.children k, c ∈ w'.children k ∨ op = .prefixRemove k c
  length : ∀ k, (w'.children k).length ≤ (w.children k).length ∨
    (∃ c, op = .prefixAppend k c) ∧ (w'.children k).length ≤ (w.children k).length + 1
  pending : ∀ op' ∈ w'.pending, op' ∈ w.pending ∨ op' = op

theorem Carried.refl (w : World) (op : KvOp) : Carried w w op :=
  ⟨fun _ _ => .inl, fun _ _ => .inl, fun _ => .inl le_rfl, fun _ => .inl⟩

theorem simple_of_effect (h : (w.effect t op).simple k = some v) :
    w.simple k = some v ∨ op = .put k v := by
  by_cases hput : ∃ v', op = .put k v'
  · obtain ⟨v', rfl⟩ := hput
    simp only [effect, Function.update_self, Option.some.injEq] at h
    exact .inr (h ▸ rfl)
  · by_cases hdel : op = .delete k
    · subst hdel
      simp [effect] at h
    · rw [simple_effect (fun v' hv => hput ⟨v', hv⟩) hdel] at h
      exact .inl h

theorem children_of_effect (h : c ∈ w.children k) :
    c ∈ (w.effect t op).children k ∨ op = .prefixRemove k c := by
  by_cases happ : ∃ c', op = .prefixAppend k c'
  · obtain ⟨c', rfl⟩ := happ
    simp only [effect]
    split_ifs
    · exact .inl h
    · simp [h]
  · by_cases hrem : ∃ c', op = .prefixRemove k c'
    · obtain ⟨c', rfl⟩ := hrem
      by_cases hc : c = c'
      · exact .inr (hc ▸ rfl)
      · simp [effect, h, hc]
    · left
      rwa [children_effect (fun c' hc => happ ⟨c', hc⟩) fun c' hc => hrem ⟨c', hc⟩]

theorem length_children_effect : ((w.effect t op).children k).length ≤ (w.children k).length ∨
    (∃ c, op = .prefixAppend k c) ∧
      ((w.effect t op).children k).length ≤ (w.children k).length + 1 := by
  by_cases happ : ∃ c', op = .prefixAppend k c'
  · obtain ⟨c', rfl⟩ := happ
    simp only [effect]
    split_ifs
    · exact .inl le_rfl
    · exact .inr ⟨⟨c', rfl⟩, by simp [List.orderedInsert_length]⟩
  · left
    by_cases hrem : ∃ c', op = .prefixRemove k c'
    · obtain ⟨c', rfl⟩ := hrem
      simp only [effect, Function.update_self]
      exact List.length_filter_le _ _
    · rw [children_effect (fun c' hc => happ ⟨c', hc⟩) fun c' hc => hrem ⟨c', hc⟩]

theorem carried_effect (hs : w₀.simple = w.simple) (hc : w₀.children = w.children)
    (hp : ∀ op' ∈ w₀.pending, op' ∈ w.pending ∨ op' = op) : Carried w (w₀.effect t op) op where
  simple k v h := by
    rw [← hs]
    exact simple_of_effect h
  children k c h := children_of_effect (by rwa [hc])
  length k := by
    rw [← hc]
    exact length_children_effect
  pending op' h := hp op' (by simpa using h)

theorem Carried.note (h : Carried w w' op) (o : Outcome) (op' : KvOp) :
    Carried w (w₀.note o op' w') op where
  simple k v := by
    rw [simple_note]
    exact h.simple k v
  children k c := by
    rw [children_note]
    exact h.children k c
  length k := by
    rw [children_note]
    exact h.length k
  pending op'' := by
    rw [pending_note]
    exact h.pending op''

theorem carried_exec : Carried w (w.exec t o op).2 op := by
  obtain ⟨w', h, rfl | rfl⟩ | ⟨_, _, h⟩ := exec_cases w t o op <;> rw [h]
  · exact (carried_effect rfl rfl fun _ => .inl).note o op
  · exact (Carried.refl _ op).note o op
  · have hlate : Carried w { w with pending := w.pending ++ [op] } op :=
      ⟨fun _ _ => .inl, fun _ _ => .inl, fun _ => .inl le_rfl, fun _ h =>
        (List.mem_append.1 h).imp_right List.mem_singleton.1⟩
    exact hlate.note o op

theorem carried_arrive (h : w.arrive t i = some w') : ∃ op ∈ w.pending, Carried w w' op := by
  obtain ⟨op, hop, rfl⟩ := Option.map_eq_some_iff.1 h
  exact ⟨op, List.mem_of_getElem? hop,
    carried_effect rfl rfl fun _ h => .inl (List.mem_of_mem_eraseIdx h)⟩

end World

theorem StoreState.mem_steps_record {w : World} :
    e ∈ (s.record t a w).steps ↔ e = ⟨t, a, s.world, w⟩ ∨ e ∈ s.steps :=
  List.mem_cons

theorem StoreState.exec_carried {s' : StoreState} (h : StoreState.exec l t s a = some (r, s')) :
    s' = s ∨ s' = s.record t a s'.world ∧
      ∃ op, World.Carried s.world s'.world op ∧
        (a = .kv op ∨ (a = .arrive ∧ op ∈ s.world.pending) ∨ op = .get (.delegation "")) := by
  cases a with
  | kv op =>
    cases h
    exact .inr ⟨rfl, op, World.carried_exec, .inl rfl⟩
  | arrive =>
    obtain ⟨w, hw, hs'⟩ := Option.map_eq_some_iff.1 h
    cases hs'
    obtain ⟨op, hop, hc⟩ := World.carried_arrive hw
    exact .inr ⟨rfl, op, hc, .inr (.inl ⟨rfl, hop⟩)⟩
  | begin | finish =>
    cases h
    exact .inr ⟨rfl, _, ⟨fun _ _ => .inl, fun _ _ => .inl, fun _ => .inl le_rfl, fun _ => .inl⟩,
      .inr (.inr rfl)⟩
  | session | now | ctxErr | lookupCNAME | next | select =>
    cases h
    exact .inl rfl

theorem StoreState.steps_exec {s' : StoreState} (h : StoreState.exec l t s a = some (r, s'))
    (he : e ∈ s.steps) : e ∈ s'.steps := by
  obtain rfl | ⟨hs', -⟩ := exec_carried h
  · exact he
  · rw [hs']
    exact List.mem_cons_of_mem _ he

theorem follows_steps {g : Given} {R : Lib.Rules (tunnelStore g)} {P : Step → Prop}
    (hk : ∀ t s s', (∀ e ∈ s'.steps, P e) → R.known t s s') {sched : List (ℕ × Label)}
    {c c' : Lib.Config tunnelSig StoreState} (hok : ∀ x ∈ sched, R.ok x.2)
    (hrun : (tunnelStore g).run sched c = some c') (hP : ∀ e ∈ c'.shared.steps, P e) :
    R.Follows sched c := by
  refine (Lib.Rules.follows_of_run (φ := fun s => ∀ e ∈ s.steps, P e) (fun hstep h => ?_) hok hrun
    hP).2
  refine ⟨fun e he => h e ?_, hk _ _ _ h⟩
  obtain ⟨a, k, r, s, _, hexec, rfl⟩ | ⟨τ, k, _, rfl⟩ := Lib.Machine.step_cases _ hstep
  · exact StoreState.steps_exec hexec he
  · exact he

/-- Sessions are reserved and activated, and nothing else happens. -/
def plainAnswer : (a : Act) → a.Res
  | .kv op => op.failed .other
  | .session (.new _) => 0
  | .session (.lookup _) => none
  | .session (.on _ .reserve) => .ok ()
  | .session (.on _ (.inspect _)) => .inactive
  | .session (.on _ (.activate _)) => true
  | .session (.on _ (.dial _)) | .session (.on _ .expired) | .session (.on _ .isActive)
  | .session (.on _ .startWorker) | .session (.on _ .detach) => false
  | .session (.on _ (.setAuthority ..)) | .session (.on _ .terminate) | .session (.on _ .closeConn)
  | .session (.on _ (.extend ..)) | .session (.on _ .finishWorker) | .session (.on _ .cancelWorker)
  | .session (.on _ .awaitCancel) | .session (.on _ .awaitWorker) | .session (.on _ .awaitDone)
  | .session (.on _ .remove) | .session (.disconnect _) | .session .shutdown => ()
  | .now => 0
  | .ctxErr | .select => false
  | .lookupCNAME _ => none
  | .next => 0
  | .arrive | .begin _ | .finish .. => ()

/-- Every operation is carried out and answered. -/
def Label.plain : Label := ⟨.ok, plainAnswer⟩

def Given.plain : Given where
  sha256 _ := Vector.replicate 32 0
  acme := ⟨"acme.test", "apex.test", .ok, hex⟩
  waf := ⟨fun _ => [], HostWAFRecord.owner, fun data => some ⟨1, data, defaultPolicy⟩,
    fun _ => Vector.replicate 32 0⟩

def Site.plain : Site := ⟨1, ⟨1, "chord", false⟩, ⟨1, "tunnel", false⟩⟩

def oneHostname (k : Key) : List String := if k = .clientHostnames [7] then ["a"] else []

def plainSecret : Bytes := List.replicate 32 0

def plainGrant : String := delegationID Given.plain.sha256 plainSecret

def turns (t n : ℕ) : List (ℕ × Label) := List.replicate n (t, .plain)

end Specter.Tunnel
