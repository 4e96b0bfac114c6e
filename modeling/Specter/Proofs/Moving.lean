import Specter.Proofs.Contract
import Specter.Proofs.Memory

/-!
# Moving keys between two nodes that a thread holds

A joiner gets its part of the keys of its successor, and a leaving node hands all its keys on, by
the same program, followed here once for any assertion that knows the stores of the two nodes
(`Moves`).
-/

namespace Specter

open Lib (Prog Rules Arc.Ioc)
open Contract

/-- The states in which a node answers Ping and takes what is sent to it. -/
def State.isAlive : State → Bool
  | .joining | .active | .transferring => true
  | .inactive | .leaving | .left => false

section Moving

variable {K : Type} [KVProvider K] {hash : Bytes → ℕ} {fuel t : ℕ} {C : Contract K}
  {n dest : NodeId} {low high : ℕ}

/-- `A a b` is an assertion of a thread that moves keys from `n`, which stores `b`, to `dest`,
which stores `a`. -/
structure Moves (C : Contract K) (t : ℕ) (n dest : NodeId) (A : K → K → View K → Prop) :
    Prop where
  stays : ∀ a b, C.Stays t (A a b)
  stores : ∀ {a b v}, A a b v → v.kv dest = a ∧ v.kv n = b
  accepts : ∀ {a b v}, HeldOk v → A a b v → (v.state dest).isAlive = true
  imports : ∀ {a b v} a', C.inv v → HeldOk v → A a b v →
    C.inv { v with kv := Function.update v.kv dest a' } ∧
    C.guar t v { v with kv := Function.update v.kv dest a' } ∧
    A a' b { v with kv := Function.update v.kv dest a' }
  removes : ∀ {a b v} b', C.inv v → HeldOk v → A a b v →
    C.inv { v with kv := Function.update v.kv n b' } ∧
    C.guar t v { v with kv := Function.update v.kv n b' } ∧
    A a b' { v with kv := Function.update v.kv n b' }

/-- What has become of the stores `a` of the receiver and `b` of the sender: the keys of the range
that held anything were sent as they were and are gone. -/
structure Parted (hash : Bytes → ℕ) (low high : ℕ) (a b a' b' : K) : Prop where
  sent : ∀ k, Arc.Ioc low high (hash k) → KVProvider.val b k ≠ .newValue →
    KVProvider.val a' k = KVProvider.val b k
  same : ∀ k, ¬ (Arc.Ioc low high (hash k) ∧ KVProvider.val b k ≠ .newValue) →
    KVProvider.val a' k = KVProvider.val a k
  gone : ∀ k, Arc.Ioc low high (hash k) → KVProvider.val b' k = .newValue
  kept : ∀ k, ¬ Arc.Ioc low high (hash k) → KVProvider.val b' k = KVProvider.val b k

theorem parted_of_keys {keys : List Bytes} {a b a' b' : K}
    (hkeys : ∀ k, k ∈ keys ↔ Arc.Ioc low high (hash k) ∧ KVProvider.val b k ≠ .newValue)
    (ha : ∀ k, KVProvider.val a' k = if k ∈ keys then KVProvider.val b k else KVProvider.val a k)
    (hb : ∀ k, KVProvider.val b' k = if k ∈ keys then .newValue else KVProvider.val b k) :
    Parted hash low high a b a' b' where
  sent k hk hv := by rw [ha, if_pos ((hkeys k).2 ⟨hk, hv⟩)]
  same k hk := by rw [ha, if_neg fun hmem => hk ((hkeys k).1 hmem)]
  gone k hk := by
    rw [hb]
    split_ifs with hmem
    · rfl
    · by_contra hv
      exact hmem ((hkeys k).2 ⟨hk, hv⟩)
  kept k hk := by rw [hb, if_neg fun hmem => hk ((hkeys k).1 hmem).1]

namespace Moves

variable {A : K → K → View K → Prop} (h : Moves C t n dest A) [LawfulProvider K hash]

include h

theorem triple_rangeKeys (a b : K) :
    C.Triple hash fuel t (A a b) (rangeKeys n low high)
      fun res v => (∃ keys, res = .ok keys ∧ ∀ k, k ∈ keys ↔
        Arc.Ioc low high (hash k) ∧ KVProvider.val b k ≠ .newValue) ∧
        A a b v := by
  refine triple_read (a := .rangeKeys n low high) rfl (h.stays a b)
    (Q := fun res v => (∃ keys, res = .ok keys ∧ ∀ k, k ∈ keys ↔
      Arc.Ioc low high (hash k) ∧ KVProvider.val b k ≠ .newValue) ∧ A a b v)
    (fun _ => (Stays.const _).and (h.stays a b)) fun s l res s' _ _ hv hl he => ?_
  obtain ⟨keys, hkeys, hmem⟩ := @LawfulProvider.rangeKeys K _ hash _ low high b
  refine ⟨⟨keys, ?_, fun k => by rw [hmem, between_eq_ioc, KvValue.isDeleted_eq_false]⟩, hv⟩
  simp only [exec, hl, Bool.false_eq_true, if_false] at he
  cases he
  rw [← hkeys, ← (h.stores hv).2]
  rfl

omit [LawfulProvider K hash] in
variable (hash) in
theorem triple_exportKeys [LawfulProvider K hash] (a b : K) (keys : List Bytes) :
    C.Triple hash fuel t (A a b) (exportKeys n keys)
      fun res v => res = .ok (keys.map fun k => (KVProvider.val b k).transfer) ∧
        A a b v := by
  refine triple_read (a := .exportKeys n keys) rfl (h.stays a b)
    (Q := fun res v => res = .ok (keys.map fun k => (KVProvider.val b k).transfer) ∧ A a b v)
    (fun _ => (Stays.const _).and (h.stays a b)) fun s l res s' _ _ hv hl he => ?_
  refine ⟨?_, hv⟩
  simp only [exec, hl, Bool.false_eq_true, if_false] at he
  cases he
  rw [← @LawfulProvider.exportKeys K _ hash _ keys b, ← (h.stores hv).2]
  rfl

theorem triple_importRPC (a b : K) (keys : List Bytes)
    (hfree : ∀ k ∈ keys, KVProvider.val a k = .newValue) :
    C.Triple hash fuel t (A a b)
      (importRPC dest keys (keys.map fun k => (KVProvider.val b k).transfer))
      fun res v =>         res = .ok () ∧ ∃ a', (∀ k, KVProvider.val a' k =
          if k ∈ keys then KVProvider.val b k else KVProvider.val a k) ∧
        A a' b v := by
  refine .bind (triple_read (a := .loadState dest) rfl (h.stays a b)
    (Q := fun w v => w.state.isAlive = true ∧ A a b v)
    (fun _ => (Stays.const _).and (h.stays a b)) fun s l w s' _ hh hv _ he => ?_)
    fun (w : StateWord) => .assume fun hw => ?_
  · cases he
    exact ⟨h.accepts hh hv, hv⟩
  have himport : C.Triple hash fuel t (A a b) (Prog.perform (S := chordSig)
        (.importKeys dest keys (keys.map fun k => (KVProvider.val b k).transfer)))
      fun res v => res = .ok () ∧ ∃ a', (∀ k, KVProvider.val a' k =
        if k ∈ keys then KVProvider.val b k else KVProvider.val a k) ∧
        A a' b v := by
    refine triple_step (a := .importKeys dest keys _) (h.stays a b)
      (Q := fun res v => res = .ok () ∧ ∃ a', (∀ k, KVProvider.val a' k =
        if k ∈ keys then KVProvider.val b k else KVProvider.val a k) ∧ A a' b v)
      (fun _ => (Stays.const _).and (.ex fun _ => (Stays.const _).and (h.stays _ b)))
      fun s l res s' hi hk hv hl he => ?_
    obtain ⟨hres, hview⟩ := view_importKeys (M := C.start) hl he
    rw [(h.stores hv).1] at hres hview
    obtain ⟨hok, hval⟩ := @LawfulProvider.importKeys K _ hash _ keys a b
      fun k hk => KvValue.isDeleted_iff.2 (hfree k hk)
    obtain ⟨h1, h2, h3⟩ := h.imports _ hi (hk.heldOk _) hv
    rw [hview]
    exact ⟨h1, h2, hres.trans hok, _, hval, h3⟩
  split
  all_goals first | exact himport | simp_all [State.isAlive]

theorem triple_removeKeys (a b : K) (keys : List Bytes) :
    C.Triple hash fuel t (A a b) (removeKeys n keys)
      fun _ v => ∃ b', (∀ k, KVProvider.val b' k =
          if k ∈ keys then .newValue else KVProvider.val b k) ∧
        A a b' v := by
  refine triple_step (a := .removeKeys n keys) (h.stays a b)
    (Q := fun _ v => ∃ b', (∀ k, KVProvider.val b' k =
      if k ∈ keys then .newValue else KVProvider.val b k) ∧ A a b' v)
    (fun _ => .ex fun _ => (Stays.const _).and (h.stays a _)) fun s l res s' hi hk hv hl he => ?_
  obtain ⟨h1, h2, h3⟩ := h.removes (KVProvider.removeKeys keys b).2 hi (hk.heldOk _) hv
  rw [view_removeKeys (M := C.start) hl he, (h.stores hv).2]
  exact ⟨h1, h2, _, (@LawfulProvider.removeKeys K _ hash _ keys b).2, h3⟩

/-- The transfer succeeds if the receiver stores none of the keys that are sent. -/
theorem triple_moveRange (a b : K)
    (hfree : ∀ k, Arc.Ioc low high (hash k) → KVProvider.val b k ≠ .newValue →
      KVProvider.val a k = .newValue) :
    C.Triple hash fuel t (A a b) (moveRange n dest low high)
      fun res v => res = .ok () ∧ ∃ a' b', Parted hash low high a b a' b' ∧
        A a' b' v := by
  have hstays : C.Stays t fun v => ∃ a' b', Parted hash low high a b a' b' ∧ A a' b' v :=
    .ex fun a' => .ex fun b' => (Stays.const _).and (h.stays a' b')
  refine .bind (h.triple_rangeKeys a b) fun res => .assume fun hres => ?_
  obtain ⟨keys, rfl, hkeys⟩ := hres
  split
  · next he => cases he
  · next he =>
    obtain rfl := Except.ok.inj he
    refine .ret ((Stays.const _).and hstays).stable fun s _ hv => ⟨rfl, a, b, ?_, hv⟩
    exact parted_of_keys hkeys (fun k => by simp) fun k => by simp
  · next he =>
    obtain rfl := Except.ok.inj he
    refine .bind (h.triple_exportKeys hash a b keys) fun values => .assume fun hvalues => ?_
    subst hvalues
    refine .bind (h.triple_importRPC a b keys fun k hk => ?_) fun res => .assume fun hres => ?_
    · exact hfree k ((hkeys k).1 hk).1 ((hkeys k).1 hk).2
    subst hres
    refine .ex fun a' => .assume fun ha' => ?_
    refine .bind (h.triple_removeKeys a' b keys) fun (_ : Except ChordError Unit) => ?_
    refine .ex fun b' => .assume fun hb' => ?_
    exact .ret ((Stays.const _).and hstays).stable fun s _ hv =>
      ⟨rfl, a', b', parted_of_keys hkeys ha' hb', hv⟩

end Moves

end Moving

end Specter
