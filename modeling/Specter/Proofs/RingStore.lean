import Specter.Proofs.Lookup
import Specter.Proofs.Memory

/-!
# A stable ring is one store

The nodes of a stable ring, each with the keys of its own range, answer requests as a single map
from keys to values does, through whichever members the requests enter.
-/

namespace Specter

open Lib (Prog Arc.Ioo Arc.Ioc)
open Lib.Machine (alone_bind alone_ret)

/-- One map that answers requests one after the other. -/
def storeRun (store : Bytes → KvValue) : List Request →
    List (Except ChordError Reply) × (Bytes → KvValue)
  | [] => ([], store)
  | r :: rest =>
    let (res, v) := (store r.key).handle r
    let (replies, store') := storeRun (Function.update store r.key v) rest
    (res :: replies, store')

/-- Each request is sent to the node it comes with, after the reply to the one before. -/
def requests (hash : Bytes → ℕ) (fuel hops : ℕ) :
    List (NodeId × Request) → Chord (List (Except ChordError Reply))
  | [] => return []
  | (n, r) :: rest => do
    let res ← kvMiddleware hash fuel hops n r
    return res :: (← requests hash fuel hops rest)

theorem RWMutex.erase_reader {x : RWMutex} (h : x.canRLock) (t : ℕ) :
    (⟨none, (t :: x.readers).erase t⟩ : RWMutex) = x := by
  obtain ⟨_ | w, l⟩ := x
  · simp
  · simp [canRLock] at h

section Ring

variable {K : Type} [KVProvider K] {hash : Bytes → ℕ} {fuel t : ℕ} {ok : Act → Fault → Prop}
  {s : Shared K} {n m : NodeId} {members : Finset NodeId} {pred succ : NodeId → NodeId}
  {store : Bytes → KvValue} {r : Request}

/-- A stable ring at rest, in which each key of `store` is held by the member in whose range it
lies.  A surrogate that is left from a join is another member. -/
structure ServingRing (hash : Bytes → ℕ) (s : Shared K) (members : Finset NodeId)
    (pred succ : NodeId → NodeId) (store : Bytes → KvValue) : Prop
    extends StableRing s members pred succ where
  active : ∀ n ∈ members, (s.node n).state.state = .active
  unlockedSurrogate : ∀ n ∈ members, (s.node n).surrogateMu.canRLock
  surrogate : ∀ n ∈ members, ∀ x, (s.node n).surrogate = some x → x ∈ members ∧ x ≠ n
  holds : ∀ k, ∀ m ∈ members, between (pred m) (hash k) m true = true →
    KVProvider.val (s.node m).kv k = store k

theorem node_handled (e : Event) (q : NodeId) :
    ((s.update m fun x => { x with kv := (KVProvider.handle r x.kv).2 }).push e).node q =
      { s.node q with
        kv := if q = m then (KVProvider.handle r (s.node q).kv).2 else (s.node q).kv } := by
  rw [node_push, node_update]
  split_ifs with hq
  · rw [hq]
  · rfl

namespace ServingRing

variable (h : ServingRing hash s members pred succ store)

include h

theorem target_eq (hm : m ∈ members) {id : ℕ} (ho : between (pred m) id m true = true) :
    target m (s.node m).surrogate (some (pred m)) id = .localStore := by
  have hnone : (s.node m).surrogate.filter (fun x => between m id x true) = none := by
    rw [Option.filter_eq_none_iff]
    intro x hx hb
    obtain ⟨hmem, hne⟩ := h.surrogate m hm x hx
    have hgap := (h.pred_gap m hm).empty x hmem
    rw [between_eq_ioc] at ho hb
    unfold Arc.Ioc Arc.Ioo at *
    grind
  rw [target, hnone]
  simp [ho]

variable (hok : ∀ a l, ok a l → l.fails = false)

include hok in
theorem alone_serve (hm : m ∈ members) (ho : between (pred m) (hash r.key) m true = true)
    (call : NodeId → Chord (Except ChordError Reply)) :
    (cluster K hash fuel).Alone ok t (fun res s' => res = (KVProvider.handle r (s.node m).kv).1 ∧
      s' = (s.update m fun x => { x with kv := (KVProvider.handle r x.kv).2 }).push
        (.handled t m r res)) (serve hash call m r) s := by
  simp only [serve, alone_bind]
  refine fun _ _ => ⟨_, _, if_pos (h.unlockedSurrogate m hm), alone_loadState ?_⟩
  rw [if_neg (by simp [Node.setMutex, h.active m hm])]
  simp only [alone_bind]
  refine fun _ _ => ⟨_, _, rfl, fun _ _ => ⟨(), _, if_pos ?_, fun _ _ => ⟨_, _, rfl, ?_⟩⟩⟩
  · simpa [Node.setMutex, Node.mutex] using h.unlocked m hm
  simp only [alone_ret, node_update_self, Node.setMutex, h.predecessor m hm,
    h.target_eq hm ho, dispatch]
  refine fun l hl => ⟨_, _, if_neg (by simp [hok _ l hl]), fun _ _ => ⟨_, _, rfl, fun _ _ =>
    ⟨_, _, rfl, ?_⟩⟩⟩
  have h1 := RWMutex.erase_reader (h.unlockedSurrogate m hm) t
  have h2 := RWMutex.erase_reader (h.unlocked m hm) t
  simp only [Shared.update, Shared.push, Function.update_self, Function.update_idem, Node.setMutex,
    Node.mutex, h1, h2]
  exact ⟨rfl, rfl⟩

variable [LawfulProvider K hash]

theorem handled (hm : m ∈ members) (ho : between (pred m) (hash r.key) m true = true) (e : Event) :
    ServingRing hash ((s.update m fun x => { x with kv := (KVProvider.handle r x.kv).2 }).push e)
      members pred succ (Function.update store r.key ((store r.key).handle r).2) where
  below := h.below
  running q hq := by rw [node_handled]; exact h.running q hq
  predecessor q hq := by rw [node_handled]; exact h.predecessor q hq
  pred_gap := h.pred_gap
  successor q hq := by rw [node_handled]; exact h.successor q hq
  succ_gap := h.succ_gap
  fingers q hq := by rw [node_handled]; exact h.fingers q hq
  unlocked q hq := by rw [node_handled]; exact h.unlocked q hq
  active q hq := by rw [node_handled]; exact h.active q hq
  unlockedSurrogate q hq := by rw [node_handled]; exact h.unlockedSurrogate q hq
  surrogate q hq := by rw [node_handled]; exact h.surrogate q hq
  holds k q hq hk := by
    rw [node_handled]
    dsimp only
    by_cases hkey : k = r.key
    · -- the owner of the key is the node that served it
      subst hkey
      obtain rfl : q = m := (h.pred_gap q hq).eq_of_ioc (h.pred_gap m hm) (between_eq_ioc.1 hk)
        (between_eq_ioc.1 ho)
      rw [if_pos rfl, Function.update_self, @LawfulProvider.handle_key K _ hash, h.holds _ q hq hk]
    · rw [Function.update_of_ne hkey, ← h.holds k q hq hk]
      split_ifs
      · exact @LawfulProvider.handle_ne K _ hash _ r _ k hkey
      · rfl

include hok in
/-- The owner serves the request itself; any other member passes it to the owner. -/
theorem alone_kvMiddleware (hhash : ∀ k, hash k < maxIdentifier) (hfuel : maxIdentifier ≤ fuel) :
    ∀ {hops : ℕ} {n : NodeId}, n ∈ members →
      2 ≤ hops ∨ 1 ≤ hops ∧ Arc.Ioc (pred n) n (hash r.key) →
      (cluster K hash fuel).Alone ok t (fun res s' => res = ((store r.key).handle r).1 ∧
        ServingRing hash s' members pred succ
          (Function.update store r.key ((store r.key).handle r).2))
        (kvMiddleware hash fuel hops n r) s
  | 0, _, _, hhops => by omega
  | hops + 1, n, hn, hhops => by
    rw [kvMiddleware, alone_bind]
    refine (alone_findSuccessor h.toStableRing hn
      ((cwDistance_le (hhash r.key)).trans hfuel)).mono ?_
    rintro _ s' ⟨hs, m, hm, rfl, ho⟩
    rw [hs]
    dsimp only
    split_ifs with hmn
    · refine alone_kvMiddleware hhash hfuel hm (.inr ⟨?_, ho⟩)
      rcases hhops with hhops | ⟨-, hno⟩
      · omega
      · exact absurd ((h.pred_gap m hm).eq_of_ioc (h.pred_gap n hn) ho hno) hmn
    · obtain rfl := not_ne_iff.1 hmn
      rw [← between_eq_ioc] at ho
      refine (h.alone_serve hok hm ho _).mono ?_
      rintro res s' ⟨hres, rfl⟩
      refine ⟨?_, h.handled hm ho _⟩
      rw [hres, @LawfulProvider.handle_fst K _ hash, h.holds _ m hm ho]

end ServingRing

variable [LawfulProvider K hash]

/-- Requests that enter a serving ring through any of its members get, one after the other, the
replies of a single map, and leave the ring serving what the map then holds. -/
theorem requests_store (hok : ∀ a l, ok a l → l.fails = false)
    (hhash : ∀ k, hash k < maxIdentifier) (hfuel : maxIdentifier ≤ fuel) {hops : ℕ}
    (hhops : 2 ≤ hops) : ∀ (reqs : List (NodeId × Request)) {s : Shared K}
      {store : Bytes → KvValue}, (∀ q ∈ reqs, q.1 ∈ members) →
      ServingRing hash s members pred succ store →
      (cluster K hash fuel).Alone ok t (fun replies s' =>
        replies = (storeRun store (reqs.map Prod.snd)).1 ∧
          ServingRing hash s' members pred succ (storeRun store (reqs.map Prod.snd)).2)
        (requests hash fuel hops reqs) s
  | [], _, _, _, h => ⟨rfl, h⟩
  | (n, r) :: rest, s, store, hmem, h => by
    rw [List.forall_mem_cons] at hmem
    simp only [requests, alone_bind]
    refine (h.alone_kvMiddleware hok hhash hfuel hmem.1 (.inl hhops)).mono ?_
    rintro _ s₁ ⟨rfl, h₁⟩
    refine (requests_store hok hhash hfuel hhops rest hmem.2 h₁).mono ?_
    rintro _ s₂ ⟨rfl, h₂⟩
    exact ⟨rfl, h₂⟩

end Ring

theorem twoNodes_serving : ServingRing (fun _ => 0) twoNodes {7, 300}
    (fun n => if n = 7 then 300 else 7) (fun n => if n = 7 then 300 else 7)
    (fun _ => .newValue) where
  toStableRing := twoNodes_stable
  active := by decide
  unlockedSurrogate _ _ := rfl
  surrogate _ _ _ := nofun
  holds k _ _ _ := LawfulProvider.val_empty (fun _ => 0) k

theorem requests_twoNodes :
    (cluster _ (fun _ => 0) maxIdentifier).Alone (fun _ l => l = .ok) 0
      (fun replies _ => replies = [.ok .done, .ok (.value (some [2]))])
      (requests (fun _ => 0) maxIdentifier 2 [(300, .put [1] (some [2])), (7, .get [1])])
      twoNodes := by
  refine (requests_store (by simp [Fault.fails]) (fun _ => by decide) le_rfl le_rfl _ (by decide)
    twoNodes_serving).mono ?_
  rintro _ s' ⟨rfl, -⟩
  rfl

end Specter
