import Specter.Proofs.Lookup
import Specter.Proofs.Memory

/-!
# Handing over a range of keys

Both memberships export keys, import them at the other node, and remove them.  `MoveOutcome` lists
how that can end, whatever calls fail (`alone_moveRange`).
-/

namespace Specter

open Lib (Prog Arc.Ioo Arc.Ioc)

section Move

variable {K : Type} [KVProvider K] {hash : Bytes → ℕ} {fuel t : ℕ} {ok : Act → Fault → Prop}
  {s : Shared K} {n dest : NodeId} {low high : ℕ} {keys : List Bytes} {values : List KVTransfer}

def Shared.imported (s : Shared K) (t : ℕ) (dest : NodeId) (keys : List Bytes)
    (values : List KVTransfer) : Shared K :=
  (s.update dest fun x => { x with kv := (KVProvider.importKeys keys values x.kv).2 }).push
    (.imported t dest keys values)

def Shared.removed (s : Shared K) (n : NodeId) (keys : List Bytes) : Shared K :=
  s.update n fun x => { x with kv := (KVProvider.removeKeys keys x.kv).2 }

/-- The keys in the range and what is sent of them. -/
def Payload (s : Shared K) (n : NodeId) (low high : ℕ) (keys : List Bytes)
    (values : List KVTransfer) : Prop :=
  KVProvider.rangeKeys low high (s.node n).kv = .ok keys ∧ keys ≠ [] ∧
    KVProvider.exportKeys keys (s.node n).kv = .ok values

/-- How moving the keys of a range can end, given which calls can fail. -/
inductive MoveOutcome (ok : Act → Fault → Prop) (t : ℕ) (s : Shared K) (n dest : NodeId)
    (low high : ℕ) : Except ChordError Unit → Shared K → Prop where
  /-- There was nothing to move. -/
  | nothing : KVProvider.rangeKeys low high (s.node n).kv = .ok [] →
      MoveOutcome ok t s n dest low high (.ok ()) s
  | moved {keys : List Bytes} {values : List KVTransfer} : Payload s n low high keys values →
      MoveOutcome ok t s n dest low high (.ok ()) ((s.imported t dest keys values).removed n keys)
  /-- The keys were moved but also stayed. -/
  | copied {keys : List Bytes} {values : List KVTransfer} (l : Fault) :
      Payload s n low high keys values → ok (.removeKeys n keys) l → l.fails = true →
      MoveOutcome ok t s n dest low high (.ok ()) (s.imported t dest keys values)
  | failed (e : ChordError) : MoveOutcome ok t s n dest low high (.error e) s
  /-- The import took effect and was reported as an error. -/
  | lost {keys : List Bytes} {values : List KVTransfer} (e : ChordError) :
      Payload s n low high keys values →
      MoveOutcome ok t s n dest low high (.error e) (s.imported t dest keys values)

section

variable (hu : (s.node dest).surrogateMu.canLock)

include hu

theorem exec_importKeys {l : Fault} :
    exec l t s (.importKeys dest keys values) =
      some (if l.fails then .error .other
          else (KVProvider.importKeys keys values (s.node dest).kv).1,
        if l = .fail then s else s.imported t dest keys values) :=
  if_pos hu

theorem alone_importRPC {Q : Except ChordError Unit → Shared K → Prop}
    (hok : Q (.ok ()) (s.imported t dest keys values))
    (herr : ∀ e, Q (.error e) s ∧ Q (.error e) (s.imported t dest keys values)) :
    (cluster K hash fuel).Alone ok t Q (importRPC dest keys values) s := by
  have hexec : (cluster K hash fuel).Alone ok t Q
      (Prog.perform (S := chordSig) (.importKeys dest keys values)) s := by
    intro l _
    refine ⟨_, _, exec_importKeys hu, ?_⟩
    cases l with
    | fail => exact (herr _).1
    | failAfter => exact (herr _).2
    | _ =>
      rcases hi : (KVProvider.importKeys keys values (s.node dest).kv).1 with e | _
      · simpa [Fault.fails, hi] using (herr e).2
      · simpa [Fault.fails, hi] using hok
  rw [importRPC, Lib.Machine.alone_bind]
  refine alone_loadState ?_
  rcases (s.node dest).state.state <;> first | exact (herr _).1 | exact hexec

theorem alone_moveKeys (hr : KVProvider.rangeKeys low high (s.node n).kv = .ok keys)
    (hk : keys ≠ []) :
    (cluster K hash fuel).Alone ok t (MoveOutcome ok t s n dest low high)
      (moveKeys n dest keys) s := by
  rw [moveKeys, Lib.Machine.alone_bind]
  refine fun l _ => ⟨_, _, rfl, ?_⟩
  rcases hx : (if l.fails then .error .other else KVProvider.exportKeys keys (s.node n).kv :
    Except ChordError (List KVTransfer)) with e | values
  · exact .failed e
  have hv : KVProvider.exportKeys keys (s.node n).kv = .ok values := by
    split_ifs at hx
    exact hx
  have hp : Payload s n low high keys values := ⟨hr, hk, hv⟩
  simp only [Lib.Machine.alone_ret, Lib.Machine.alone_bind]
  refine alone_importRPC hu ?_ fun e => ⟨.failed e, .lost e hp⟩
  simp only [Lib.Machine.alone_bind]
  intro l hl
  by_cases hf : l.fails = true
  · exact ⟨_, _, if_pos hf, .copied l hp hl hf⟩
  · exact ⟨_, _, if_neg hf, .moved hp⟩

theorem alone_moveRange :
    (cluster K hash fuel).Alone ok t (MoveOutcome ok t s n dest low high)
      (moveRange n dest low high) s := by
  rw [moveRange, Lib.Machine.alone_bind]
  refine fun l _ => ⟨_, _, rfl, ?_⟩
  simp only [Lib.Machine.alone_ret]
  by_cases hf : l.fails = true
  · rw [if_pos hf]
    exact .failed .other
  rw [if_neg hf]
  rcases hr : KVProvider.rangeKeys low high (s.node n).kv with e | _ | ⟨k, ks⟩
  · exact .failed e
  · exact .nothing hr
  · exact alone_moveKeys hu hr (List.cons_ne_nil k ks)

end

theorem MoveOutcome.frame {res : Except ChordError Unit} {s' : Shared K}
    (h : MoveOutcome ok t s n dest low high res s') (m : NodeId) :
    s'.node m = { s.node m with kv := (s'.node m).kv } := by
  cases h with
  | moved | copied | lost =>
    simp only [Shared.removed, Shared.imported, node_push, node_update]
    split_ifs <;> simp_all
  | _ => rfl

/-- The keys of the range have moved: those that held anything were sent, as they were, and
removed. -/
structure Moved (hash : Bytes → ℕ) (s s' : Shared K) (n dest : NodeId) (low high : ℕ) : Prop where
  keeps : ∀ k, KVProvider.val (s'.node n).kv k =
    if Arc.Ioc low high (hash k) then .newValue else KVProvider.val (s.node n).kv k
  sent : ∃ keys, (∀ k, k ∈ keys ↔
      Arc.Ioc low high (hash k) ∧ (KVProvider.val (s.node n).kv k).isDeleted = false) ∧
    (keys = [] ∧ (s'.node dest).kv = (s.node dest).kv ∨
      (s'.node dest).kv = (KVProvider.importKeys keys
        (keys.map fun k => (KVProvider.val (s.node n).kv k).transfer) (s.node dest).kv).2)
  /-- A node that held none of these keys holds exactly what was sent. -/
  received : (∀ k, Arc.Ioc low high (hash k) → (KVProvider.val (s.node n).kv k).isDeleted = false →
      (KVProvider.val (s.node dest).kv k).isDeleted) →
    ∀ k, KVProvider.val (s'.node dest).kv k =
      if Arc.Ioc low high (hash k) ∧ (KVProvider.val (s.node n).kv k).isDeleted = false
      then KVProvider.val (s.node n).kv k else KVProvider.val (s.node dest).kv k

theorem Moved.congr {s₀ s₁ s₂ s' : Shared K} (h : Moved hash s₁ s₂ n dest low high)
    (h₁ : ∀ m, (s₁.node m).kv = (s₀.node m).kv) (h₂ : ∀ m, (s₂.node m).kv = (s'.node m).kv) :
    Moved hash s₀ s' n dest low high := by
  obtain ⟨hk, hs, hr⟩ := h
  simp only [h₁, h₂] at hk hs hr
  exact ⟨hk, hs, hr⟩

variable [LawfulProvider K hash]

variable (hash) in
theorem mem_rangeKeys_iff (h : KVProvider.rangeKeys low high (s.node n).kv = .ok keys) (k : Bytes) :
    k ∈ keys ↔ Arc.Ioc low high (hash k) ∧ (KVProvider.val (s.node n).kv k).isDeleted = false := by
  obtain ⟨keys', h', hk⟩ := @LawfulProvider.rangeKeys K _ hash _ low high (s.node n).kv
  rw [h, Except.ok.injEq] at h'
  rw [h', hk, between_eq_ioc]

/-- With lawful storage and removals that succeed, a move that reports success is complete. -/
theorem MoveOutcome.isMoved {s' : Shared K} (h : MoveOutcome ok t s n dest low high (.ok ()) s')
    (hne : dest ≠ n) (hok : ∀ keys l, ok (.removeKeys n keys) l → l.fails = false) :
    Moved hash s s' n dest low high := by
  cases h with
  | nothing hr =>
    have hnone : ∀ k, Arc.Ioc low high (hash k) → KVProvider.val (s.node n).kv k = .newValue := by
      intro k hk
      by_contra hv
      have := (mem_rangeKeys_iff hash hr k).2 ⟨hk, KvValue.isDeleted_eq_false.2 hv⟩
      simp at this
    refine ⟨fun k => ?_, ⟨[], fun k => ?_, .inl ⟨rfl, rfl⟩⟩, fun _ k => ?_⟩
    · split_ifs with hk
      exacts [hnone k hk, rfl]
    · rw [← mem_rangeKeys_iff hash hr k]
    · rw [if_neg fun h => by simpa using (mem_rangeKeys_iff hash hr k).2 h]
  | @moved keys values hp =>
    obtain ⟨hr, hk, hv⟩ := hp
    have hmem := mem_rangeKeys_iff hash hr
    rw [@LawfulProvider.exportKeys K _ hash] at hv
    obtain rfl := Except.ok.inj hv
    have hn : ((s.imported t dest keys (keys.map fun k =>
        (KVProvider.val (s.node n).kv k).transfer)).removed n keys).node n =
        { s.node n with kv := (KVProvider.removeKeys keys (s.node n).kv).2 } := by
      simp [Shared.removed, Shared.imported, hne.symm]
    have hd : (((s.imported t dest keys (keys.map fun k =>
        (KVProvider.val (s.node n).kv k).transfer)).removed n keys).node dest).kv =
        (KVProvider.importKeys keys (keys.map fun k =>
          (KVProvider.val (s.node n).kv k).transfer) (s.node dest).kv).2 := by
      simp [Shared.removed, Shared.imported, hne]
    refine ⟨fun k => ?_, ⟨keys, hmem, .inr hd⟩, fun hempty k => ?_⟩
    · rw [hn]
      simp only [(@LawfulProvider.removeKeys K _ hash _ keys (s.node n).kv).2 k]
      by_cases hin : k ∈ keys
      · rw [if_pos hin, if_pos ((hmem k).1 hin).1]
      · rw [if_neg hin]
        split_ifs with hrange
        · by_contra hv
          exact hin ((hmem k).2 ⟨hrange, KvValue.isDeleted_eq_false.2 hv⟩)
        · rfl
    · have hrow := (@LawfulProvider.importKeys K _ hash _ keys (s.node dest).kv (s.node n).kv
        fun k hk => hempty k ((hmem k).1 hk).1 ((hmem k).1 hk).2).2 k
      rw [hd, hrow]
      simp only [hmem k]
  | copied l _ hl hf =>
    rw [hok _ l hl] at hf
    exact absurd hf Bool.false_ne_true

end Move

section Accept

variable {K : Type} [KVProvider K] {hash : Bytes → ℕ} {fuel t : ℕ} {ok : Act → Fault → Prop}
  {s : Shared K} {n j : NodeId}

/-- How the part of RequestToJoin that runs under both locks can end. -/
inductive AcceptOutcome (ok : Act → Fault → Prop) (t : ℕ) (s : Shared K) (n j : NodeId) :
    JoinReply → Shared K → Prop where
  | accepted {p : NodeId} {succs : List NodeId} {s₁ : Shared K} :
      (s.node n).predecessor = some p → Arc.Ioo p n j →
      MoveOutcome ok t s n j p j (.ok ()) s₁ →
      AcceptOutcome ok t s n j (.ok (p, succs))
        (s₁.update n fun x => { x with surrogate := some j })
  | refused (e : ChordError) : AcceptOutcome ok t s n j (.error e) s
  | lost {p : NodeId} {keys : List Bytes} {values : List KVTransfer} (e : ChordError) :
      Payload s n p j keys values →
      AcceptOutcome ok t s n j (.error e) (s.imported t j keys values)

theorem alone_acceptLocked (hj : j ≠ n) (hu : (s.node j).surrogateMu.canLock) :
    (cluster K hash fuel).Alone ok t (AcceptOutcome ok t s n j) (acceptLocked n j) s := by
  rw [acceptLocked, Lib.Machine.alone_bind]
  refine alone_readPredecessor ?_
  rcases hp : (s.node n).predecessor with _ | p
  · exact .refused _
  dsimp only
  split_ifs with hb
  swap
  · exact .refused _
  rw [Lib.Machine.alone_bind]
  simp only [transferKeysUpward, if_neg hj, Option.getD_some, if_pos hb]
  refine (alone_moveRange hu).mono ?_
  rintro (e | _) s₁ hm
  · cases hm with
    | failed => exact .refused _
    | lost _ hpay => exact .lost _ hpay
  · simp only [Lib.Machine.alone_bind]
    refine alone_writeSurrogate ?_
    refine alone_getSuccessors ?_
    exact .accepted hp (between_eq_ioo.1 hb) hm

/-- A call that reported an error left the node as it was. -/
structure Refused (s s' : Shared K) (n : NodeId) : Prop where
  kv : (s'.node n).kv = (s.node n).kv
  predecessor : (s'.node n).predecessor = (s.node n).predecessor
  surrogate : (s'.node n).surrogate = (s.node n).surrogate
  state : (s'.node n).state.state = (s.node n).state.state

/-- The joiner has taken the place of the predecessor, with the keys up to it. -/
structure Accepted (hash : Bytes → ℕ) (s s' : Shared K) (n j p : NodeId) : Prop where
  was : (s.node n).predecessor = some p
  predecessor : (s'.node n).predecessor = some j
  surrogate : (s'.node n).surrogate = some j
  state : (s'.node n).state.state = .transferring
  moved : Moved hash s s' n j p j

variable [LawfulProvider K hash]

theorem alone_acceptJoiner (hj : j ≠ n) (hu : (s.node j).surrogateMu.canLock)
    (hs : (s.node n).surrogateMu.canLock) (hp : (s.node n).predecessorMu.canLock)
    (hok : ∀ keys l, ok (.removeKeys n keys) l → l.fails = false) :
    (cluster K hash fuel).Alone ok t
      (fun res s' => match res with
        | .ok (p, _) => Accepted hash s s' n j p
        | .error _ => Refused s s' n) (acceptJoiner (fuel + 1) n j) s := by
  rw [acceptJoiner, Lib.Machine.alone_bind]
  refine alone_lock hs ?_
  rw [Lib.Machine.alone_bind]
  refine alone_transition (fun hst => ?_) fun hst => ?_
  swap
  · simp only [Bool.false_eq_true, if_false, Lib.Machine.alone_bind]
    refine alone_unlock ?_
    constructor <;> simp
  simp only [node_update_self, state_setMutex] at hst
  simp only [if_true, Lib.Machine.alone_bind]
  refine alone_lock (by simpa [Node.swap, Node.mutex, Node.setMutex] using hp) ?_
  refine (alone_acceptLocked hj (by simpa [hj] using hu)).mono ?_
  rintro res s₁ (⟨hpre, hb, hm⟩ | e | e)
  · simp only [settleJoin]
    refine alone_commitJoin ?_
    refine alone_unlock ?_
    refine alone_unlock ?_
    have hstate := congrArg Node.state (hm.frame n)
    constructor
    · simpa [Node.swap] using hpre
    · simp
    · simp
    · simp [hstate, Node.swap]
    · refine (hm.isMoved hj hok).congr (fun m => ?_) fun m => ?_
      · by_cases hm : m = n
        · subst hm
          simp [Node.swap]
        · simp [hm]
      · by_cases hm : m = n
        · subst hm
          simp
        · simp [hm]
  · simp only [settleJoin]
    refine alone_setState ?_
    refine alone_unlock ?_
    refine alone_unlock ?_
    constructor <;> simp [Node.swap, hst]
  · simp only [settleJoin]
    refine alone_setState ?_
    refine alone_unlock ?_
    refine alone_unlock ?_
    constructor <;> simp [Node.swap, Shared.imported, hj.symm, hst]

/-- RequestToJoin, at a node that finds itself to be the joiner's successor: if it succeeds, the
keys up to the joiner have moved and the node is locked for it; if it fails, whatever calls failed,
the node is as it was. -/
theorem requestToJoin_all_or_nothing {hops : ℕ}
    (hfind : (cluster K hash fuel).Alone ok t (fun r s' => r = .ok n ∧ s' = s)
      (findSuccessor (fuel + 1) n j) s)
    (hj : j ≠ n) (hu : (s.node j).surrogateMu.canLock) (hs : (s.node n).surrogateMu.canLock)
    (hp : (s.node n).predecessorMu.canLock)
    (hok : ∀ keys l, ok (.removeKeys n keys) l → l.fails = false) :
    (cluster K hash fuel).Alone ok t
      (fun res s' => match res with
        | .ok (p, _) => Accepted hash s s' n j p
        | .error _ => Refused s s' n) (requestToJoin (fuel + 1) (hops + 1) n j) s := by
  rw [requestToJoin, requestToJoinVia, Lib.Machine.alone_bind]
  refine hfind.mono ?_
  rintro r s' ⟨rfl, rfl⟩
  simp only [if_neg hj.symm, ne_eq, not_true_eq_false, if_false]
  exact alone_acceptJoiner hj hu hs hp hok

end Accept

/-- The store of 300 has a key of the range that 100 takes over. -/
def oneKey (n : NodeId) : MemoryKV fun _ => 50 :=
  if n = 300 then (MemoryKV.withHashFn _).put [1] (some [2]) else .withHashFn _

theorem requestToJoin_twoNodes :
    (((twoNodesWith oneKey).node 300).predecessor = some 7 ∧
      ((twoNodesWith oneKey).node 100).state.state = .joining ∧
        (oneKey 300).rangeKeys 7 100 = [[1]]) ∧
    (cluster _ (fun _ => 50) maxIdentifier).Alone
      (fun a l => ∀ keys, a = .removeKeys 300 keys → l.fails = false) 0
      (fun res s' => match res with
        | .ok (p, _) => Accepted (fun _ => 50) (twoNodesWith oneKey) s' 300 100 p
        | .error _ => Refused (twoNodesWith oneKey) s' 300)
      (requestToJoin (maxIdentifier + 1) 1 300 100) (twoNodesWith oneKey) := by
  refine ⟨⟨by decide, by decide, by decide⟩, requestToJoin_all_or_nothing ?_ (by decide) rfl rfl rfl
    fun keys l h => h keys rfl⟩
  refine (alone_findSuccessor (twoNodesWith_stable oneKey) (by decide) (by decide)).mono ?_
  rintro r s' ⟨hs, m, hm, rfl, ho⟩
  simp only [Finset.mem_insert, Finset.mem_singleton] at hm
  rcases hm with rfl | rfl
  · exact absurd ho (by decide)
  · exact ⟨rfl, hs⟩

end Specter
