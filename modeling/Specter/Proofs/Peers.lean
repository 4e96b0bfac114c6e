import Mathlib.Data.List.ReduceOption
import Specter.Peers
import Specter.Proofs.Lookup

/-!
# Stabilize survives dead successors

`stabilize` goes down the list to the first successor that answers both its calls, and builds the
new list from it, or from its predecessor if that lies in between and answers.
-/

namespace Specter

open Lib (Arc.Ioo)

@[simp] theorem reduceOption_map_some (l : List NodeId) : (l.map some).reduceOption = l := by
  simp [List.reduceOption, List.filterMap_map]

theorem makeSuccList_go {maxLen : ℕ} : ∀ (l : List (Option NodeId)) {acc : List NodeId},
    acc.length ≤ maxLen → makeSuccList.go maxLen acc l =
      (acc ++ (l.reduceOption.filter (· ∉ acc)).eraseDups).take maxLen
  | [], acc, h => by
    rw [makeSuccList.go.eq_def]
    simp [List.take_of_length_le h]
  | x :: rest, acc, h => by
    rw [makeSuccList.go.eq_def]
    dsimp only
    split_ifs with hfull
    · rw [List.take_append_of_le_length hfull, List.take_of_length_le h]
    rcases x with _ | x
    · simpa using makeSuccList_go rest h
    by_cases hx : x ∈ acc
    · simpa [hx] using makeSuccList_go rest h
    · have hlen : (acc ++ [x]).length ≤ maxLen := by
        simpa using Nat.succ_le_of_lt (Nat.not_le.1 hfull)
      have hnext := makeSuccList_go rest hlen
      simp only [hx, if_false, hnext, List.reduceOption_cons_of_some, List.filter_cons,
        not_false_eq_true, decide_true, if_true, List.eraseDups_cons, List.filter_filter,
        List.append_assoc, List.singleton_append]
      congr 5
      funext y
      simp [Bool.and_comm, Bool.beq_eq_decide_eq]

theorem makeSuccList_eq (n : NodeId) (l : List (Option NodeId)) {maxLen : ℕ} (h : 0 < maxLen) :
    makeSuccList n l maxLen = ((n :: l.reduceOption).eraseDups).take maxLen := by
  rw [makeSuccList, makeSuccList_go l h, List.eraseDups_cons]
  simp [Bool.beq_eq_decide_eq]

namespace Peers

def answersBoth (peers : Peers) (h : NodeId) : Bool :=
  (peers.getPredecessor h).isOk && (peers.getSuccessors h).isOk

/-- The predecessor that `h` names, if it lies strictly between `n` and `h` and answers, and else
`h`. -/
def newHead (peers : Peers) (n h : NodeId) : NodeId :=
  match peers.getPredecessor h with
  | .ok (some p) => if Arc.Ioo n h p ∧ (peers.getSuccessors p).isOk then p else h
  | _ => h

variable {peers : Peers} {h : NodeId}

theorem probe_none (n : NodeId) : ∀ {l : List NodeId}, (∀ h ∈ l, peers.answersBoth h = false) →
    peers.probe n l = none
  | [], _ => rfl
  | h :: rest, hl => by
    have hrest := probe_none n fun x hx => hl x (List.mem_cons_of_mem _ hx)
    have hh := hl h (List.mem_cons_self ..)
    unfold answersBoth at hh
    unfold probe
    split
    · rename_i h₁ h₂
      simp [h₁, h₂, Except.isOk, Except.toBool] at hh
    · exact hrest

theorem probe_some (n : NodeId) : ∀ {l : List NodeId}, l.find? peers.answersBoth = some h →
    ∃ reported, peers.getSuccessors (peers.newHead n h) = .ok reported ∧
      peers.probe n l =
        some (makeSuccList (peers.newHead n h) reported extendedSuccessorEntries)
  | x :: rest, hl => by
    rw [List.find?_cons] at hl
    unfold probe
    split at hl
    · rename_i hx
      obtain rfl := Option.some.inj hl
      unfold newHead
      rcases hp : peers.getPredecessor x with e | _ | p
      · simp [answersBoth, hp, Except.isOk, Except.toBool] at hx
      all_goals
        rcases hs : peers.getSuccessors x with e | reported
        · simp [answersBoth, hp, hs, Except.isOk, Except.toBool] at hx
      · exact ⟨reported, by simp, rfl⟩
      · dsimp only
        by_cases hb : Arc.Ioo n x p
        · rw [if_pos (between_eq_ioo.2 hb)]
          rcases hsp : peers.getSuccessors p with e | l
          · exact ⟨reported, by simp [hs, Except.isOk, Except.toBool],
              by simp [Except.isOk, Except.toBool]⟩
          · exact ⟨l, by simp [hb, hsp, Except.isOk, Except.toBool],
              by simp [hb, Except.isOk, Except.toBool]⟩
        · rw [if_neg (fun hc => hb (between_eq_ioo.1 hc)), if_neg (fun hc => hb hc.1)]
          exact ⟨reported, hs, rfl⟩
    · rename_i hx
      obtain ⟨reported, hr, hprobe⟩ := probe_some n hl
      refine ⟨reported, hr, ?_⟩
      split
      · rename_i h₁ h₂
        simp [answersBoth, h₁, h₂, Except.isOk, Except.toBool] at hx
      · exact hprobe

end Peers

namespace Successors

variable {H : Type} [DecidableEq H] {hash : List NodeId → H} {v : Successors H} {peers : Peers}

/-- The stored hash is that of the list, once there is one. -/
def Hashed (hash : List NodeId → H) (v : Successors H) : Prop :=
  v.getSuccessors ≠ [] → v.succListHash = hash v.getSuccessors

theorem getSuccessors_update (hinj : Function.Injective hash) (hv : v.Hashed hash)
    (hne : v.getSuccessors ≠ []) (l : List NodeId) :
    (v.updateSuccessorsList hash l).getSuccessors = l := by
  unfold updateSuccessorsList
  split_ifs with he
  · exact hinj ((hv hne).symm.trans he)
  · simp [getSuccessors]

theorem stabilize_none (h : peers.probe v.id v.getSuccessors = none) :
    v.stabilize hash peers = (.error .nodeNoSuccessor, v) := by
  rw [stabilize, h]

theorem stabilize_some {l : List NodeId} (h : peers.probe v.id v.getSuccessors = some l) :
    v.stabilize hash peers =
      (v.notifySuccessor peers l, v.updateSuccessorsList hash l) := by
  rw [stabilize, h]

theorem hashed_stabilize (hv : v.Hashed hash) (peers : Peers) :
    (v.stabilize hash peers).2.Hashed hash := by
  unfold stabilize
  split
  · exact hv
  · dsimp only
    unfold updateSuccessorsList
    split_ifs
    · exact hv
    · intro _
      simp [getSuccessors]

/-- If no listed successor answers both calls, the list stays and there is an error.  Otherwise the
new list is that of the first one that does, or of its predecessor.  The stored hash stays that of
the list. -/
theorem stabilize_survives (hinj : Function.Injective hash) (hv : v.Hashed hash) (peers : Peers) :
    ((∀ h ∈ v.getSuccessors, peers.answersBoth h = false) →
      v.stabilize hash peers = (.error .nodeNoSuccessor, v)) ∧
    (∀ h, v.getSuccessors.find? peers.answersBoth = some h →
      ∃ reported, peers.getSuccessors (peers.newHead v.id h) = .ok reported ∧
        (v.stabilize hash peers).2.getSuccessors =
          ((peers.newHead v.id h :: reported.reduceOption).eraseDups).take
            extendedSuccessorEntries) ∧
    (v.stabilize hash peers).2.Hashed hash := by
  refine ⟨fun hnone => ?_, fun h hfind => ?_, hashed_stabilize hv peers⟩
  · exact stabilize_none (Peers.probe_none _ hnone)
  · obtain ⟨reported, hr, hprobe⟩ := Peers.probe_some v.id hfind
    refine ⟨reported, hr, ?_⟩
    have hne : v.getSuccessors ≠ [] := List.ne_nil_of_mem (List.mem_of_find?_eq_some hfind)
    rw [stabilize_some hprobe, getSuccessors_update hinj hv hne, makeSuccList_eq _ _ (by decide)]

end Successors

/-- Node 10 with a dead successor 20; successor 40 has a new predecessor 30. -/
def joinedBehind : Peers where
  getPredecessor m := if m = 20 then .error .nodeGone else .ok (some 30)
  getSuccessors m :=
    if m = 20 then .error .nodeGone
    else if m = 30 then .ok [some 40, none, some 50, some 40, some 60, some 10] else .ok [some 50]
  notify _ := .ok ()

theorem Successors.stabilize_survives_joined :
    (Successors.stabilize (fun l => l) joinedBehind
      ⟨10, .active, [some 20, none, some 40], [20, 40]⟩).2.getSuccessors = [30, 40, 50, 60] := by
  have hinj : Function.Injective fun l : List NodeId => l := Function.injective_id
  obtain ⟨reported, hr, heq⟩ := (stabilize_survives
    (v := ⟨10, .active, [some 20, none, some 40], [20, 40]⟩) hinj (fun _ => rfl)
    joinedBehind).2.1 40 rfl
  cases hr
  exact heq

end Specter
