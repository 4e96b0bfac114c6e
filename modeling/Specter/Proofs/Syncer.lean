import Specter.Proofs.Codec
import Specter.Proofs.Sync
import Specter.Syncer

/-!
# A skipped peer has been told

The receipt of a peer that no exchange is under way with is blank, or says what the latest exchange
carried and how it ended.  Equal digests are equal snapshots, as long as SHA-256 has no collision.
A connection that a round has listed is the peer's latest until it is closed.
-/

namespace Specter.Config

open Lib (bind_eq_ok)

variable {sha256 : Bytes → Digest} {interval : ℕ} {self : String} {s s' : Syncer} {e : SyncEvent}

theorem addressesFrom_nodup : ∀ (peers seen : List String),
    (addressesFrom seen peers).Nodup ∧ ∀ a ∈ addressesFrom seen peers, a ∉ seen
  | [], _ => by simp [addressesFrom]
  | peer :: peers, seen => by
    rw [addressesFrom]
    split_ifs with h
    · exact addressesFrom_nodup peers seen
    · obtain ⟨hn, hnot⟩ := addressesFrom_nodup peers (peer :: seen)
      refine ⟨List.nodup_cons.2 ⟨fun hm => hnot _ hm List.mem_cons_self, hn⟩, fun a ha => ?_⟩
      obtain rfl | ha := List.mem_cons.1 ha
      · exact h
      · exact fun hm => hnot a ha (List.mem_cons_of_mem _ hm)

/-- Nothing has been attempted since the receipt was made. -/
def SyncReceipt.Blank (r : SyncReceipt) : Prop := r.physical = none ∧ r.retryAt = 0

/-- The receipt is about this attempt, which has ended. -/
def SyncReceipt.About (sha256 : Bytes → Digest) (interval : ℕ) (r : SyncReceipt) (x : Attempt) :
    Prop :=
  r.digest = sum256 sha256 x.data ∧ Codec.encodeSnapshot sha256 x.records = .ok x.data ∧
    ∃ result ended, x.outcome = some (result, ended) ∧ r.retryAt = ended + interval ∧
      ∀ p, r.physical = some p → result = .ok (some p)

/-- The round has the digest of what it sends, and comes to every address once. -/
structure Round.Sound (sha256 : Bytes → Digest) (round : Round) : Prop where
  digest : round.digest = sum256 sha256 round.data
  data : Codec.encodeSnapshot sha256 round.records = .ok round.data
  nodup : round.addresses.Nodup
  fresh : ∀ a ∈ round.addresses, a ∉ round.active ∧ round.waiting ≠ some a

def Stage.Sound (sha256 : Bytes → Digest) : Stage → Prop
  | .idle => True
  | .sending request => request.digest = sum256 sha256 request.data ∧
      Codec.encodeSnapshot sha256 request.records = .ok request.data
  | .visiting round => round.Sound sha256

def Stage.active : Stage → List String
  | .visiting round => round.active
  | _ => []

structure Syncer.Inv (sha256 : Bytes → Digest) (interval : ℕ) (s : Syncer) : Prop where
  stage : s.stage.Sound sha256
  receipts : ∀ a r, s.receipts a = some r → a ∉ s.stage.active →
    r.Blank ∨ ∃ x, s.latest a = some x ∧ r.About sha256 interval x
  active : ∀ a ∈ s.stage.active, ∃ x, s.latest a = some x ∧
    Codec.encodeSnapshot sha256 x.records = .ok x.data ∧
    ∀ round, s.stage = .visiting round → x.data = round.data

theorem refresh_cases (r : SyncReceipt) (connected : Option ℕ) (closed : List ℕ) :
    (r.refresh connected closed).digest = r.digest ∧
      (r.refresh connected closed).retryAt = r.retryAt ∧
      ∀ p, (r.refresh connected closed).physical = some p →
        r.physical = some p ∧ connected = some p ∧ p ∉ closed := by
  unfold SyncReceipt.refresh
  rcases hp : r.physical with _ | p
  · simp [hp]
  dsimp only
  split_ifs with h
  · simp
  · push Not at h
    simp [hp, h.1, h.2]

theorem request_eq_ok {t : Table} {q : Request} (h : request sha256 t = .ok q) :
    q.digest = sum256 sha256 q.data ∧ Codec.encodeSnapshot sha256 q.records = .ok q.data := by
  obtain ⟨records, -, h⟩ := bind_eq_ok.1 h
  obtain ⟨data, hdata, h⟩ := bind_eq_ok.1 h
  cases h
  exact ⟨rfl, hdata⟩

namespace Syncer.Inv

variable {round : Round} {a : String}

theorem receipt (h : s.Inv sha256 interval) (ha : a ∉ s.stage.active) :
    (s.receipt round a).Blank ∨
      ∃ x, s.latest a = some x ∧ (s.receipt round a).About sha256 interval x := by
  obtain ⟨hd, ht, hp⟩ := refresh_cases ((s.receipts a).getD .zero) (round.connected a) s.closed
  have hblank : ((s.receipts a).getD .zero).Blank → (s.receipt round a).Blank := fun hb => by
    refine ⟨Option.eq_none_iff_forall_ne_some.2 fun p hq => ?_, ht.trans hb.2⟩
    exact nomatch hb.1.symm.trans (hp p hq).1
  rcases hr : s.receipts a with _ | r
  · exact .inl (hblank (by rw [hr]; exact ⟨rfl, rfl⟩))
  rcases h.receipts a r hr ha with hb | ⟨x, hx, hdigest, hdata, result, ended, ho, hretry, hphys⟩
  · exact .inl (hblank (by rwa [hr]))
  · refine .inr ⟨x, hx, ?_, hdata, result, ended, ho, ?_, fun p hq => hphys p ?_⟩
    · exact hd.trans (by rw [hr]; exact hdigest)
    · exact ht.trans (by rw [hr]; exact hretry)
    · simpa only [hr, Option.getD_some] using (hp p hq).1

theorem move (h : s.Inv sha256 interval) (hstage : s.stage = .visiting round) (round' : Round)
    (hsound : round'.Sound sha256) (hdata : round'.data = round.data)
    (hact : round'.active = round.active) {receipts : String → Option SyncReceipt}
    (hrec : ∀ b r, receipts b = some r → b ∉ round.active → s.receipts b = some r ∨
      r.Blank ∨ ∃ x, s.latest b = some x ∧ r.About sha256 interval x) :
    { s with receipts := receipts, stage := .visiting round' }.Inv sha256 interval := by
  have hactive : s.stage.active = round.active := by rw [hstage]; rfl
  refine ⟨hsound, fun b r hr hb => ?_, fun b hb => ?_⟩
  · have hb' : b ∉ round.active := hact ▸ hb
    exact (hrec b r hr hb').elim (fun hr' => h.receipts b r hr' (hactive ▸ hb')) id
  · obtain ⟨x, hx, henc, hxd⟩ := h.active b (hactive ▸ hact ▸ hb)
    refine ⟨x, hx, henc, ?_⟩
    rintro _ ⟨⟩
    exact (hxd round hstage).trans hdata.symm

theorem stepRound (h : s.Inv sha256 interval) (hstage : s.stage = .visiting round)
    (hs : s.stepRound interval round e = some s') : s'.Inv sha256 interval := by
  have hround : round.Sound sha256 := by
    have := h.stage
    rwa [hstage] at this
  have hactive : s.stage.active = round.active := by rw [hstage]; rfl
  cases e with
  | check =>
    simp only [Syncer.stepRound] at hs
    split at hs
    · rename_i address rest hw ha
      cases hs
      obtain ⟨hnot, hn⟩ := List.nodup_cons.1 (ha ▸ hround.nodup)
      have hfresh : ∀ b ∈ rest, b ∉ round.active ∧ address ≠ b := fun b hb =>
        ⟨(hround.fresh b (ha ▸ List.mem_cons_of_mem _ hb)).1, fun he => hnot (he ▸ hb)⟩
      refine h.move hstage { round with addresses := rest, waiting := _ }
        ⟨hround.digest, hround.data, hn, fun b hb => ?_⟩ rfl rfl fun b r hr hb => ?_
      · refine ⟨(hfresh b hb).1, ?_⟩
        dsimp only
        split_ifs
        · exact nofun
        · exact fun he => (hfresh b hb).2 (Option.some.inj he)
      · by_cases hba : b = address
        · subst hba
          rw [Function.update_self] at hr
          cases hr
          exact .inr (h.receipt (hactive ▸ hb))
        · rw [Function.update_of_ne hba] at hr
          exact .inl hr
    · cases hs
  | start =>
    simp only [Syncer.stepRound] at hs
    split at hs
    · cases hs
    rename_i address hw
    split_ifs at hs
    cases hs
    refine ⟨⟨hround.digest, hround.data, hround.nodup, fun b hb => ⟨?_, nofun⟩⟩,
      fun b r hr hb => ?_, fun b hb => ?_⟩
    · rw [List.mem_cons, not_or]
      exact ⟨fun he => (hround.fresh b hb).2 (he ▸ hw), (hround.fresh b hb).1⟩
    · obtain ⟨hba, hb⟩ := not_or.1 (mt List.mem_cons.2 hb)
      dsimp only
      rw [Function.update_of_ne hba]
      exact h.receipts b r hr (hactive ▸ hb)
    · by_cases hba : b = address
      · subst hba
        refine ⟨_, Function.update_self .., hround.data, ?_⟩
        rintro _ ⟨⟩
        rfl
      · obtain ⟨x, hx, henc, hxd⟩ := h.active b (hactive ▸ (List.mem_cons.1 hb).resolve_left hba)
        refine ⟨x, (Function.update_of_ne hba ..).trans hx, henc, ?_⟩
        rintro _ ⟨⟩
        exact hxd round hstage
  | cancel =>
    simp only [Syncer.stepRound] at hs
    split_ifs at hs
    cases hs
    exact h.move hstage { round with waiting := none, addresses := [], swept := true }
      ⟨hround.digest, hround.data, .nil, nofun⟩ rfl rfl fun b r hr _ => .inl hr
  | ends address result =>
    simp only [Syncer.stepRound] at hs
    split_ifs at hs with hm
    cases hs
    refine ⟨⟨hround.digest, hround.data, hround.nodup, fun b hb => ⟨?_, (hround.fresh b hb).2⟩⟩,
      fun b r hr hb => ?_, fun b hb => ?_⟩
    · exact fun he => (hround.fresh b hb).1 (List.mem_of_mem_erase he)
    · by_cases hba : b = address
      · subst hba
        obtain ⟨x, hx, henc, hxd⟩ := h.active b (hactive ▸ hm)
        dsimp only at hr ⊢
        rw [Function.update_self] at hr ⊢
        cases hr
        refine .inr ⟨_, congrArg _ hx, ?_, henc, result, s.now, rfl, rfl, fun p hp => ?_⟩
        · exact hround.digest.trans (congrArg _ (hxd round hstage).symm)
        · rcases result with e | p'
          · cases hp
          · exact congrArg Except.ok hp
      · dsimp only at hr ⊢
        rw [Function.update_of_ne hba] at hr ⊢
        refine h.receipts b r hr fun hb' => hb ?_
        rw [hactive] at hb'
        exact (List.mem_erase_of_ne hba).2 hb'
    · obtain ⟨x, hx, henc, hxd⟩ := h.active b (hactive ▸ List.mem_of_mem_erase hb)
      by_cases hba : b = address
      · subst hba
        refine ⟨_, (Function.update_self ..).trans (congrArg _ hx), henc, ?_⟩
        rintro _ ⟨⟩
        exact hxd round hstage
      · refine ⟨x, (Function.update_of_ne hba ..).trans hx, henc, ?_⟩
        rintro _ ⟨⟩
        exact hxd round hstage
  | sweep =>
    simp only [Syncer.stepRound] at hs
    split_ifs at hs
    cases hs
    refine h.move hstage { round with swept := true }
      ⟨hround.digest, hround.data, hround.nodup, hround.fresh⟩ rfl rfl fun b r hr _ => .inl ?_
    split_ifs at hr
    exact hr
  | finish =>
    simp only [Syncer.stepRound] at hs
    split_ifs at hs with hdone
    cases hs
    refine ⟨trivial, fun b r hr _ => h.receipts b r hr ?_, nofun⟩
    rw [hactive, hdone.2]
    exact List.not_mem_nil
  | _ => cases hs

theorem step (h : s.Inv sha256 interval) (hs : s.step sha256 interval self e = some s') :
    s'.Inv sha256 interval := by
  cases e with
  | put | merge | reap | close | tick =>
    cases hs
    exact ⟨h.stage, h.receipts, h.active⟩
  | connect =>
    simp only [Syncer.step] at hs
    split_ifs at hs
    cases hs
    exact ⟨h.stage, h.receipts, h.active⟩
  | restart =>
    simp only [Syncer.step] at hs
    split at hs <;> cases hs
    exact ⟨h.stage, nofun, h.active⟩
  | snapshot =>
    simp only [Syncer.step] at hs
    split at hs <;> cases hs
    · rename_i hidle hq
      refine ⟨request_eq_ok hq, fun b r hr _ => h.receipts b r hr ?_, nofun⟩
      rw [hidle]
      exact List.not_mem_nil
    · exact h
  | list peers order =>
    simp only [Syncer.step] at hs
    split at hs
    · rename_i request hsending
      have hsound := h.stage
      rw [hsending] at hsound
      split_ifs at hs with hperm
      cases hs
      refine ⟨⟨hsound.1, hsound.2, hperm.nodup_iff.2 (addressesFrom_nodup peers _).1,
        fun _ _ => ⟨List.not_mem_nil, nofun⟩⟩, fun b r hr _ => h.receipts b r hr ?_, nofun⟩
      rw [hsending]
      exact List.not_mem_nil
    · cases hs
  | check | start | cancel | ends | sweep | finish =>
    simp only [Syncer.step] at hs
    split at hs
    · exact h.stepRound ‹_› hs
    · cases hs

end Syncer.Inv

theorem Syncer.run_keeps {P : Syncer → Prop}
    (hstep : ∀ {s s' e}, P s → s.step sha256 interval self e = some s' → P s') :
    ∀ {events : List SyncEvent} {s : Syncer}, P s →
      s.run sha256 interval self events = some s' → P s'
  | [], _, h, hs => by
    cases hs
    exact h
  | e :: events, s, h, hs => by
    rw [Syncer.run, List.foldlM_cons] at hs
    obtain ⟨s₁, h₁, hs⟩ := Option.bind_eq_some_iff.1 hs
    exact run_keeps hstep (hstep h h₁) hs

/-- What the transport has cached, and what a round has listed, is the latest connection of the
peer, or closed. -/
structure Syncer.Linked (s : Syncer) : Prop where
  cached : ∀ a p, s.cached a = some p → s.current a = some p
  listed : ∀ round, s.stage = .visiting round → ∀ a p, round.connected a = some p →
    s.current a = some p ∨ p ∈ s.closed

namespace Syncer.Linked

theorem same (h : s.Linked) (hcached : s'.cached = s.cached) (hcurrent : s'.current = s.current)
    (hclosed : s'.closed = s.closed) (hstage : ∀ round', s'.stage = .visiting round' →
      ∃ round, s.stage = .visiting round ∧ round'.connected = round.connected) : s'.Linked := by
  constructor
  · rw [hcached, hcurrent]
    exact h.cached
  · intro round' hr
    obtain ⟨round, hr, he⟩ := hstage round' hr
    rw [hcurrent, hclosed, he]
    exact h.listed round hr

theorem stepRound (h : s.Linked) {round : Round} (hstage : s.stage = .visiting round)
    (hs : s.stepRound interval round e = some s') : s'.Linked := by
  unfold Syncer.stepRound at hs
  split at hs <;> (try split at hs) <;> (try split_ifs at hs) <;> cases hs <;>
    exact h.same rfl rfl rfl fun _ hr => by cases hr <;> exact ⟨round, hstage, rfl⟩

theorem step (h : s.Linked) (hs : s.step sha256 interval self e = some s') : s'.Linked := by
  cases e with
  | put | merge | tick =>
    cases hs
    exact ⟨h.cached, h.listed⟩
  | reap address =>
    cases hs
    refine ⟨fun a p hp => h.cached a p ?_, h.listed⟩
    dsimp only at hp
    rw [Function.update_apply] at hp
    split_ifs at hp
    exact hp
  | close =>
    cases hs
    exact ⟨h.cached, fun round hr a p hp => (h.listed round hr a p hp).imp_right
      (List.mem_cons_of_mem _)⟩
  | connect address physical =>
    simp only [Syncer.step] at hs
    split_ifs at hs with hc
    cases hs
    refine ⟨fun a p hp => ?_, fun round hr a p hp => ?_⟩
    · dsimp only at hp ⊢
      rw [Function.update_apply] at hp ⊢
      split_ifs at hp ⊢
      exacts [hp, h.cached a p hp]
    · dsimp only
      rw [Function.update_apply]
      split_ifs with ha
      · rcases h.listed round hr a p hp with hcur | hcl
        · rw [← ha, hcur] at hc
          exact .inr (by simpa using hc.2)
        · exact .inr hcl
      · exact h.listed round hr a p hp
  | restart =>
    simp only [Syncer.step] at hs
    split at hs <;> cases hs
    exact ⟨h.cached, h.listed⟩
  | snapshot =>
    simp only [Syncer.step] at hs
    split at hs <;> cases hs
    exacts [⟨h.cached, nofun⟩, h]
  | list =>
    simp only [Syncer.step] at hs
    split at hs
    · split_ifs at hs
      cases hs
      refine ⟨h.cached, fun round hr a p hp => .inl (h.cached a p ?_)⟩
      cases hr
      exact hp
    · cases hs
  | check | start | cancel | ends | sweep | finish =>
    simp only [Syncer.step] at hs
    split at hs
    · exact h.stepRound ‹_› hs
    · cases hs

end Syncer.Linked

theorem encodeSnapshot_injective {records records' : List Record} {data : List Char}
    (h : Codec.encodeSnapshot sha256 records = .ok data)
    (h' : Codec.encodeSnapshot sha256 records' = .ok data) : records = records' :=
  Option.some.inj ((Codec.decodeSnapshot_encodeSnapshot h).2.symm.trans
    (Codec.decodeSnapshot_encodeSnapshot h').2)

/-- In every run, when a round skips an address, the latest exchange attempted with it carried the
documents of this round's snapshot, and either it succeeded over a physical connection that is the
peer's current one and not closed, or it ended less than the interval ago.  The snapshots that are
compared do not collide under SHA-256. -/
theorem skipped_peer_has_snapshot (sha256 : Bytes → Digest) (interval : ℕ) (self : String)
    (t : Table) (events : List SyncEvent) (s : Syncer)
    (hrun : (Syncer.new t).run sha256 interval self events = some s) (round : Round)
    (hstage : s.stage = .visiting round) (a : String) (rest : List String)
    (haddr : round.addresses = a :: rest) (hskip : s.skips round a = true)
    (hcoll : ∀ x, s.latest a = some x → sum256 sha256 x.data = sum256 sha256 round.data →
      x.data = round.data) :
    ∃ x result ended, s.latest a = some x ∧ x.records = round.records ∧
      x.outcome = some (result, ended) ∧
      ((∃ p, result = .ok (some p) ∧ s.current a = some p ∧ p ∉ s.closed) ∨
        s.now < ended + interval) := by
  have hnew : (Syncer.new t).Inv sha256 interval := ⟨trivial, nofun, nofun⟩
  have hinv := Syncer.run_keeps (fun h => h.step) hnew hrun
  have hround : round.Sound sha256 := by
    have := hinv.stage
    rwa [hstage] at this
  have hactive : a ∉ s.stage.active := by
    rw [hstage]
    exact (hround.fresh a (haddr ▸ List.mem_cons_self)).1
  simp only [Syncer.skips, SyncReceipt.acknowledges, Bool.and_eq_true, decide_eq_true_eq,
    Bool.or_eq_true] at hskip
  obtain ⟨hdigest, hvalid⟩ := hskip
  rcases hinv.receipt hactive with ⟨hp, ht⟩ | ⟨x, hx, hd, henc, result, ended, ho, hretry, hphys⟩
  · rw [hp, ht] at hvalid
    simp at hvalid
  have hdata := hcoll x hx (hd.symm.trans (hdigest.trans hround.digest))
  refine ⟨x, result, ended, hx, encodeSnapshot_injective (hdata ▸ henc) hround.data, ho, ?_⟩
  rcases hvalid with hp | hnow
  · obtain ⟨p, hp⟩ := Option.isSome_iff_exists.1 hp
    obtain ⟨-, hcon, hopen⟩ := (refresh_cases _ _ _).2.2 p hp
    have hlinked : (Syncer.new t).Linked := ⟨nofun, nofun⟩
    have hcur := (Syncer.run_keeps (fun h => h.step) hlinked hrun).listed round hstage a p hcon
    exact .inl ⟨p, hphys p hp, hcur.resolve_right hopen, hopen⟩
  · exact .inr (hretry ▸ hnow)

/-- Two rounds with the same snapshot, over a connection that stays. -/
def twoRounds : List SyncEvent :=
  [.connect "peer:443" 7, .snapshot, .list ["peer:443", ""] ["peer:443"], .check, .start,
    .ends "peer:443" (.ok (some 7)), .sweep, .finish, .tick 60, .snapshot,
    .list ["peer:443"] ["peer:443"]]

/-- What the next step of a round does with this address, and whether the latest exchange with it
sent the same text. -/
def Syncer.next (s : Syncer) (a : String) : Option (List String × Bool × Option Bool) :=
  match s.stage with
  | .visiting round =>
    some (round.addresses, s.skips round a, (s.latest a).map fun x => x.data = round.data)
  | _ => none

theorem skipped_peer_has_snapshot_again : ∃ s round,
    (Syncer.new ∅).run firstByte 15 "local:443" twoRounds = some s ∧ s.stage = .visiting round ∧
    round.addresses = ["peer:443"] ∧ s.skips round "peer:443" = true ∧
    ∃ x result ended, s.latest "peer:443" = some x ∧ x.records = round.records ∧
      x.outcome = some (result, ended) ∧
      ((∃ p, result = .ok (some p) ∧ s.current "peer:443" = some p ∧ p ∉ s.closed) ∨
        s.now < ended + 15) := by
  have h : ((Syncer.new ∅).run firstByte 15 "local:443" twoRounds).bind (·.next "peer:443") =
      some (["peer:443"], true, some true) := by decide +kernel
  obtain ⟨s, hrun, h⟩ := Option.bind_eq_some_iff.1 h
  rcases hstage : s.stage with _ | _ | round <;> simp only [Syncer.next, hstage] at h <;>
    try cases h
  simp only [Option.some.injEq, Prod.mk.injEq] at h
  obtain ⟨haddr, hskip, hdata⟩ := h
  refine ⟨s, round, hrun, hstage, haddr, hskip, skipped_peer_has_snapshot firstByte 15 "local:443" ∅
    twoRounds s hrun round hstage "peer:443" [] haddr hskip fun x hx _ => ?_⟩
  simpa [hx] using hdata

end Specter.Config
