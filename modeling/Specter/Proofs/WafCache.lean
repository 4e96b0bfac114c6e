import Specter.Proofs.TunnelStore
import Specter.WafCache

/-!
# A cached policy is never older than its lifetime

The lifetime of an entry is counted from before the store is read, and whoever returns an entry
looks at the clock after it got it.  So it does not matter how long the read took, and through whose
flight the entry came.
-/

namespace Specter.Tunnel.WafCache

open Lib

/-- What the store had at a time: it was there by then, and nothing replaced it before. -/
def HeldAt (history : List (ℤ × Option Value)) (time : ℤ) (v : Option Value) : Prop :=
  ∃ newer since older, history = newer ++ (since, v) :: older ∧ since ≤ time ∧
    ∀ x ∈ newer, time ≤ x.1

def readValue (w : WafCodec) (hostname : Hostname) :
    Option Value → Except Failure (Option HostWAFRecord × String)
  | none => .ok (none, "")
  | some (.bytes data) => decodeHostWAF w hostname data
  | some _ => .error .hostWAFInvalid

def HadRecord (w : WafCodec) (hostname : Hostname) (history : List (ℤ × Option Value)) (time : ℤ)
    (record : Option HostWAFRecord) : Prop :=
  ∃ v version, HeldAt history time v ∧ readValue w hostname v = .ok (record, version)

section Rules

variable (w : WafCodec) (hostname : Hostname) (e : Entry) {now : ℤ} {a : WafAct}
  {P : WafState → Prop} {Q : wafSig.Res a → WafState → Prop} (start : ℤ) {α : Type}

/-- The store had the record of the entry at a time when its lifetime had begun. -/
def Sound (e : Entry) (s : WafState) : Prop :=
  ∃ time ≤ s.clock, e.expiresAt ≤ time + hostWAFCacheTTL ∧
    HadRecord w hostname s.history time e.record

def Fresh (x : Option HostWAFRecord × ℤ) (s : WafState) : Prop :=
  ∃ time ≤ x.2, x.2 < time + hostWAFCacheTTL ∧ time ≤ s.clock ∧
    HadRecord w hostname s.history time x.1

structure WafInv (s : WafState) : Prop where
  current : ∃ since ≤ s.clock, ∃ older,
    s.history = (since, s.store.world.simple (.hostWAF hostname)) :: older
  cached : ∀ e, s.cache = some e → Sound w hostname e s
  landed : ∀ x ∈ s.flights.landed, ∀ e, x.2 = .ok e → Sound w hostname e s
  returned : ∀ x ∈ s.returned, Fresh w hostname x s

structure Extends (s s' : WafState) : Prop where
  clock : s.clock ≤ s'.clock
  history : ∃ newer, s'.history = newer ++ s.history ∧ ∀ x ∈ newer, s.clock ≤ x.1

variable {w hostname} {s s' : WafState}

theorem HeldAt.extends {time : ℤ} {v : Option Value} (h : HeldAt s.history time v)
    (hx : Extends s s') (htime : time ≤ s.clock) : HeldAt s'.history time v := by
  obtain ⟨newer, since, older, hh, hs, hn⟩ := h
  obtain ⟨newer', hh', hn'⟩ := hx.history
  refine ⟨newer' ++ newer, since, older, by rw [hh', hh, List.append_assoc], hs, fun x hm => ?_⟩
  rcases List.mem_append.1 hm with hm | hm
  · exact htime.trans (hn' x hm)
  · exact hn x hm

theorem Sound.extends {e : Entry} (h : Sound w hostname e s) (hx : Extends s s') :
    Sound w hostname e s' := by
  obtain ⟨time, htime, hexp, v, version, hv, hr⟩ := h
  exact ⟨time, htime.trans hx.clock, hexp, v, version, hv.extends hx htime, hr⟩

theorem Fresh.extends {x : Option HostWAFRecord × ℤ} (h : Fresh w hostname x s)
    (hx : Extends s s') : Fresh w hostname x s' := by
  obtain ⟨time, hle, hlt, htime, v, version, hv, hr⟩ := h
  exact ⟨time, hle, hlt, htime.trans hx.clock, v, version, hv.extends hx htime, hr⟩

variable (g : Given) (hostname) in
def wafRules : Rules (hostWAFCache g hostname) where
  ok _ := True
  known _ _ _ := True
  inv := WafInv g.waf hostname
  guar _ := Extends
  fresh _ _ := True
  pre _ _ := True
  post _ _ := True

/-- A step that puts nothing new into the cache or before those who wait. -/
structure Passes (hostname : Hostname) (s s' : WafState) : Prop extends Extends s s' where
  current : (∃ since ≤ s.clock, ∃ older,
      s.history = (since, s.store.world.simple (.hostWAF hostname)) :: older) →
    ∃ since ≤ s'.clock, ∃ older,
      s'.history = (since, s'.store.world.simple (.hostWAF hostname)) :: older
  cache : s'.cache = s.cache ∨ s'.cache = none
  landed : s'.flights.landed = s.flights.landed
  returned : s'.returned = s.returned

theorem Passes.keeps (h : Passes hostname s s') (hi : WafInv w hostname s) :
    WafInv w hostname s' ∧ Extends s s' := by
  refine ⟨⟨h.current hi.current, fun e he => ?_, ?_, ?_⟩, h.toExtends⟩
  · rcases h.cache with hc | hc
    · exact (hi.cached e (hc.symm.trans he)).extends h.toExtends
    · cases hc.symm.trans he
  · rw [h.landed]
    exact fun x hx e he => (hi.landed x hx e he).extends h.toExtends
  · rw [h.returned]
    exact fun x hx => (hi.returned x hx).extends h.toExtends

theorem Passes.refl (s : WafState) : Passes hostname s s :=
  ⟨⟨le_rfl, [], rfl, nofun⟩, id, .inl rfl, rfl, rfl⟩

theorem passes_clock (h : s.clock ≤ now) : Passes hostname s { s with clock := now } :=
  ⟨⟨h, [], rfl, nofun⟩, fun ⟨since, hle, hh⟩ => ⟨since, hle.trans h, hh⟩, .inl rfl, rfl, rfl⟩

theorem passes_store (h : s.clock ≤ now) (store : StoreState) :
    Passes hostname s ({ s with clock := now }.withStore hostname store) := by
  refine ⟨⟨h, [_], rfl, ?_⟩, fun _ => ⟨now, le_rfl, _, rfl⟩, .inl rfl, rfl, rfl⟩
  simpa using h

def WafAct.IsPassing : WafAct → Prop
  | .set _ | .land .. | .returns .. => False
  | _ => True

theorem passes_exec {l : WafLabel} {t : ℕ} {r : wafSig.Res a} (ha : a.IsPassing)
    (he : s.exec hostname l t a = some (r, s')) : Passes hostname s s' := by
  cases a with
  | rpc a =>
    rw [WafState.exec] at he
    split_ifs at he with hle
    obtain ⟨⟨r, store⟩, -, h⟩ := Option.map_eq_some_iff.1 he
    cases h
    exact passes_store hle store
  | ctxErr | get =>
    cases he
    exact .refl s
  | now =>
    rw [WafState.exec] at he
    split_ifs at he with hle
    cases he
    exact passes_clock hle
  | delete h =>
    rw [WafState.exec] at he
    split_ifs at he
    · cases he
      exact ⟨⟨le_rfl, [], rfl, nofun⟩, id, .inr rfl, rfl, rfl⟩
    · cases he
      exact .refl s
  | doChan =>
    cases he
    refine ⟨⟨le_rfl, [], rfl, nofun⟩, id, .inl rfl, ?_, rfl⟩
    obtain ⟨f, -, h⟩ | ⟨-, h⟩ := Flights.join_cases s.flights () <;> rw [h]
  | await flight =>
    rw [WafState.exec] at he
    split_ifs at he
    · cases he
      exact .refl s
    · obtain ⟨res, -, h⟩ := Option.map_eq_some_iff.1 he
      cases h
      exact .refl s
  | board =>
    obtain ⟨⟨x, flights⟩, hb, h⟩ := Option.map_eq_some_iff.1 he
    cases h
    refine ⟨⟨le_rfl, [], rfl, nofun⟩, id, .inl rfl, ?_, rfl⟩
    rw [(Flights.board_some hb).2]
  | _ => exact ha.elim

variable {g : Given} {t : ℕ}

theorem waf_neutral :
    (wafRules hostname g).Neutral (fun _ => Passes hostname) t WafAct.IsPassing :=
  ⟨fun ha _ he => passes_exec ha he, fun h hi => h.keeps hi⟩

theorem firm_sound :
    (wafRules hostname g).Firm (fun _ => Passes hostname) t (Sound g.waf hostname e) :=
  ⟨fun _ _ _ _ _ _ hg _ h => h.extends hg, fun h hs => hs.extends h.toExtends⟩

theorem triple_act (hP : (wafRules hostname g).Stable t P)
    (hQ : ∀ r, (wafRules hostname g).Stable t (Q r))
    (h : ∀ s l r s', WafInv g.waf hostname s → P s → s.exec hostname l t a = some (r, s') →
      WafInv g.waf hostname s' ∧ Extends s s' ∧ Q r s') :
    (wafRules hostname g).Triple t P (act a) Q :=
  .perform hP hQ fun s l r s' hi hs _ he _ => h s l r s' hi hs he

theorem triple_pass (ha : a.IsPassing) (hP : (wafRules hostname g).Stable t P)
    (hQ : ∀ r, (wafRules hostname g).Stable t (Q r))
    (h : ∀ s l r s', WafInv g.waf hostname s → P s → s.exec hostname l t a = some (r, s') →
      Extends s s' → Q r s') : (wafRules hostname g).Triple t P (act a) Q := by
  refine triple_act hP hQ fun s l r s' hi hs he => ?_
  have hp : Passes hostname s s' := passes_exec ha he
  exact and_assoc.1 ⟨hp.keeps hi, h s l r s' hi hs he hp.toExtends⟩

theorem stable_fresh (x : Option HostWAFRecord × ℤ) :
    (wafRules hostname g).Stable t (Fresh g.waf hostname x) :=
  fun _ _ _ _ _ _ hg _ h => h.extends hg

theorem Sound.fresh {e : Entry} (h : Sound w hostname e s) (hle : s.clock ≤ now)
    (hlt : now < e.expiresAt) : Fresh w hostname (e.record, now) { s with clock := now } := by
  obtain ⟨time, htime, hexp, hr⟩ := h
  exact ⟨time, htime.trans hle, hlt.trans_le hexp, htime.trans hle, hr⟩

def Timed (g : Given) (hostname : Hostname) (e : Entry) (time : ℤ) (s : WafState) : Prop :=
  Sound g.waf hostname e s ∧ (time < e.expiresAt → Fresh g.waf hostname (e.record, time) s)

theorem stable_timed (time : ℤ) : (wafRules hostname g).Stable t (Timed g hostname e time) :=
  fun _ _ _ _ _ _ hg _ h => ⟨h.1.extends hg, fun hlt => (h.2 hlt).extends hg⟩

theorem triple_now : (wafRules hostname g).Triple t (Sound g.waf hostname e) (act .now)
    fun time : ℤ => Timed g hostname e time := by
  refine triple_pass trivial (firm_sound e).stable (fun time => stable_timed e time) ?_
  intro s l r s' hi hs he hx
  refine ⟨hs.extends hx, ?_⟩
  rw [WafState.exec] at he
  split_ifs at he with hle
  cases he
  exact hs.fresh hle

theorem triple_cached : (wafRules hostname g).Triple t (fun _ => True) cached fun ans s =>
    ∀ e time, ans = some (e, time) →
      Sound g.waf hostname e s ∧ Fresh g.waf hostname (e.record, time) s := by
  have hnone : ∀ P, (wafRules hostname g).Triple t P (.ret none) fun ans s =>
      ∀ e time, ans = some (e, time) →
        Sound g.waf hostname e s ∧ Fresh g.waf hostname (e.record, time) s := fun _ =>
    .ret (fun _ _ _ _ _ _ _ _ _ => nofun) fun _ _ _ => nofun
  have hget : (wafRules hostname g).Triple t (fun _ => True) (act .get)
      fun (entry : Option Entry) s => ∀ e, entry = some e → Sound g.waf hostname e s := by
    refine triple_pass trivial (.const True)
      (fun entry _ _ _ _ _ _ hg _ h e he => (h e he).extends hg) ?_
    intro s l r s' hi _ he _ e hr
    cases he
    have hr' : (if l.dropped then none else s.cache) = some e := hr
    exact hi.cached e (Option.ite_none_left_eq_some.1 hr').2
  refine .bind hget fun entry => ?_
  rcases entry with _ | e
  · exact hnone _
  refine .bind ((triple_now e).pre fun s _ h => h e rfl) fun time => ?_
  split_ifs with hlt
  · refine .ret ?_ ?_
    · rintro s s' t' - - - hg - h e' time' ⟨⟩
      exact ⟨(h e time rfl).1.extends hg, (h e time rfl).2.extends hg⟩
    · rintro s - h e' time' ⟨⟩
      exact ⟨h.1, h.2 hlt⟩
  · exact hnone _

theorem triple_returns (record : Option HostWAFRecord) (time : ℤ) :
    (wafRules hostname g).Triple t (Fresh g.waf hostname (record, time))
      (act (.returns record time)) fun _ _ => True := by
  refine triple_act (stable_fresh _) (fun _ => .const True) ?_
  intro s l r s' hi hs he
  cases he
  have hx : Extends s { s with returned := (record, time) :: s.returned } :=
    ⟨le_rfl, [], rfl, nofun⟩
  exact ⟨⟨hi.current, hi.cached, hi.landed, List.forall_mem_cons.2 ⟨hs, hi.returned⟩⟩, hx, trivial⟩

theorem triple_goFlight : ∀ created, (wafRules hostname g).Triple t (fun _ => True)
    (goFlight created) fun _ _ => True
  | true => .start (.const True) fun _ _ _ => trivial
  | false => .done _

theorem triple_passing (ha : a.IsPassing) :
    (wafRules hostname g).Triple t (fun _ => True) (act a) fun _ _ => True :=
  waf_neutral.perform ha (.const True) (fun _ => .const True) fun _ _ _ _ _ _ _ _ => trivial

theorem triple_await (flight : ℕ) : (wafRules hostname g).Triple t (fun _ => True)
    (act (.await flight)) fun (ans : Option (Except ReadError Entry)) s =>
      ∀ e, ans = some (.ok e) → Sound g.waf hostname e s := by
  refine triple_pass trivial (.const True)
    (fun ans _ _ _ _ _ _ hg _ h e he => (h e he).extends hg) ?_
  intro s l r s' hi _ he _ e hr
  subst hr
  rw [WafState.exec] at he
  split_ifs at he
  · cases he
  obtain ⟨res, hl, h⟩ := Option.map_eq_some_iff.1 he
  cases h
  obtain ⟨l₁, l₂, hm, -⟩ := List.lookup_eq_some_iff.1 hl
  exact hi.landed (flight, .ok e) (by simp [hm]) e rfl

theorem triple_readCachedHostWAF : (wafRules hostname g).Triple t (fun _ => True)
    readCachedHostWAF fun _ _ => True := by
  refine .bind (triple_passing (by trivial)) fun done => ?_
  rcases done with _ | _
  · refine .bind triple_cached fun ans => ?_
    rcases ans with _ | ⟨e, time⟩
    · refine .bind ((triple_passing (by trivial)).pre fun _ _ _ => trivial) fun x => ?_
      refine .bind (triple_goFlight x.2) fun _ => .bind (triple_await x.1) fun result => ?_
      rcases result with _ | _ | e
      · exact .done _
      · exact .done _
      refine .bind ((triple_now e).pre fun s _ h => h e rfl) fun time => ?_
      split_ifs with hlt
      · exact .bind ((triple_returns e.record time).pre fun s _ h => h.2 hlt) fun _ => .done _
      · exact .done _
    · refine .bind ((triple_returns e.record time).pre fun s _ h => ?_) fun _ => .done _
      exact (h e time rfl).2
  · exact .done _

theorem triple_land (id : ℕ) (res : Except ReadError Entry) : (wafRules hostname g).Triple t
    (fun s => ∀ e, res = .ok e → Sound g.waf hostname e s) (act (.land id res))
    fun _ _ => True := by
  refine triple_act (fun _ _ _ _ _ _ hg _ h e he => (h e he).extends hg) (fun _ => .const True) ?_
  intro s l r s' hi hs he
  cases he
  have hx : Extends s { s with flights := s.flights.land id res } := ⟨le_rfl, [], rfl, nofun⟩
  exact ⟨⟨hi.current, hi.cached, List.forall_mem_cons.2 ⟨hs, hi.landed⟩, hi.returned⟩, hx, trivial⟩

theorem triple_keep : (wafRules hostname g).Triple t (Sound g.waf hostname e) (keep e)
    fun _ => Sound g.waf hostname e := by
  refine .bind ((triple_now e).post fun _ _ h => h.1) fun time => ?_
  by_cases hlt : 0 < e.expiresAt - time
  · rw [if_pos hlt]
    refine .bind (triple_act (firm_sound e).stable (fun _ => (firm_sound e).stable) ?_) fun _ =>
      .ret (firm_sound e).stable fun _ _ h => h
    intro s l r s' hi hs he
    cases he
    have hx : Extends s { s with cache := some e } := ⟨le_rfl, [], rfl, nofun⟩
    refine ⟨⟨hi.current, ?_, hi.landed, hi.returned⟩, hx, hs⟩
    rintro e' ⟨⟩
    exact hs
  · rw [if_neg hlt]
    exact .ret (firm_sound e).stable fun _ _ h => h

theorem triple_kvGet : (wafRules hostname g).Triple t (fun s => start ≤ s.clock)
    (act (.rpc (.kv (.get (.hostWAF hostname))))) fun (res : Except ChordError (Option Value)) s =>
      ∀ v, res = .ok v → ∃ time ≤ s.clock, start ≤ time ∧ HeldAt s.history time v := by
  refine triple_pass trivial (fun _ _ _ _ _ _ hg _ h => h.trans hg.clock) ?_ ?_
  · intro res s s' t' _ _ _ hg _ h v hv
    obtain ⟨time, hle, hstart, hheld⟩ := h v hv
    exact ⟨time, hle.trans hg.clock, hstart, hheld.extends hg hle⟩
  intro s l r s' hi hs he _ v hv
  subst hv
  rw [WafState.exec] at he
  split_ifs at he with hle
  obtain ⟨⟨r, store⟩, hex, h⟩ := Option.map_eq_some_iff.1 he
  cases h
  refine ⟨l.now, le_rfl, hs.trans hle, [], l.now, s.history, ?_, le_rfl, nofun⟩
  rcases ho : l.store.outcome with _ | e | e | e <;>
    simp only [StoreState.exec, ho, World.exec, World.answer, KvOp.failed, Option.some.injEq,
      Prod.mk.injEq, Except.ok.injEq, reduceCtorEq, false_and] at hex
  obtain ⟨rfl, rfl⟩ := hex
  rfl

theorem readHostWAF_eq : readHostWAF w hostname = kv (.get (.hostWAF hostname)) >>=
    fun res => match res with
      | .error e => pure (.error (.hostWAFUnavailable e))
      | .ok v => pure (readValue w hostname v) := by
  rw [readHostWAF]
  congr 1
  funext res
  rcases res with e | v
  · rfl
  · rcases v with _ | (_ | _ | _ | _ | _) <;> rfl

theorem triple_readHostWAF : (wafRules hostname g).Triple t (fun s => start ≤ s.clock)
    (rpc (readHostWAF g.waf hostname)) fun res s => ∀ record version, res = .ok (record, version) →
      Sound g.waf hostname ⟨record, start + hostWAFCacheTTL⟩ s := by
  have hret : ∀ v (res : Except Failure (Option HostWAFRecord × String)),
      (∀ x, res = .ok x → readValue g.waf hostname v = .ok x) →
      (wafRules hostname g).Triple t
      (fun s => ∃ time ≤ s.clock, start ≤ time ∧ HeldAt s.history time v) (.ret res)
      fun res s => ∀ record version, res = .ok (record, version) →
        Sound g.waf hostname ⟨record, start + hostWAFCacheTTL⟩ s := by
    intro v res hres
    refine .ret (fun _ _ _ _ _ _ hg _ h record version hr => (h record version hr).extends hg) ?_
    rintro s - ⟨time, hle, hstart, hheld⟩ record version hr
    exact ⟨time, hle, Int.add_le_add_right hstart _, v, version, hheld, hres _ hr⟩
  rw [readHostWAF_eq, rpc_bind]
  refine .bind (triple_kvGet start) fun res => ?_
  rcases res with e | v
  · exact .ret (fun _ _ _ _ _ _ _ _ _ _ _ => nofun) fun _ _ _ _ _ => nofun
  · exact (hret v _ fun _ h => h).pre fun s _ h => h v rfl

theorem triple_clock : (wafRules hostname g).Triple t (fun _ => True) (act .now)
    fun (time : ℤ) s => time ≤ s.clock := by
  refine triple_pass trivial (.const True) (fun _ _ _ _ _ _ _ hg _ h => h.trans hg.clock) ?_
  intro s l r s' hi _ he _
  rw [WafState.exec] at he
  split_ifs at he
  cases he
  exact le_rfl

theorem triple_flight :
    (wafRules hostname g).Triple t (fun _ => True) (flight g.waf hostname) fun _ _ => True := by
  refine .bind (triple_passing (by trivial)) fun id => .bind triple_cached fun ans => ?_
  rcases ans with _ | ⟨e, time⟩
  · refine .bind (triple_clock.pre fun _ _ _ => trivial) fun start => ?_
    refine .bind (triple_readHostWAF start) fun res => ?_
    rcases res with f | ⟨record, version⟩
    · exact (triple_land id _).pre fun _ _ _ => nofun
    have hsound : (wafRules hostname g).Stable t
        (Sound g.waf hostname ⟨record, start + hostWAFCacheTTL⟩) := (firm_sound _).stable
    refine .bind ((triple_pass (by trivial) hsound (fun _ => hsound)
      fun s l r s' _ h _ hx => h.extends hx).pre fun s _ h => h record version rfl) fun done => ?_
    rcases done with _ | _
    · refine .bind (triple_keep _) fun _ => (triple_land id _).pre ?_
      rintro s - h e ⟨⟩
      exact h
    · exact (triple_land id _).pre fun _ _ _ => nofun
  · refine (triple_land id _).pre ?_
    rintro s - h e' ⟨⟩
    exact (h e time rfl).1

theorem only_lift {α : Type} : ∀ (p : Rpc α), (rpc p).Only WafAct.IsPassing fun _ => True
  | .ret _ => trivial
  | .act _ k => ⟨trivial, fun r => only_lift (k r)⟩
  | .fork _ k => ⟨trivial, only_lift k⟩

theorem only_act (ha : a.IsPassing) : (act a).Only WafAct.IsPassing fun _ => True :=
  .perform ha

theorem only_withLease {key : Key} {failed : ChordError → RpcError}
    {p : WafProg (Except RpcError α)} (hp : p.Only WafAct.IsPassing fun _ => True) :
    (withLease key failed p).Only WafAct.IsPassing fun _ => True := by
  refine .bind (only_lift _) fun res => ?_
  rcases res with e | lease
  · exact trivial
  · exact .bind hp fun _ => .bind (only_lift _) fun _ => trivial

theorem only_setHostWAF (normalize : String → Except String Hostname) (w : WafCodec)
    (owner : Token) (h : Hostname) (policy : Option WAFPolicy) (expectedVersion : String) :
    (setHostWAF normalize w owner h policy expectedVersion).Only WafAct.IsPassing
      fun _ => True := by
  unfold setHostWAF
  split
  · exact trivial
  · exact trivial
  split
  · exact trivial
  dsimp only
  split_ifs
  · exact trivial
  refine only_withLease (.bind (only_lift _) fun res => ?_)
  rcases res with e | _
  · exact trivial
  refine .bind (only_lift _) fun res => ?_
  rcases res with f | found
  · exact trivial
  dsimp only
  split_ifs
  · exact trivial
  refine .bind (only_lift _) fun res => .bind (only_act trivial) fun _ => ?_
  rcases res with e | _ <;> exact trivial

theorem only_releaseTunnel (w : WafCodec) (token : Token) (h : Hostname) :
    (releaseTunnel w token h).Only WafAct.IsPassing fun _ => True := by
  refine only_withLease (.bind (only_lift _) fun res => ?_)
  rcases res with e | _
  · exact trivial
  have hclear : (clearHostWAF w token h).Only WafAct.IsPassing fun _ => True :=
    .bind (only_lift _) fun _ => .bind (only_act trivial) fun _ => trivial
  refine .bind hclear fun res => ?_
  rcases res with f | _
  · exact trivial
  refine .bind (only_lift _) fun res => ?_
  rcases res with e | _
  · exact trivial
  · exact .bind (only_lift _) fun _ => trivial

theorem triple_of_only {p : WafProg α} (hp : p.Only WafAct.IsPassing fun _ => True) :
    (wafRules hostname g).Triple t (fun _ => True) p fun _ _ => True :=
  waf_neutral.triple (.const True) (fun _ _ _ _ _ => trivial) hp

theorem waf_closed : (wafRules hostname g).Closed := by
  refine ⟨fun _ => .const True, fun τ t => .pre (P := fun _ => True) ?_ fun _ _ _ => trivial⟩
  cases τ with
  | readCachedHostWAF => exact .bind triple_readCachedHostWAF fun _ => .done _
  | setHostWAF owner h policy expectedVersion =>
    have hp := only_setHostWAF g.acme.normalize g.waf owner h policy expectedVersion
    exact .bind (triple_of_only hp) fun _ => .done _
  | releaseTunnel token h =>
    exact .bind (triple_of_only (only_releaseTunnel _ token h)) fun _ => .done _
  | other τ => exact triple_of_only (only_lift _)
  | kv op => exact .bind (triple_of_only (only_lift _)) fun _ => .done _
  | flight => exact triple_flight

theorem wafInv_start (clock : ℤ) (world : World) :
    WafInv w hostname (.start hostname clock world) :=
  ⟨⟨clock, le_rfl, [], rfl⟩, nofun, nofun, nofun⟩

end Rules

/-- However reads, invalidations and changes of the store are interleaved, and however long the
loads take: what a read returns at a time, a record or that there is none, is what the store had at
some time since the lifetime of an entry before. -/
theorem cached_policy_within_lifetime (g : Given) (hostname : Hostname) (clock : ℤ) (world : World)
    (tasks : List WafTask) (sched : List (ℕ × WafLabel)) (c : Config wafSig WafState)
    (h : (hostWAFCache g hostname).run sched
      ((hostWAFCache g hostname).launch tasks (.start hostname clock world)) = some c)
    (record : Option HostWAFRecord) (t : ℤ) (hret : (record, t) ∈ c.shared.returned) :
    ∃ time, t - hostWAFCacheTTL < time ∧ time ≤ t ∧
      HadRecord g.waf hostname c.shared.history time record := by
  have hgood : (wafRules hostname g).Good
      ((hostWAFCache g hostname).launch tasks (.start hostname clock world)) :=
    Rules.good_launch (wafInv_start clock world) (fun _ _ => trivial) fun t τ _ =>
      waf_closed.safe τ t _ (wafInv_start clock world) ⟨trivial, trivial⟩
  obtain ⟨-, hf⟩ := Rules.follows_of_run (R := wafRules hostname g) (φ := fun _ => True)
    (fun _ _ => ⟨trivial, trivial⟩) (fun _ _ => trivial) h trivial
  obtain ⟨time, hle, hlt, -, hr⟩ :=
    (Rules.good_run waf_closed hgood hf h).1.returned (record, t) hret
  exact ⟨time, by omega, hle, hr⟩

/-- A policy is saved while a load is under way, which then caches that there was none. -/
def savedMeanwhile : List (ℕ × WafLabel) :=
  let steps (t n : ℕ) (now : ℤ) := List.replicate n (t, (⟨.plain, now, false, false⟩ : WafLabel))
  steps 0 4 0 ++ steps 3 4 (1 * second) ++ steps 1 6 (2 * second) ++ steps 3 4 (3 * second) ++
    steps 2 4 (20 * second)

def savingTasks : List WafTask :=
  [.readCachedHostWAF, .setHostWAF [7] "a" (some defaultPolicy) "", .readCachedHostWAF]

theorem cached_policy_saved_meanwhile : ∃ c,
    (hostWAFCache .plain "a").run savedMeanwhile ((hostWAFCache .plain "a").launch savingTasks
      (.start "a" 0 (.start (fun _ => none) oneHostname))) = some c ∧
    c.shared.returned = [(none, 20 * second)] ∧
    c.shared.history.head? = some (2 * second, some (.bytes [7])) ∧
    ∃ time, 20 * second - hostWAFCacheTTL < time ∧ time ≤ 20 * second ∧
      HadRecord Given.plain.waf "a" c.shared.history time none := by
  have h : ((hostWAFCache .plain "a").run savedMeanwhile ((hostWAFCache .plain "a").launch
      savingTasks (.start "a" 0 (.start (fun _ => none) oneHostname)))).map
        (fun c => (c.shared.returned, c.shared.history.head?)) =
      some ([(none, 20 * second)], some (2 * second, some (.bytes [7]))) := by decide +kernel
  obtain ⟨c, hc, heq⟩ := Option.map_eq_some_iff.1 h
  obtain ⟨hret, hhead⟩ := Prod.mk.inj heq
  exact ⟨c, hc, hret, hhead, cached_policy_within_lifetime .plain "a" 0 _ savingTasks savedMeanwhile
    c hc none (20 * second) (by simp [hret])⟩

end Specter.Tunnel.WafCache
