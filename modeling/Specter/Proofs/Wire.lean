import Specter.Wire

/-!
# Messages are read back as they were written

The simple value of a transfer has explicit presence, so that no value and an empty value stay
apart.  All that is needed is that the numbers and lengths fit the machine's types.
-/

namespace Specter

open Protobuf

variable (value : Option Bytes) {n : ℤ}

theorem readFields_append {M : Type} {readField : M → Protobuf.Field → Option M} {a b : M}
    {fs gs : List Protobuf.Field} (h : readFields readField a fs = some b) :
    readFields readField a (fs ++ gs) = readFields readField b gs := by
  unfold readFields at *
  rw [List.foldlM_append, h]
  rfl

theorem readFields_map {M α : Type} {readField : M → Protobuf.Field → Option M}
    {field : α → Protobuf.Field}
    (add : M → List α → M) (hnil : ∀ m, add m [] = m)
    (hcons : ∀ m a as, add (add m [a]) as = add m (a :: as)) {as : List α}
    (hread : ∀ m, ∀ a ∈ as, readField m (field a) = some (add m [a])) (m : M) :
    readFields readField m (as.map field) = some (add m as) := by
  induction as generalizing m with
  | nil => exact congrArg some (hnil m).symm
  | cons a as ih =>
    unfold readFields at ih ⊢
    rw [List.map_cons, List.foldlM_cons, hread m a (by simp)]
    exact (ih (fun m a ha => hread m a (by simp [ha])) (add m [a])).trans
      (congrArg some (hcons m a as))

namespace KVTransfer

variable {x : KVTransfer}

structure Fits (x : KVTransfer) : Prop where
  simple : ∀ v, x.simpleValue = some v → v.length < 2 ^ 63
  children : ∀ c ∈ x.prefixChildren, c.length < 2 ^ 63
  lease : x.leaseToken < 2 ^ 64

theorem fields_valid (h : x.Fits) : ∀ f ∈ x.fields, f.Valid := by
  intro f hf
  simp only [fields, List.mem_append, optionalBytes, repeatedBytes, List.mem_map,
    Option.mem_toList] at hf
  rcases hf with (⟨v, hv, rfl⟩ | ⟨c, hc, rfl⟩) | hf
  · exact ⟨by simp, by simp, h.simple v hv⟩
  · exact ⟨by simp, by simp, h.children c hc⟩
  · unfold uintField at hf
    split_ifs at hf
    · simp at hf
    · rw [List.mem_singleton] at hf
      subst hf
      exact ⟨by simp, by simp, h.lease⟩

theorem readFields_fields (x : KVTransfer) : readFields readWire blank x.fields = some x := by
  obtain ⟨simple, children, lease⟩ := x
  have h1 : readFields readWire blank (optionalBytes 1 simple) = some ⟨simple, [], 0⟩ := by
    cases simple <;> rfl
  have h2 : readFields readWire ⟨simple, [], 0⟩ (repeatedBytes 2 children) =
      some ⟨simple, children, 0⟩ :=
    readFields_map (fun (x : KVTransfer) cs => { x with prefixChildren := x.prefixChildren ++ cs })
      (by simp) (by simp) (fun _ _ _ => rfl) _
  have h3 : readFields readWire ⟨simple, children, 0⟩ (uintField 3 lease) =
      some ⟨simple, children, lease⟩ := by
    unfold uintField
    split_ifs with h0
    · rw [h0]
      rfl
    · rfl
  unfold fields
  rw [List.append_assoc, readFields_append h1, readFields_append h2, h3]

theorem unmarshalVT_marshalVT (h : x.Fits) : unmarshalVT x.marshalVT = some x := by
  rw [unmarshalVT, marshalVT, decodeFields_encodeFields (fields_valid h)]
  exact readFields_fields x

end KVTransfer

namespace ImportRequest

variable {m : ImportRequest}

structure Fits (m : ImportRequest) : Prop where
  keys : ∀ k ∈ m.keys, k.length < 2 ^ 63
  values : ∀ x ∈ m.values, x.Fits ∧ x.marshalVT.length < 2 ^ 63

theorem readFields_fields (h : ∀ x ∈ m.values, x.Fits) :
    readFields readWire blank m.fields = some m := by
  obtain ⟨keys, values⟩ := m
  have h1 : readFields readWire blank (repeatedBytes 1 keys) = some ⟨keys, []⟩ :=
    readFields_map (fun (m : ImportRequest) ks => { m with keys := m.keys ++ ks }) (by simp)
      (by simp) (fun _ _ _ => rfl) _
  have h2 : readFields readWire ⟨keys, []⟩ (repeatedBytes 2 (values.map KVTransfer.marshalVT)) =
      some ⟨keys, values⟩ := by
    rw [repeatedBytes, List.map_map]
    refine readFields_map (fun (m : ImportRequest) xs => { m with values := m.values ++ xs })
      (by simp) (by simp) (fun m x hx => ?_) _
    simp [readWire, KVTransfer.unmarshalVT_marshalVT (h x hx)]
  unfold fields
  rw [readFields_append h1, h2]

theorem unmarshalVT_marshalVT (h : m.Fits) : unmarshalVT m.marshalVT = some m := by
  have hvalid : ∀ f ∈ m.fields, f.Valid := by
    intro f hf
    simp only [fields, List.mem_append, repeatedBytes, List.mem_map] at hf
    rcases hf with ⟨k, hk, rfl⟩ | ⟨b, ⟨x, hx, rfl⟩, rfl⟩
    · exact ⟨by simp, by simp, h.keys k hk⟩
    · exact ⟨by simp, by simp, (h.values x hx).2⟩
  rw [unmarshalVT, marshalVT, decodeFields_encodeFields hvalid]
  exact readFields_fields fun x hx => (h.values x hx).1

end ImportRequest

section Fields

variable {M : Type} {readField : M → Protobuf.Field → Option M} {number : ℕ} {m : M}

theorem readFields_bytesField {b : Bytes} (set : Bytes → M)
    (h : readField m ⟨number, .bytes b⟩ = some (set b)) :
    readFields readField m (bytesField number b) = some (if b = [] then m else set b) := by
  unfold bytesField
  split_ifs with hb
  · rfl
  · simp [readFields, h]

theorem readFields_uintField {n : ℕ} (set : ℕ → M)
    (h : readField m ⟨number, .varint n⟩ = some (set n)) :
    readFields readField m (uintField number n) = some (if n = 0 then m else set n) := by
  unfold uintField
  split_ifs with hn
  · rfl
  · simp [readFields, h]

end Fields

/-- What arrives of a value: an empty one is left out. -/
def arriving (value : Option Bytes) : Option Bytes := value.filter fun b => b ≠ []

theorem arriving_eq : arriving value =
    if value.getD [] = [] then none else some (value.getD []) := by
  rcases value with _ | _ | _ <;> simp [arriving]

theorem arriving_arriving : arriving (arriving value) = arriving value := by
  rcases value with _ | _ | _ <;> simp [arriving]

theorem arriving_eq_self {value : Option Bytes} : arriving value = value ↔ value ≠ some [] := by
  rcases value with _ | _ | _ <;> simp [arriving]

theorem overWire_simpleRequest (m : SimpleRequest) :
    overWire m = some { m with value := arriving m.value } := by
  obtain ⟨key, value⟩ := m
  have h1 : readFields Message.readWire (Message.blank : SimpleRequest) (bytesField 1 key) =
      some ⟨key, none⟩ := by
    rw [readFields_bytesField (fun b => ⟨b, none⟩) rfl]
    split_ifs with h
    · rw [h]; rfl
    · rfl
  have h2 : readFields Message.readWire (⟨key, none⟩ : SimpleRequest)
      (bytesField 2 (value.getD [])) = some ⟨key, arriving value⟩ := by
    rw [readFields_bytesField (fun b => ⟨key, some b⟩) rfl, arriving_eq]
    split_ifs <;> rfl
  exact (readFields_append h1).trans h2

theorem overWire_simpleResponse (m : SimpleResponse) : overWire m = some ⟨arriving m.value⟩ := by
  refine (readFields_bytesField (fun b => ⟨some b⟩) rfl).trans ?_
  rw [arriving_eq]
  split_ifs <;> rfl

theorem overWire_prefixRequest (m : PrefixRequest) : overWire m = some m := by
  obtain ⟨pfx, child⟩ := m
  have h1 : readFields Message.readWire (Message.blank : PrefixRequest) (bytesField 1 pfx) =
      some ⟨pfx, []⟩ := by
    rw [readFields_bytesField (fun b => ⟨b, []⟩) rfl]
    split_ifs with h
    · rw [h]; rfl
    · rfl
  have h2 : readFields Message.readWire (⟨pfx, []⟩ : PrefixRequest) (bytesField 2 child) =
      some ⟨pfx, child⟩ := by
    rw [readFields_bytesField (fun b => ⟨pfx, b⟩) rfl]
    split_ifs with h
    · rw [h]
    · rfl
  exact (readFields_append h1).trans h2

theorem overWire_prefixResponse (m : PrefixResponse) : overWire m = some m := by
  obtain ⟨children, exist⟩ := m
  have h1 : readFields Message.readWire (Message.blank : PrefixResponse)
      (repeatedBytes 1 children) = some ⟨children, false⟩ :=
    readFields_map (fun (m : PrefixResponse) cs => { m with children := m.children ++ cs })
      (by simp) (by simp) (fun _ _ _ => rfl) _
  refine (readFields_append h1).trans ?_
  cases exist <;> rfl

theorem toInt64_emod (h : -2 ^ 63 ≤ n ∧ n < 2 ^ 63) : toInt64 (n % 2 ^ 64).toNat = n := by
  unfold toInt64
  split_ifs <;> omega

theorem toInt32_emod (h : -2 ^ 31 ≤ n ∧ n < 2 ^ 31) : Duration.toInt32 (n % 2 ^ 64).toNat = n := by
  unfold Duration.toInt32
  split_ifs <;> omega

theorem overWire_duration {d : Duration} (hs : -2 ^ 63 ≤ d.seconds ∧ d.seconds < 2 ^ 63)
    (hn : -2 ^ 31 ≤ d.nanos ∧ d.nanos < 2 ^ 31) : overWire d = some d := by
  obtain ⟨seconds, nanos⟩ := d
  have h1 : readFields Message.readWire (Message.blank : Duration) (intField 1 seconds) =
      some ⟨seconds, 0⟩ := by
    rw [intField, readFields_uintField (fun n => ⟨toInt64 n, 0⟩) rfl, toInt64_emod hs]
    split_ifs with h
    · have : seconds = 0 := by simp only at hs; omega
      rw [this]; rfl
    · rfl
  have h2 : readFields Message.readWire (⟨seconds, 0⟩ : Duration) (intField 2 nanos) =
      some ⟨seconds, nanos⟩ := by
    rw [intField, readFields_uintField (fun n => ⟨seconds, Duration.toInt32 n⟩) rfl,
      toInt32_emod hn]
    split_ifs with h
    · have : nanos = 0 := by simp only at hn; omega
      rw [this]
    · rfl
  exact (readFields_append h1).trans h2

theorem Duration.asDuration_new {d : ℤ} (h : -2 ^ 63 ≤ d ∧ d < 2 ^ 63) :
    (Duration.new d).asDuration = d := by
  have := Int.mul_tdiv_add_tmod d second
  unfold new asDuration maxInt64
  simp only
  rw [Int.mul_comm, this]
  omega

theorem overWire_new {d : ℤ} (h : -2 ^ 63 ≤ d ∧ d < 2 ^ 63) :
    overWire (Duration.new d) = some (Duration.new d) := by
  have h1 := Int.mul_tdiv_add_tmod d second
  have h2 := Int.lt_tmod_of_pos d (b := second) (by decide)
  have h3 := Int.tmod_lt_of_pos d (b := second) (by decide)
  unfold second at *
  refine overWire_duration ?_ ?_ <;> simp only [Duration.new, second] <;> omega

theorem Duration.fields_valid (d : Duration) : ∀ f ∈ Message.fields d, f.Valid := by
  have hint : ∀ {number : ℕ} {n : ℤ}, 0 < number → number < 2 ^ 29 →
      ∀ f ∈ intField number n, f.Valid := by
    intro number n h0 hlt f hf
    unfold intField uintField at hf
    split_ifs at hf
    · cases hf
    · rw [List.mem_singleton.1 hf]
      exact ⟨h0, hlt, by simp only; omega⟩
  intro f hf
  rcases List.mem_append.1 hf with hf | hf
  · exact hint (by decide) (by decide) f hf
  · exact hint (by decide) (by decide) f hf

theorem overWire_leaseRequest {m : LeaseRequest}
    (h : ∀ d, m.ttl = some d → overWire d = some d) : overWire m = some m := by
  obtain ⟨lease, newToken, prevToken, ttl⟩ := m
  have h1 : readFields Message.readWire (Message.blank : LeaseRequest) (bytesField 1 lease) =
      some ⟨lease, 0, 0, none⟩ := by
    rw [readFields_bytesField (fun b => ⟨b, 0, 0, none⟩) rfl]
    split_ifs with h
    · rw [h]; rfl
    · rfl
  have h2 : readFields Message.readWire (⟨lease, 0, 0, none⟩ : LeaseRequest)
      (uintField 2 newToken) = some ⟨lease, newToken, 0, none⟩ := by
    rw [readFields_uintField (fun n => ⟨lease, n, 0, none⟩) rfl]
    split_ifs with h
    · rw [h]
    · rfl
  have h3 : readFields Message.readWire (⟨lease, newToken, 0, none⟩ : LeaseRequest)
      (uintField 3 prevToken) = some ⟨lease, newToken, prevToken, none⟩ := by
    rw [readFields_uintField (fun n => ⟨lease, newToken, n, none⟩) rfl]
    split_ifs with h
    · rw [h]
    · rfl
  have h4 : readFields Message.readWire (⟨lease, newToken, prevToken, none⟩ : LeaseRequest)
      (optionalBytes 5 (ttl.map fun d => encodeFields (Message.fields d))) =
        some ⟨lease, newToken, prevToken, ttl⟩ := by
    rcases ttl with _ | d
    · rfl
    · have hd : readFields Message.readWire Message.blank (Message.fields d) = some d := h d rfl
      have hfield : Message.readWire (⟨lease, newToken, prevToken, none⟩ : LeaseRequest)
          ⟨5, .bytes (encodeFields (Message.fields d))⟩ =
            some ⟨lease, newToken, prevToken, some d⟩ := by
        change ((decodeFields (encodeFields (Message.fields d))).bind fun fs =>
          (readFields Message.readWire Message.blank fs).bind fun d =>
            some (⟨lease, newToken, prevToken, some d⟩ : LeaseRequest)) = _
        rw [decodeFields_encodeFields d.fields_valid, Option.bind_some, hd, Option.bind_some]
      simp [optionalBytes, readFields, hfield]
  exact (readFields_append
    ((readFields_append ((readFields_append h1).trans h2)).trans h3)).trans h4

theorem overWire_leaseResponse (m : LeaseResponse) : overWire m = some m := by
  obtain ⟨token⟩ := m
  refine (readFields_uintField (fun n => ⟨n⟩) rfl).trans ?_
  split_ifs with h
  · simp only at h
    rw [h]; rfl
  · rfl

end Specter
